import MerkleSearch.Node.Gap
import MerkleSearch.Proofs.Holds

/-!
This module contains what the gap of a key does to the leaves of a node: it cuts them into those
that are below the key, those of the subtree that the key belongs into, and those from the key on.
-/

namespace MerkleSearch

variable {config : Config} {holds : Subtree → List Leaf → Prop} {layer : Nat} {key : String}
variable {es : List NodeEntry} {ls bs ss as : List Leaf} {gap : Gap}

structure Gap.Parts (config : Config) (holds : Subtree → List Leaf → Prop) (layer : Nat)
    (key : String) (gap : Gap) (bs ss as : List Leaf) : Prop where
  before : Spells config holds layer gap.before bs
  subtree : Spells config holds layer (Entry.ofTree? gap.subtree) ss
  after : Spells config holds layer gap.after as
  before_lt : ∀ l ∈ bs, l.key < key
  le_after : ∀ l ∈ as, key ≤ l.key
  before_last : ∀ e ∈ gap.before.getLast?, e.isTree = false
  after_head : ∀ e ∈ gap.after.head?, e.isTree = false

namespace Entry

variable {α : Type} {es es' : List (Entry α)}

theorem apart_append_of_last (h : es.IsChain Apart) (h' : es'.IsChain Apart)
    (hlast : ∀ e ∈ es.getLast?, e.isTree = false) : (es ++ es').IsChain Apart := by
  rw [List.isChain_append]
  refine ⟨h, h', ?_⟩
  intro a ha b hb hboth
  rw [hlast a ha] at hboth
  simp at hboth

theorem apart_append_of_head (h : es.IsChain Apart) (h' : es'.IsChain Apart)
    (hhead : ∀ e ∈ es'.head?, e.isTree = false) : (es ++ es').IsChain Apart := by
  rw [List.isChain_append]
  refine ⟨h, h', ?_⟩
  intro a ha b hb hboth
  rw [hhead b hb] at hboth
  simp at hboth

theorem apart_ofTree? (t : Option Subtree) : (ofTree? t).IsChain Apart := by
  cases t with
  | none => exact .nil
  | some t => exact .singleton _

end Entry

namespace Gap

theorem before_apart (hes : es.IsChain Entry.Apart) : (of key es).before.IsChain Entry.Apart := by
  rw [← entries_of key es, entries, fill, List.append_assoc] at hes
  exact hes.left_of_append

theorem after_apart (hes : es.IsChain Entry.Apart) : (of key es).after.IsChain Entry.Apart := by
  rw [← entries_of key es, entries, fill] at hes
  exact hes.right_of_append

theorem of_tree_cons {t : Subtree} (hes : (Entry.tree t :: es).IsChain Entry.Apart) :
    (of key es).before = [] ∧ (of key es).subtree = none ∧
        of key (.tree t :: es) = { of key es with subtree := some t } ∨
      (of key es).before ≠ [] ∧
        of key (.tree t :: es) = { of key es with before := .tree t :: (of key es).before } := by
  have hentries := entries_of key es
  unfold entries fill at hentries
  simp only [of]
  split
  · next hbefore hsubtree => exact .inl ⟨hbefore, hsubtree, rfl⟩
  · next hother =>
    refine .inr ⟨?_, rfl⟩
    intro hbefore
    -- The first one of the entries would be a subtree, next to `t`.
    cases hsubtree : (of key es).subtree with
    | none => exact hother hbefore hsubtree
    | some u =>
      rw [hbefore, hsubtree] at hentries
      rw [← hentries] at hes
      exact hes.rel ⟨rfl, rfl⟩

namespace Parts

theorem nil : (⟨[], none, []⟩ : Gap).Parts config holds layer key [] [] [] := by
  refine ⟨.nil, .nil, .nil, List.forall_mem_nil _, List.forall_mem_nil _, ?_, ?_⟩
  · rintro _ ⟨⟩
  · rintro _ ⟨⟩

theorem behind {l : Leaf} (hlayer : config.layerOf l.key = layer)
    (h : Spells config holds layer es ls) (hlt : ∀ k ∈ ls, l.key < k.key) (hkey : key ≤ l.key) :
    (⟨[], none, .leaf l :: es⟩ : Gap).Parts config holds layer key [] [] (l :: ls) := by
  refine ⟨.nil, .nil, .leaf hlayer h, List.forall_mem_nil _, ?_, ?_, ?_⟩
  · rw [List.forall_mem_cons]
    exact ⟨hkey, fun k hk => hkey.trans (hlt k hk).le⟩
  · rintro _ ⟨⟩
  · rintro _ ⟨⟩
    rfl

theorem cons_leaf {l : Leaf} (parts : gap.Parts config holds layer key bs ss as)
    (hlayer : config.layerOf l.key = layer) (hkey : l.key < key) :
    ({ gap with before := .leaf l :: gap.before } : Gap).Parts config holds layer key
      (l :: bs) ss as := by
  refine ⟨.leaf hlayer parts.before, parts.subtree, parts.after, ?_, parts.le_after, ?_,
    parts.after_head⟩
  · exact List.forall_mem_cons.2 ⟨hkey, parts.before_lt⟩
  · intro e he
    dsimp only at he
    rw [List.getLast?_cons] at he
    cases hlast : gap.before.getLast? with
    | none =>
      rw [hlast] at he
      cases he
      rfl
    | some e' =>
      rw [hlast] at he
      cases he
      exact parts.before_last _ hlast

theorem around {t : Subtree} {ts : List Leaf} (parts : gap.Parts config holds layer key bs ss as)
    (hbefore : gap.before = []) (ht : holds t ts) (hne : ts ≠ [])
    (hlow : ∀ l ∈ ts, config.layerOf l.key < layer) :
    ({ gap with subtree := some t } : Gap).Parts config holds layer key [] ts as := by
  refine ⟨?_, .singleton ht hne hlow, parts.after, List.forall_mem_nil _, parts.le_after, ?_,
    parts.after_head⟩
  · rw [hbefore]
    exact .nil
  · rw [hbefore]
    rintro _ ⟨⟩

theorem cons_tree {t : Subtree} {ts : List Leaf}
    (parts : gap.Parts config holds layer key bs ss as) (hbefore : gap.before ≠ [])
    (ht : holds t ts) (hne : ts ≠ []) (hlow : ∀ l ∈ ts, config.layerOf l.key < layer)
    (hlt : ∀ l ∈ ts, ∀ k ∈ bs, l.key < k.key) :
    ({ gap with before := .tree t :: gap.before } : Gap).Parts config holds layer key
      (ts ++ bs) ss as := by
  refine ⟨.tree ht hne hlow parts.before, parts.subtree, parts.after, ?_, parts.le_after, ?_,
    parts.after_head⟩
  · obtain ⟨k, hk⟩ :=
      List.exists_mem_of_ne_nil bs fun hbs => hbefore (parts.before.eq_nil_iff.2 hbs)
    rw [List.forall_mem_append]
    exact ⟨fun l hl => (hlt l hl k hk).trans (parts.before_lt k hk), parts.before_lt⟩
  · intro e he
    rw [List.getLast?_cons_of_ne_nil hbefore] at he
    exact parts.before_last e he

end Parts

theorem exists_parts (h : Spells config holds layer es ls) (hls : ls.Pairwise (·.key < ·.key))
    (hes : es.IsChain Entry.Apart) :
    ∃ bs ss as, ls = bs ++ ss ++ as ∧ (of key es).Parts config holds layer key bs ss as := by
  induction h with
  | nil => exact ⟨[], [], [], rfl, .nil⟩
  | @leaf l es ls hlayer h ih =>
    unfold of
    rw [List.pairwise_cons] at hls
    split
    · next hkey => exact ⟨[], [], l :: ls, rfl, .behind hlayer h hls.1 hkey⟩
    · next hkey =>
      obtain ⟨bs, ss, as, rfl, parts⟩ := ih hls.2 hes.tail
      exact ⟨l :: bs, ss, as, rfl, parts.cons_leaf hlayer (not_le.1 hkey)⟩
  | @tree t es ts ls ht hne hlow h ih =>
    obtain ⟨-, hrest, hlt⟩ := List.pairwise_append.1 hls
    obtain ⟨bs, ss, as, rfl, parts⟩ := ih hrest hes.tail
    rcases of_tree_cons hes with ⟨hbefore, hsubtree, heq⟩ | ⟨hbefore, heq⟩
    · have hbs := parts.before
      have hss := parts.subtree
      rw [hbefore] at hbs
      rw [hsubtree] at hss
      cases hbs.of_nil
      cases hss.of_nil
      rw [heq]
      exact ⟨[], ts, as, rfl, parts.around hbefore ht hne hlow⟩
    · rw [heq]
      refine ⟨ts ++ bs, ss, as, ?_, parts.cons_tree hbefore ht hne hlow ?_⟩
      · simp only [List.append_assoc]
      · intro l hl k hk
        apply hlt l hl
        simp [hk]

namespace Parts

theorem of_subtree_some (parts : gap.Parts config holds layer key bs ss as) {below : Subtree}
    (hsubtree : gap.subtree = some below) :
    holds below ss ∧ ss ≠ [] ∧ ∀ l ∈ ss, config.layerOf l.key < layer := by
  have hspells := parts.subtree
  rw [hsubtree] at hspells
  exact hspells.of_singleton

theorem of_subtree_none (parts : gap.Parts config holds layer key bs ss as)
    (hsubtree : gap.subtree = none) :
    ss = [] := by
  have hspells := parts.subtree
  rw [hsubtree] at hspells
  exact hspells.of_nil

theorem of_found (parts : gap.Parts config holds layer key bs ss as) {leaf : Leaf}
    {rest : List NodeEntry} (hfound : gap.found? key = some (leaf, rest)) :
    ∃ ls, as = leaf :: ls ∧ leaf.key = key ∧ config.layerOf key = layer ∧
      gap.after = .leaf leaf :: rest ∧
      Spells config holds layer rest ls := by
  obtain ⟨hafter, rfl⟩ := mem_of_found? hfound
  have hspells := parts.after
  rw [hafter] at hspells
  cases hspells with
  | leaf hlayer h => exact ⟨_, rfl, rfl, hlayer, hafter, h⟩

theorem found?_eq_none (parts : gap.Parts config holds layer key bs ss as)
    (hlayer : config.layerOf key ≠ layer) : gap.found? key = none := by
  cases hfound : gap.found? key with
  | none => rfl
  | some found =>
    obtain ⟨_, _, _, heq, _⟩ := parts.of_found hfound
    exact (hlayer heq).elim

theorem lt_after (parts : gap.Parts config holds layer key bs ss as) (hls : Listing as)
    (hnone : gap.found? key = none) : ∀ l ∈ as, key < l.key := by
  unfold found? at hnone
  split at hnone
  · next leaf rest hafter =>
    split at hnone
    · cases hnone
    · next hkey =>
      have hspells := parts.after
      rw [hafter] at hspells
      cases hspells with
      | leaf hlayer h =>
        have hlt : key < leaf.key :=
          lt_of_le_of_ne (parts.le_after leaf List.mem_cons_self) (Ne.symm hkey)
        rw [List.forall_mem_cons]
        exact ⟨hlt, fun l hl => hlt.trans (hls.lt_of_cons hl)⟩
  · next hother =>
    cases hafter : gap.after with
    | nil =>
      have hspells := parts.after
      rw [hafter] at hspells
      rw [hspells.of_nil]
      exact List.forall_mem_nil _
    | cons e rest =>
      cases e with
      | leaf l => exact (hother l rest hafter).elim
      | tree t =>
        have := parts.after_head (.tree t) (by rw [hafter]; rfl)
        cases this

theorem forall_ne (parts : gap.Parts config holds layer key bs ss as) (hss : ∀ l ∈ ss, l.key ≠ key)
    (hlt : ∀ l ∈ as, key < l.key) : ∀ l ∈ bs ++ ss ++ as, l.key ≠ key := by
  rw [List.forall_mem_append, List.forall_mem_append]
  exact ⟨⟨fun l hl => (parts.before_lt l hl).ne, hss⟩, fun l hl => (hlt l hl).ne'⟩

theorem before_eq (parts : gap.Parts config holds layer key bs ss as) :
    Leaves.before key (bs ++ ss ++ as) = bs ++ Leaves.before key ss := by
  rw [Leaves.before_append, Leaves.before_append, Leaves.before_of_lt parts.before_lt,
    Leaves.before_of_le parts.le_after, List.append_nil]

theorem after_eq (parts : gap.Parts config holds layer key bs ss as) (hlt : ∀ l ∈ as, key < l.key) :
    Leaves.after key (bs ++ ss ++ as) = Leaves.after key ss ++ as := by
  have hbefore : Leaves.after key bs = [] :=
    Leaves.after_of_le fun l hl => (parts.before_lt l hl).le
  rw [Leaves.after_append, Leaves.after_append, hbefore, Leaves.after_of_lt hlt, List.nil_append]

theorem insert_eq {leaf : Leaf} (parts : gap.Parts config holds layer leaf.key bs ss as)
    (hlt : ∀ l ∈ as, leaf.key < l.key) :
    Leaves.insert leaf (bs ++ ss ++ as) = bs ++ Leaves.insert leaf ss ++ as := by
  unfold Leaves.insert
  rw [parts.before_eq, parts.after_eq hlt]
  simp only [List.append_assoc, List.cons_append]

theorem erase_eq (parts : gap.Parts config holds layer key bs ss as) (hlt : ∀ l ∈ as, key < l.key) :
    Leaves.erase key (bs ++ ss ++ as) = bs ++ Leaves.erase key ss ++ as := by
  unfold Leaves.erase
  rw [parts.before_eq, parts.after_eq hlt]
  simp only [List.append_assoc]

theorem fill (parts : gap.Parts config holds layer key bs ss as)
    (h : Spells config holds layer es ls) :
    Spells config holds layer (gap.fill es) (bs ++ ls ++ as) :=
  (parts.before.append h).append parts.after

theorem fill_apart (parts : gap.Parts config holds layer key bs ss as)
    (hbefore : gap.before.IsChain Entry.Apart) (hes : es.IsChain Entry.Apart)
    (hafter : gap.after.IsChain Entry.Apart) : (gap.fill es).IsChain Entry.Apart := by
  apply Entry.apart_append_of_head
  · exact Entry.apart_append_of_last hbefore hes parts.before_last
  · exact hafter
  · exact parts.after_head

end Parts

structure Rel (R : Subtree → Subtree → Prop) (gap gap' : Gap) : Prop where
  before : List.Forall₂ (Entry.Rel R) gap.before gap'.before
  subtree : Option.Rel R gap.subtree gap'.subtree
  after : List.Forall₂ (Entry.Rel R) gap.after gap'.after

section Rel

variable {R : Subtree → Subtree → Prop} {es' : List NodeEntry} {gap' : Gap}

theorem rel_of (key : String) (h : List.Forall₂ (Entry.Rel R) es es') :
    (of key es).Rel R (of key es') := by
  induction h with
  | nil => exact ⟨.nil, .none, .nil⟩
  | @cons _ _ es es' hrel hrest ih =>
    cases hrel with
    | leaf l =>
      unfold of
      split
      · exact ⟨.nil, .none, .cons (.leaf l) hrest⟩
      · exact ⟨.cons (.leaf l) ih.before, ih.subtree, ih.after⟩
    | tree ht =>
      obtain ⟨before, subtree, after⟩ := ih
      unfold of
      generalize of key es = gap at before subtree after
      generalize of key es' = gap' at before subtree after
      obtain ⟨bs, s, as⟩ := gap
      obtain ⟨bs', s', as'⟩ := gap'
      cases before with
      | nil =>
        cases subtree with
        | none => exact ⟨.nil, .some ht, after⟩
        | some hs => exact ⟨.cons (.tree ht) .nil, .some hs, after⟩
      | cons hb hbs => exact ⟨.cons (.tree ht) (.cons hb hbs), subtree, after⟩

namespace Rel

theorem subtree_some (h : gap.Rel R gap') {t : Subtree} (ht : gap.subtree = some t) :
    ∃ t', gap'.subtree = some t' ∧ R t t' := by
  have hsubtree := h.subtree
  rw [ht] at hsubtree
  generalize gap'.subtree = subtree' at hsubtree
  cases hsubtree with
  | some hR => exact ⟨_, rfl, hR⟩

theorem subtree_none (h : gap.Rel R gap') (hnone : gap.subtree = none) : gap'.subtree = none := by
  have hsubtree := h.subtree
  rw [hnone] at hsubtree
  generalize gap'.subtree = subtree' at hsubtree
  cases hsubtree
  rfl

theorem found?_map (h : gap.Rel R gap') (key : String) :
    (gap.found? key).map (·.1) = (gap'.found? key).map (·.1) := by
  have hafter := h.after
  unfold found?
  generalize gap.after = as at hafter
  generalize gap'.after = as' at hafter
  cases hafter with
  | nil => rfl
  | cons hrel hrest =>
    cases hrel with
    | tree => rfl
    | leaf l =>
      dsimp only
      split <;> rfl

theorem found?_some (h : gap.Rel R gap') {leaf : Leaf} {rest : List NodeEntry}
    (hfound : gap.found? key = some (leaf, rest)) :
    ∃ rest', gap'.found? key = some (leaf, rest') := by
  have hmap := h.found?_map key
  rw [hfound, eq_comm, Option.map_some, Option.map_eq_some_iff] at hmap
  obtain ⟨⟨_, rest'⟩, hfound', rfl⟩ := hmap
  exact ⟨rest', hfound'⟩

theorem found?_none (h : gap.Rel R gap') (hnone : gap.found? key = none) :
    gap'.found? key = none := by
  have hmap := h.found?_map key
  rwa [hnone, eq_comm, Option.map_none, Option.map_eq_none_iff] at hmap

end Rel

end Rel

end Gap

namespace NodeOf.Holds

variable {archive : Archive config} {node : Node}

theorem exists_parts (h : node.Holds archive (Subtree.Holds archive layer) layer ls)
    (hls : Listing ls) (key : String) :
    ∃ bs ss as, ls = bs ++ ss ++ as ∧
      (node.gap key).Parts config (Subtree.Holds archive layer) layer key bs ss as :=
  Gap.exists_parts h.spells hls.sorted h.apart

theorem withEntries (h : node.Holds archive (Subtree.Holds archive layer) layer ls)
    (hes : es.IsChain Entry.Apart)
    (hspells : Spells config (Subtree.Holds archive layer) layer es ss) :
    (node.withEntries es).Holds archive (Subtree.Holds archive layer) layer ss :=
  ⟨h.layer_eq, nofun, rfl, hes, hspells⟩

theorem fill (h : node.Holds archive (Subtree.Holds archive layer) layer ls)
    (parts : (node.gap key).Parts config (Subtree.Holds archive layer) layer key bs ss as)
    (hes : es.IsChain Entry.Apart) {ts : List Leaf}
    (hspells : Spells config (Subtree.Holds archive layer) layer es ts) :
    (node.withEntries ((node.gap key).fill es)).Holds archive (Subtree.Holds archive layer) layer
      (bs ++ ts ++ as) := by
  apply h.withEntries
  · exact parts.fill_apart (Gap.before_apart h.apart) hes (Gap.after_apart h.apart)
  · exact parts.fill hspells

theorem insertBelow {leaf : Leaf} {child : Subtree}
    (h : node.Holds archive (Subtree.Holds archive layer) layer ls)
    (parts : (node.gap leaf.key).Parts config (Subtree.Holds archive layer) layer leaf.key bs ss as)
    (hlt : ∀ l ∈ as, leaf.key < l.key) (hlower : config.layerOf leaf.key < layer)
    (hlow : ∀ l ∈ ss, config.layerOf l.key < layer)
    (hchild : child.Holds archive layer (Leaves.insert leaf ss)) :
    (node.withEntries ((node.gap leaf.key).fill [.tree child])).Holds archive
      (Subtree.Holds archive layer) layer (Leaves.insert leaf (bs ++ ss ++ as)) := by
  rw [parts.insert_eq hlt]
  apply h.fill parts (.singleton _)
  apply Spells.singleton hchild
  · exact List.append_ne_nil_of_right_ne_nil _ (List.cons_ne_nil _ _)
  · intro l hl
    rcases Leaves.mem_insert.1 hl with rfl | ⟨hl, -⟩
    · exact hlower
    · exact hlow l hl

theorem ofEntries? (h : node.Holds archive (Subtree.Holds archive layer) layer ls)
    (hes : es.IsChain Entry.Apart)
    (hspells : Spells config (Subtree.Holds archive layer) layer es ss) :
    Spells config (Subtree.Holds archive (layer + 1)) (layer + 1)
      (Entry.ofTree? (Subtree.ofEntries? es node.layer)) ss := by
  unfold Subtree.ofEntries?
  split
  · next hnil =>
    rw [List.isEmpty_iff, hspells.eq_nil_iff] at hnil
    rw [hnil]
    exact .nil
  · next hne =>
    rw [List.isEmpty_iff, hspells.eq_nil_iff] at hne
    apply Spells.singleton
    · exact h.withEntries hes hspells
    · exact hne
    · exact fun l hl => Nat.lt_succ_of_le (hspells.layer_le l hl)

end NodeOf.Holds

end MerkleSearch
