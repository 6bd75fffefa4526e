import MerkleSearch.Proofs.Accepted
import MerkleSearch.Proofs.Equations
import MerkleSearch.Proofs.Path
import MerkleSearch.Proofs.Split

/-!
This module contains what a subtree has to be like to be split and merged at all, wherever it comes
from. Nothing is asked of the addresses of its nodes, and the layers of nodes may be unknown. The
main statements are that the layer can still be told, `Subtree.Shaped.layerOf_eq`, and that both
parts of a split are shaped like that again, `Subtree.Cut.spells`.
-/

namespace MerkleSearch

variable {config : Config} {store : Blockstore Id} {layer height : Nat} {ls bs ss as : List Leaf}
variable {key : String} {t : Subtree} {node : Node} {es before after : List NodeEntry}
variable {a b subtree : Option Subtree}

namespace Entry

@[simp]
theorem ofTree?_none {α : Type} : ofTree? (none : Option α) = [] := rfl

@[simp]
theorem ofTree?_some {α : Type} (t : α) : ofTree? (some t) = [.tree t] := rfl

theorem ofTree?_eq_nil : ofTree? a = [] ↔ a = none := by
  cases a <;> simp

end Entry

theorem NodeOf.fill_gap (node : Node) (key : String) :
    (node.gap key).fill (Entry.ofTree? (node.gap key).subtree) = node.entries :=
  Gap.entries_of key node.entries

namespace Gap

theorem Parts.lt_of_ne {holds : Subtree → List Leaf → Prop} {gap : Gap}
    (parts : gap.Parts config holds layer key bs ss as) (hne : ∀ l ∈ as, l.key ≠ key) :
    ∀ l ∈ as, key < l.key :=
  fun l hl => lt_of_le_of_ne (parts.le_after l hl) (hne l hl).symm

theorem of_eq (hbefore : ∀ l, .leaf l ∈ before → l.key < key)
    (hlast : ∀ e ∈ before.getLast?, e.isTree = false)
    (hafter : ∀ e ∈ after.head?, ∃ l, e = .leaf l ∧ key ≤ l.key) :
    of key (before ++ Entry.ofTree? subtree ++ after) = ⟨before, subtree, after⟩ := by
  induction before with
  | nil =>
    have hnone : of key after = ⟨[], none, after⟩ := by
      cases after with
      | nil => rfl
      | cons e after =>
        obtain ⟨l, rfl, hkey⟩ := hafter e rfl
        rw [of, if_pos hkey]
    cases subtree with
    | none => exact hnone
    | some t =>
      show of key (.tree t :: after) = _
      rw [of, hnone]
  | cons e before ih =>
    have hbelow : ∀ l, .leaf l ∈ before → l.key < key :=
      fun l hl => hbefore l (List.mem_cons_of_mem e hl)
    cases e with
    | leaf l =>
      have hrest := ih hbelow fun e he => hlast e (List.mem_getLast?_cons he)
      show of key (.leaf l :: (before ++ Entry.ofTree? subtree ++ after)) = _
      rw [of, if_neg (hbefore l List.mem_cons_self).not_ge, hrest]
    | tree t =>
      have hne : before ≠ [] := by
        rintro rfl
        cases hlast (.tree t) rfl
      have hrest := ih hbelow fun e he => hlast e (List.mem_getLast?_cons he)
      show of key (.tree t :: (before ++ Entry.ofTree? subtree ++ after)) = _
      rw [of, hrest]
      split
      · next hnil _ => exact (hne hnil).elim
      · rfl

theorem Parts.of_fill {holds holds' : Subtree → List Leaf → Prop} {gap gap' : Gap} {layer' : Nat}
    {bs' ss' as' : List Leaf} (parts : gap.Parts config holds layer key bs ss as)
    (parts' : gap'.Parts config holds' layer' key bs' ss' as') (subtree : Option Subtree) :
    of key (gap.before ++ Entry.ofTree? subtree ++ gap'.after) =
      ⟨gap.before, subtree, gap'.after⟩ := by
  apply of_eq
  · intro l hl
    exact parts.before_lt l (parts.before.leaf_mem_iff.1 hl).1
  · exact parts.before_last
  · intro e he
    have hleaf := parts'.after_head e he
    cases e with
    | tree t => cases hleaf
    | leaf l =>
      exact ⟨l, rfl, parts'.le_after l (parts'.after.leaf_mem_iff.1 (List.mem_of_mem_head? he)).1⟩

theorem Parts.found?_eq_none_of_ne {holds : Subtree → List Leaf → Prop} {gap : Gap}
    (parts : gap.Parts config holds layer key bs ss as) (hne : ∀ l ∈ as, l.key ≠ key) :
    gap.found? key = none := by
  cases hfound : gap.found? key with
  | none => rfl
  | some found =>
    obtain ⟨_, rfl, heq, -⟩ := parts.of_found hfound
    exact (hne _ List.mem_cons_self heq).elim

end Gap

structure NodeOf.Shaped (config : Config) (holds : Subtree → List Leaf → Prop) (layer : Nat)
    (node : Node) (ls : List Leaf) : Prop where
  layer_eq : node.layer = none ∨ node.layer = some layer
  apart : node.entries.IsChain Entry.Apart
  spells : Spells config holds layer node.entries ls

/--
A subtree of the given height with the given leaves. All of it can be read.
-/
def Subtree.Shaped (store : Blockstore Id) (config : Config) :
    (height : Nat) → Subtree → List Leaf → Prop
  | 0, _, _ => False
  | layer + 1, t, ls =>
    ∃ n, (t.resolve store config).run = .ok n ∧
      n.val.Shaped config (Shaped store config layer) layer ls

theorem NodeOf.Shaped.resolved
    (h : node.Shaped config (Subtree.Shaped store config layer) layer ls) :
    (Subtree.resolved node).Shaped store config (layer + 1) ls :=
  ⟨⟨node, Subtree.covers_resolved node⟩, rfl, h⟩

theorem findSomeM?_eq {α β : Type} {f : α → ExceptT Error Id (Option β)} {as : List α} {b : β}
    (hne : as ≠ []) (h : ∀ a ∈ as, f a = pure (some b)) :
    as.findSomeM? f = pure (some b) := by
  cases as with
  | nil => exact (hne rfl).elim
  | cons a as =>
    rw [List.findSomeM?, h a List.mem_cons_self, pure_bind]

theorem Subtree.layer?_of_below (hlayer : node.layer = none ∨ node.layer = some layer)
    (hleaves : ∀ l, .leaf l ∈ node.entries → config.layerOf l.key = layer)
    (hne : node.entries ≠ [])
    (hbelow : ∀ c, .tree c ∈ node.entries →
      ∃ below, layer = below + 1 ∧ (c.hintedLayer? = none ∨ c.hintedLayer? = some below) ∧
      ∃ n, (c.resolve store config).run = .ok n ∧ c.layer? store config n.val n.property =
      pure (some below))
    (covers : t.Covers node) :
    t.layer? store config node covers = pure (some layer) := by
  rw [layer?]
  split
  · next m hm =>
    rcases hlayer with hnone | hsome
    · cases hm.symm.trans hnone
    · cases hm.symm.trans hsome
      rfl
  · next l rest _ heq =>
    have hmem : l ∈ node.leaves := by rw [heq]; exact List.mem_cons_self
    obtain ⟨_ | _, he, hleaf⟩ := List.mem_filterMap.1 hmem <;> cases hleaf
    rw [hleaves l he]
  -- There are only subtrees, all of them one layer below.
  · next hnil =>
    have hsubtrees : node.subtrees ≠ [] := by
      obtain ⟨e, he⟩ := List.exists_mem_of_ne_nil _ hne
      cases e with
      | tree c => exact List.ne_nil_of_mem (NodeOf.mem_subtrees.2 he)
      | leaf l =>
        have hmem : l ∈ node.leaves := List.mem_filterMap.2 ⟨_, he, rfl⟩
        rw [hnil] at hmem
        cases hmem
    apply findSomeM?_eq (by simpa using hsubtrees)
    rintro ⟨c, hc⟩ -
    obtain ⟨below, rfl, hhint, child, hchild, hbelow⟩ := hbelow c (NodeOf.mem_subtrees.1 hc)
    dsimp only
    split
    · next m hm =>
      rcases hhint with hnone | hsome
      · cases hm.symm.trans hnone
      · cases hm.symm.trans hsome
        rfl
    · have hresolve : c.resolve store config = pure child := hchild
      rw [hresolve, pure_bind, hbelow, pure_bind]
      rfl

theorem Spells.imp {τ : Type} {holds names : τ → List Leaf → Prop} {es : List (Entry τ)}
    (h : Spells config holds layer es ls)
    (himp : ∀ t ts, .tree t ∈ es → ts.Sublist ls → holds t ts → names t ts) :
    Spells config names layer es ls := by
  induction h with
  | nil => exact .nil
  | @leaf l _ _ hlayer _ ih =>
    exact .leaf hlayer (ih fun t ts ht hsub => himp t ts (List.mem_cons_of_mem _ ht) (hsub.cons l))
  | @tree _ _ ts ls ht hne hlow _ ih =>
    refine .tree (himp _ _ List.mem_cons_self (List.sublist_append_left ts ls) ht) hne hlow
      (ih fun t ts' ht' hsub => ?_)
    exact himp t ts' (List.mem_cons_of_mem _ ht') (hsub.trans (List.sublist_append_right ts ls))

theorem Subtree.Holds.shaped {archive : Archive config} (h : t.Holds archive height ls)
    (hls : Listing ls) (hstore : archive.Agrees store) (hreadable : t.Readable store config) :
    t.Shaped store config height ls := by
  induction height generalizing t ls with
  | zero => exact h.elim
  | succ layer ih =>
    obtain ⟨n, hn, below⟩ := hreadable
    have hnode := h.of_resolve hls hstore hn
    refine ⟨n, hn, ?_, hnode.apart, ?_⟩
    · rcases hnode.layer_eq with hsome | ⟨hnone, -⟩
      · exact .inr hsome
      · exact .inl hnone
    · exact hnode.spells.imp fun c ts hc hsub hts => ih hts (hls.sublist hsub) (below c hc)

namespace Subtree.Shaped

theorem of_resolve (h : t.Shaped store config (layer + 1) ls) {n : { node : Node // t.Covers node }}
    (hn : (t.resolve store config).run = .ok n) :
    n.val.Shaped config (Subtree.Shaped store config layer) layer ls := by
  obtain ⟨n', hn', hnode⟩ := h
  rw [hn] at hn'
  cases hn'
  exact hnode

theorem hintedLayer?_eq (h : t.Shaped store config (layer + 1) ls) :
    t.hintedLayer? = none ∨ t.hintedLayer? = some layer := by
  obtain ⟨n, hn, hnode⟩ := h
  cases t with
  | resolved node => exact .inl rfl
  | unresolved address hint =>
    obtain ⟨-, bytes, record, -, -, -, hstored⟩ := resolve_unresolved hn
    obtain ⟨node, hrecord, hstored⟩ := exists_of_bind_eq_ok hstored
    obtain ⟨keys, -, rfl⟩ := NodeOf.ofRecord_iff_exists.1 hrecord
    have hlayer : n.val.layer = NodeRecord.layer? config hint.layer? keys := by
      rw [← Except.ok.inj hstored]
      rfl
    cases hhint : hint.layer? with
    | none => exact .inl hhint
    | some m =>
      rw [hhint] at hlayer
      rcases hnode.layer_eq with hnone | hsome
      · cases hnone.symm.trans hlayer
      · cases hsome.symm.trans hlayer
        exact .inr hhint

theorem layer?_eq (h : t.Shaped store config (layer + 1) ls) (hne : ls ≠ [])
    {n : { node : Node // t.Covers node }} (hn : (t.resolve store config).run = .ok n) :
    t.layer? store config n.val n.property = pure (some layer) := by
  induction layer using Nat.strong_induction_on generalizing t ls n with
  | h layer ih =>
    have hnode := h.of_resolve hn
    have hentries : n.val.entries ≠ [] := fun hnil => hne (hnode.spells.eq_nil_iff.1 hnil)
    apply layer?_of_below hnode.layer_eq (fun l hl => (hnode.spells.leaf_mem_iff.1 hl).2) hentries
    intro c hc
    obtain ⟨ts, hts, htsne, -, -⟩ := hnode.spells.of_tree_mem hc
    cases layer with
    | zero => exact hts.elim
    | succ layer =>
      have hread := hts
      obtain ⟨child, hchild, -⟩ := hread
      exact ⟨layer, rfl, hts.hintedLayer?_eq, child, hchild,
        ih layer (Nat.lt_succ_self layer) hts htsne hchild⟩

theorem layerOf_eq (h : t.Shaped store config (layer + 1) ls) (hne : ls ≠ [])
    {n : { node : Node // t.Covers node }} (hn : (t.resolve store config).run = .ok n) :
    t.layerOf store config n.val n.property = pure layer := by
  rw [layerOf, h.layer?_eq hne hn, pure_bind]
  rfl

end Subtree.Shaped

namespace NodeOf.Shaped

theorem exists_parts (h : node.Shaped config (Subtree.Shaped store config layer) layer ls)
    (hls : ls.Pairwise (·.key < ·.key)) (key : String) : ∃ bs ss as, ls = bs ++ ss ++ as ∧
      (node.gap key).Parts config (Subtree.Shaped store config layer) layer key bs ss as :=
  Gap.exists_parts h.spells hls h.apart

theorem exists_parts_of_lt (h : node.Shaped config (Subtree.Shaped store config layer) layer ls)
    (hls : ls.Pairwise (·.key < ·.key)) (hlt : ∀ l ∈ ls, l.key < key) : ∃ bs ss, ls = bs ++ ss ∧
      (node.gap key).Parts config (Subtree.Shaped store config layer) layer key bs ss [] ∧
      ∀ es, (node.gap key).fill es = (node.gap key).before ++ es := by
  obtain ⟨bs, ss, as, rfl, parts⟩ := h.exists_parts hls key
  have has : as = [] :=
    List.eq_nil_iff_forall_not_mem.2 fun l hl =>
      (parts.le_after l hl).not_gt (hlt l (List.mem_append_right _ hl))
  subst has
  refine ⟨bs, ss, List.append_nil _, parts, fun es => ?_⟩
  rw [Gap.fill, parts.after.eq_nil_iff.2 rfl, List.append_nil]

theorem exists_parts_of_gt (h : node.Shaped config (Subtree.Shaped store config layer) layer ls)
    (hls : ls.Pairwise (·.key < ·.key)) (hgt : ∀ l ∈ ls, key < l.key) : ∃ ss as, ls = ss ++ as ∧
      (node.gap key).Parts config (Subtree.Shaped store config layer) layer key [] ss as ∧
      ∀ es, (node.gap key).fill es = es ++ (node.gap key).after := by
  obtain ⟨bs, ss, as, rfl, parts⟩ := h.exists_parts hls key
  have hbs : bs = [] := List.eq_nil_iff_forall_not_mem.2 fun l hl =>
    (parts.before_lt l hl).asymm (hgt l (by simp [hl]))
  subst hbs
  refine ⟨ss, as, rfl, parts, fun es => ?_⟩
  rw [Gap.fill, parts.before.eq_nil_iff.2 rfl, List.nil_append]

theorem join {node' : Node} {ls' ms bs' ss' as' : List Leaf}
    (h : node.Shaped config (Subtree.Shaped store config layer) layer ls)
    (h' : node'.Shaped config (Subtree.Shaped store config layer) layer ls')
    (parts : (node.gap key).Parts config (Subtree.Shaped store config layer) layer key bs ss as)
    (parts' : (node'.gap key).Parts config (Subtree.Shaped store config layer) layer key bs'
      ss' as')
    (hspells : Spells config (Subtree.Shaped store config layer) layer (Entry.ofTree? subtree) ms) :
    NodeOf.Shaped config (Subtree.Shaped store config layer) layer {
      entries := (node.gap key).before ++ Entry.ofTree? subtree ++ (node'.gap key).after
      layer := some layer } (bs ++ ms ++ as') := by
  refine ⟨.inr rfl, ?_, (parts.before.append hspells).append parts'.after⟩
  apply Entry.apart_append_of_head _ (Gap.after_apart h'.apart) parts'.after_head
  exact Entry.apart_append_of_last (Gap.before_apart h.apart) (Entry.apart_ofTree? subtree)
    parts.before_last

theorem layer_filled (h : node.Shaped config (Subtree.Shaped store config layer) layer ls)
    {k? : Option Nat} (hk? : k? = node.layer ∨ k? = some layer) :
    ∀ k, node.layer = some k → k? = some k := by
  intro k hk
  rcases hk? with rfl | rfl
  · exact hk
  · rcases h.layer_eq with hnone | hsome
    · cases hnone.symm.trans hk
    · exact hsome.symm.trans hk

theorem ofEntries? (h : node.Shaped config (Subtree.Shaped store config layer) layer ls)
    (hes : es.IsChain Entry.Apart)
    (hspells : Spells config (Subtree.Shaped store config layer) layer es ss) :
    Spells config (Subtree.Shaped store config (layer + 1)) (layer + 1)
      (Entry.ofTree? (Subtree.ofEntries? es node.layer)) ss := by
  unfold Subtree.ofEntries?
  split
  · next hnil =>
    rw [List.isEmpty_iff, hspells.eq_nil_iff] at hnil
    rw [hnil]
    exact .nil
  · next hne =>
    rw [List.isEmpty_iff, hspells.eq_nil_iff] at hne
    have hshaped :
        NodeOf.Shaped config (Subtree.Shaped store config layer) layer
          { entries := es, layer := node.layer } ss :=
      ⟨h.layer_eq, hes, hspells⟩
    apply Spells.singleton hshaped.resolved hne
    exact fun l hl => Nat.lt_succ_of_le (hspells.layer_le l hl)

end NodeOf.Shaped

namespace Subtree

inductive Cut (store : Blockstore Id) (config : Config) (key : String) :
    Subtree → Option Subtree → Option Subtree → Prop
  | between {t : Subtree} {n : { node : Node // t.Covers node }}
    (hn : (t.resolve store config).run = .ok n) (hsubtree : (n.val.gap key).subtree = none) :
    Cut store config key t (ofEntries? (n.val.gap key).before n.val.layer)
      (ofEntries? (n.val.gap key).after n.val.layer)
  | through {t c : Subtree} {n : { node : Node // t.Covers node }} {a b : Option Subtree}
    (hn : (t.resolve store config).run = .ok n) (hsubtree : (n.val.gap key).subtree = some c)
    (h : Cut store config key c a b) :
    Cut store config key t (ofEntries? ((n.val.gap key).before ++ Entry.ofTree? a) n.val.layer)
      (ofEntries? (Entry.ofTree? b ++ (n.val.gap key).after) n.val.layer)

theorem Shaped.exists_cut (h : t.Shaped store config height ls) (key : String) :
    ∃ a b, t.Cut store config key a b := by
  induction height generalizing t ls with
  | zero => exact h.elim
  | succ layer ih =>
    obtain ⟨n, hn, hnode⟩ := h
    cases hsubtree : (n.val.gap key).subtree with
    | none => exact ⟨_, _, .between hn hsubtree⟩
    | some c =>
      obtain ⟨ts, hts, -⟩ := hnode.spells.of_tree_mem (NodeOf.tree_mem_of_gap hsubtree)
      obtain ⟨a, b, hcut⟩ := ih hts
      exact ⟨_, _, .through hn hsubtree hcut⟩

theorem Cut.split_eq (h : t.Cut store config key a b) : t.split store config key = pure (a, b) := by
  induction h with
  | @between t n hn hsubtree =>
    have hresolve : t.resolve store config = pure n := hn
    rw [Subtree.split_eq, hresolve, pure_bind, hsubtree]
  | @through t c n a b hn hsubtree _ ih =>
    have hresolve : t.resolve store config = pure n := hn
    rw [Subtree.split_eq, hresolve, pure_bind, hsubtree]
    dsimp only
    rw [ih, pure_bind]

theorem Cut.spells (h : t.Cut store config key a b) (hshaped : t.Shaped store config height ls)
    (hls : ls.Pairwise (·.key < ·.key)) (hkey : ∀ l ∈ ls, l.key ≠ key) :
    Spells config (Shaped store config height) height (Entry.ofTree? a) (Leaves.before key ls) ∧
      Spells config (Shaped store config height) height (Entry.ofTree? b)
        (Leaves.after key ls) := by
  induction h generalizing height ls with
  | @between t n hn hsubtree =>
    cases height with
    | zero => exact hshaped.elim
    | succ layer =>
      have hnode := hshaped.of_resolve hn
      obtain ⟨bs, ss, as, rfl, parts⟩ := hnode.exists_parts hls key
      cases parts.of_subtree_none hsubtree
      have hlt : ∀ l ∈ as, key < l.key := parts.lt_of_ne fun l hl => hkey l (by simp [hl])
      rw [parts.before_eq, parts.after_eq hlt, Leaves.before_nil, Leaves.after_nil, List.append_nil,
        List.nil_append]
      constructor
      · exact hnode.ofEntries? (Gap.before_apart hnode.apart) parts.before
      · exact hnode.ofEntries? (Gap.after_apart hnode.apart) parts.after
  | @through t c n a b hn hsubtree _ ih =>
    cases height with
    | zero => exact hshaped.elim
    | succ layer =>
      have hnode := hshaped.of_resolve hn
      obtain ⟨bs, ss, as, rfl, parts⟩ := hnode.exists_parts hls key
      have hlt : ∀ l ∈ as, key < l.key := parts.lt_of_ne fun l hl => hkey l (by simp [hl])
      have hss : ss.Pairwise (·.key < ·.key) :=
        (List.pairwise_append.1 (List.pairwise_append.1 hls).1).2.1
      obtain ⟨ha, hb⟩ := ih (parts.of_subtree_some hsubtree).1 hss fun l hl => hkey l (by simp [hl])
      rw [parts.before_eq, parts.after_eq hlt]
      constructor
      · apply hnode.ofEntries? _ (parts.before.append ha)
        exact Entry.apart_append_of_last (Gap.before_apart hnode.apart) (Entry.apart_ofTree? a)
          parts.before_last
      · apply hnode.ofEntries? _ (hb.append parts.after)
        exact Entry.apart_append_of_head (Entry.apart_ofTree? b) (Gap.after_apart hnode.apart)
          parts.after_head

end Subtree

end MerkleSearch
