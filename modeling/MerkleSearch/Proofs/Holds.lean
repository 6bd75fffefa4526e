import MerkleSearch.Proofs.Canonical
import MerkleSearch.Proofs.Settles

/-!
This module contains what it means that a subtree holds a list of leaves: wherever its nodes are in
memory they are shaped as the leaves decide, and wherever it is known by an address only, that is
the address of the subtree which the leaves decide on. The main statements are that such a subtree
has the address of the canonical one, and that reading it from a store makes no difference.
-/

namespace MerkleSearch

variable {config : Config} {layer height : Nat} {ls ts : List Leaf}

def NodeCodec.SameAddress (codec : NodeCodec) (a b : Bytes) : Prop :=
  ∃ address, codec.address a = .ok address ∧ codec.address b = .ok address

/--
Blocks that are decoded to what has been encoded, and whose addresses are told apart.
-/
structure Archive (config : Config) where
  blocks : Bytes → Prop
  decode : ∀ record bytes, blocks bytes → config.codec.encode record = .ok bytes →
    config.codec.decode bytes = .ok record
  injective : ∀ a b, blocks a → blocks b → config.codec.SameAddress a b → a = b

namespace Archive

variable (archive : Archive config)

/--
What the store has is not mistaken for a block of the archive.
-/
def Agrees (store : Blockstore Id) : Prop :=
  ∀ address bytes block, (store.get? address).run = .ok (some bytes) → archive.blocks block →
    config.codec.SameAddress bytes block → bytes = block

def Has : (height : Nat) → List Leaf → Prop
  | 0, _ => False
  | layer + 1, ls =>
    (∃ block, canonicalBlock config layer ls = .ok block ∧ archive.blocks block.bytes) ∧
      ∀ ts, .tree ts ∈ Leaves.groups config layer ls → Has layer ts

variable {archive}

theorem Has.height_pos (h : archive.Has height ls) : 0 < height := by
  cases height with
  | zero => exact h.elim
  | succ layer => exact Nat.succ_pos layer

end Archive

def Tops (config : Config) (layer : Nat) (ls : List Leaf) : Prop :=
  ls = [] ∧ layer = 0 ∨ ∃ l ∈ ls, config.layerOf l.key = layer

def Hint.Fits (hint : Hint) (config : Config) (layer : Nat) (ls : List Leaf) : Prop :=
  hint = .layer layer ∨ hint.layer? = none ∧ hint ≠ .unknown 0 ∧ Tops config layer ls

/--
The entries of a node on `layer` hold the leaves, where `holds` says what the subtrees hold.
-/
inductive Spells {τ : Type} (config : Config) (holds : τ → List Leaf → Prop) (layer : Nat) :
    List (Entry τ) → List Leaf → Prop
  | nil : Spells config holds layer [] []
  | leaf {l : Leaf} {es : List (Entry τ)} {ls : List Leaf} (hlayer : config.layerOf l.key = layer)
    (h : Spells config holds layer es ls) : Spells config holds layer (.leaf l :: es) (l :: ls)
  | tree {t : τ} {es : List (Entry τ)} {ts ls : List Leaf} (ht : holds t ts) (hne : ts ≠ [])
    (hlow : ∀ l ∈ ts, config.layerOf l.key < layer) (h : Spells config holds layer es ls) :
    Spells config holds layer (.tree t :: es) (ts ++ ls)

structure NodeOf.Holds (archive : Archive config) (holds : Subtree → List Leaf → Prop) (layer : Nat)
    (node : Node) (ls : List Leaf) : Prop where
  layer_eq : node.layer = some layer ∨ node.layer = none ∧ layer = 0 ∧ archive.Has 1 []
  address_eq : ∀ address, node.address = some address →
    (canonical config (layer + 1) ls).address config = .ok address ∧ archive.Has (layer + 1) ls
  serial_eq : node.serial = none
  apart : node.entries.IsChain Entry.Apart
  spells : Spells config holds layer node.entries ls

theorem NodeOf.Holds.of_spells {holds : Subtree → List Leaf → Prop} {archive : Archive config}
    {es : List NodeEntry} (hes : es.IsChain Entry.Apart)
    (hspells : Spells config holds layer es ls) :
    NodeOf.Holds archive holds layer { entries := es, layer := some layer } ls :=
  ⟨.inl rfl, nofun, rfl, hes, hspells⟩

/--
A subtree of the given height holds the leaves. Its node is on the layer below that number.
-/
def Subtree.Holds (archive : Archive config) : (height : Nat) → Subtree → List Leaf → Prop
  | 0, _, _ => False
  | layer + 1, .resolved node, ls => node.Holds archive (Holds archive layer) layer ls
  | layer + 1, .unresolved address hint, ls =>
    (canonical config (layer + 1) ls).address config = .ok address ∧ archive.Has (layer + 1) ls ∧
      hint.Fits config layer ls

namespace Spells

variable {τ : Type} {holds : τ → List Leaf → Prop} {es es' : List (Entry τ)} {ls' : List Leaf}

theorem append (h : Spells config holds layer es ls) (h' : Spells config holds layer es' ls') :
    Spells config holds layer (es ++ es') (ls ++ ls') := by
  induction h with
  | nil => exact h'
  | leaf hlayer _ ih => exact .leaf hlayer ih
  | tree ht hne hlow _ ih =>
    rw [List.append_assoc]
    exact .tree ht hne hlow ih

theorem singleton {t : τ} (ht : holds t ts) (hne : ts ≠ [])
    (hlow : ∀ l ∈ ts, config.layerOf l.key < layer) : Spells config holds layer [.tree t] ts := by
  simpa using tree ht hne hlow nil

theorem of_nil (h : Spells config holds layer [] ls) : ls = [] := by
  cases h
  rfl

theorem of_append (h : Spells config holds layer (es ++ es') ls) :
    ∃ bs as, ls = bs ++ as ∧ Spells config holds layer es bs ∧
      Spells config holds layer es' as := by
  induction es generalizing ls with
  | nil => exact ⟨[], ls, rfl, .nil, h⟩
  | cons e es ih =>
    cases h with
    | leaf hlayer h =>
      obtain ⟨bs, as, rfl, hes, hes'⟩ := ih h
      exact ⟨_ :: bs, as, rfl, .leaf hlayer hes, hes'⟩
    | @tree _ _ ts _ ht hne hlow h =>
      obtain ⟨bs, as, rfl, hes, hes'⟩ := ih h
      refine ⟨ts ++ bs, as, ?_, .tree ht hne hlow hes, hes'⟩
      rw [List.append_assoc]

theorem of_tree_cons {t : τ} (h : Spells config holds layer (.tree t :: es) ls) :
    ∃ ts rs, ls = ts ++ rs ∧ holds t ts ∧ ts ≠ [] ∧ (∀ l ∈ ts, config.layerOf l.key < layer) ∧
      Spells config holds layer es rs := by
  cases h with
  | tree ht hne hlow h => exact ⟨_, _, rfl, ht, hne, hlow, h⟩

theorem of_singleton {t : τ} (h : Spells config holds layer [.tree t] ls) :
    holds t ls ∧ ls ≠ [] ∧ ∀ l ∈ ls, config.layerOf l.key < layer := by
  cases h with
  | tree ht hne hlow h =>
    cases h
    rw [List.append_nil]
    exact ⟨ht, hne, hlow⟩

theorem layer_le (h : Spells config holds layer es ls) :
    ∀ l ∈ ls, config.layerOf l.key ≤ layer := by
  induction h with
  | nil => exact nofun
  | leaf hlayer _ ih => exact List.forall_mem_cons.2 ⟨hlayer.le, ih⟩
  | tree _ _ hlow _ ih =>
    rw [List.forall_mem_append]
    exact ⟨fun l hl => (hlow l hl).le, ih⟩

theorem eq_nil_iff (h : Spells config holds layer es ls) : es = [] ↔ ls = [] := by
  cases h <;> simp_all

theorem leaf_mem_iff (h : Spells config holds layer es ls) {l : Leaf} :
    .leaf l ∈ es ↔ l ∈ ls ∧ config.layerOf l.key = layer := by
  induction h with
  | nil => simp
  | leaf hlayer _ ih =>
    simp only [List.mem_cons, Entry.leaf.injEq, ih]
    constructor
    · rintro (rfl | h)
      · exact ⟨.inl rfl, hlayer⟩
      · exact ⟨.inr h.1, h.2⟩
    · rintro ⟨rfl | h, hl⟩
      · exact .inl rfl
      · exact .inr ⟨h, hl⟩
  | tree _ _ hlow _ ih =>
    simp only [List.mem_cons, reduceCtorEq, false_or, ih, List.mem_append, or_and_right,
      iff_or_self, and_imp]
    exact fun hmem hl => absurd hl (hlow _ hmem).ne

theorem of_tree_mem (h : Spells config holds layer es ls) {t : τ} (ht : .tree t ∈ es) :
    ∃ ts, holds t ts ∧ ts ≠ [] ∧ (∀ l ∈ ts, config.layerOf l.key < layer) ∧ ts.Sublist ls := by
  induction h with
  | nil => cases ht
  | @leaf l _ _ _ _ ih =>
    rw [List.mem_cons] at ht
    obtain ⟨ts, hts, hne, hlow, hsub⟩ := ih (ht.resolve_left nofun)
    exact ⟨ts, hts, hne, hlow, hsub.cons l⟩
  | @tree _ _ ts ls hts hne hlow _ ih =>
    rw [List.mem_cons, Entry.tree.injEq] at ht
    rcases ht with rfl | ht
    · exact ⟨ts, hts, hne, hlow, List.sublist_append_left ts ls⟩
    · obtain ⟨ts', hts', hne', hlow', hsub⟩ := ih ht
      exact ⟨ts', hts', hne', hlow', hsub.trans (List.sublist_append_right ts ls)⟩

theorem leaves_eq (h : Spells config holds layer es ls) :
    Entry.leaves es = ls.filter (config.layerOf ·.key = layer) := by
  induction h with
  | nil => rfl
  | leaf hlayer _ ih => simp [hlayer, ih]
  | tree _ _ hlow _ ih =>
    rw [List.filter_append, Entry.leaves_tree, ih, List.self_eq_append_left, List.filter_eq_nil_iff]
    intro l hl
    simpa using (hlow l hl).ne

theorem groups (h : Spells config holds layer es ls) (hes : es.IsChain Entry.Apart) :
    List.Forall₂ (Entry.Rel holds) es (Leaves.groups config layer ls) := by
  induction h with
  | nil => exact .nil
  | @leaf l es ls hlayer _ ih =>
    rw [Leaves.groups, if_pos hlayer]
    exact .cons (.leaf l) (ih hes.tail)
  | @tree t es ts ls ht hne hlow _ ih =>
    have hrest := ih hes.tail
    -- The leaves after this subtree do not start with more of the same run.
    have hhead : ∀ e ∈ (Leaves.groups config layer ls).head?, e.isTree = false := by
      generalize Leaves.groups config layer ls = gs at hrest
      cases hrest with
      | nil =>
        rintro _ ⟨⟩
      | cons hrel =>
        rintro _ ⟨⟩
        rw [← hrel.isTree_eq, Bool.eq_false_iff]
        exact fun htree => hes.rel ⟨rfl, htree⟩
    rw [Leaves.groups_append hne hlow hhead]
    exact .cons (.tree ht) hrest

theorem of_forall₂ {σ : Type} {names : σ → List Leaf → Prop} {us : List (Entry σ)}
    {R : τ → σ → Prop} (h : Spells config names layer us ls)
    (hes : List.Forall₂ (Entry.Rel R) es us)
    (hholds : ∀ t u ts, R t u → names u ts → ts ≠ [] → (∀ l ∈ ts, config.layerOf l.key < layer) →
      holds t ts) :
    Spells config holds layer es ls := by
  induction h generalizing es with
  | nil =>
    cases hes
    exact .nil
  | leaf hlayer _ ih =>
    cases hes with
    | cons hrel hes =>
      cases hrel
      exact .leaf hlayer (ih hes)
  | tree hu hne hlow _ ih =>
    cases hes with
    | cons hrel hes =>
      cases hrel with
      | tree hR => exact .tree (hholds _ _ _ hR hu hne hlow) hne hlow (ih hes)

end Spells

namespace Leaves

theorem spells_groups (hls : ∀ l ∈ ls, config.layerOf l.key ≤ layer) :
    Spells config Eq layer (groups config layer ls) ls := by
  induction ls with
  | nil => exact .nil
  | cons l ls ih =>
    rw [List.forall_mem_cons] at hls
    have ih := ih hls.2
    unfold groups
    split
    · next hlayer => exact .leaf hlayer ih
    · next hlayer =>
      have hlow : config.layerOf l.key < layer := lt_of_le_of_ne hls.1 hlayer
      split
      · next heq =>
        rw [heq] at ih
        cases ih with
        | tree ht hne hbelow hrest =>
          cases ht
          exact .tree rfl (List.cons_ne_nil _ _) (List.forall_mem_cons.2 ⟨hlow, hbelow⟩) hrest
      · exact .tree rfl (List.cons_ne_nil l []) (by simpa using hlow) ih

theorem groups_apart : (groups config layer ls).IsChain Entry.Apart := by
  induction ls with
  | nil => exact .nil
  | cons l ls ih =>
    unfold groups
    split
    · exact List.isChain_cons.2 ⟨fun e _ => by simp [Entry.Apart, Entry.isTree], ih⟩
    · split
      · next heq =>
        rw [heq, List.isChain_cons] at ih
        exact List.isChain_cons.2 ih
      · next hhead =>
        refine List.isChain_cons.2 ⟨?_, ih⟩
        intro e he
        cases e with
        | leaf => simp [Entry.Apart, Entry.isTree]
        | tree ts =>
          obtain ⟨rest, heq⟩ := List.head?_eq_some_iff.1 he
          exact (hhead ts rest heq).elim

end Leaves

variable {archive : Archive config} {store : Blockstore Id} {t : Subtree} {node : Node}

theorem NodeOf.Holds.block_eq (h : node.Holds archive (Subtree.Holds archive layer) layer ls)
    (ih : ∀ t ts, Subtree.Holds archive layer t ts →
      t.address config = (canonical config layer ts).address config) :
    node.block config = canonicalBlock config layer ls := by
  have hentries : entryAddresses config node.entries =
      entryAddresses config (canonicalNode config layer ls).entries := by
    rw [entryAddresses_eq_map, entryAddresses_eq_map, canonicalNode, List.map_map,
      Entry.map_comp_map]
    exact Entry.map_eq_of_forall₂ (h.spells.groups h.apart) ih
  rw [canonicalBlock, NodeOf.block, NodeOf.block, NodeOf.record, NodeOf.record, hentries]

theorem Subtree.address_resolved_some {address : Cid} (h : node.address = some address) :
    (Subtree.resolved node).address config = .ok address := by
  obtain ⟨es, layer, known, serial⟩ := node
  cases h
  rfl

namespace NodeOf.Holds

theorem mem_leaves {holds : Subtree → List Leaf → Prop} (h : node.Holds archive holds layer ls)
    {l : Leaf} :
    l ∈ node.leaves ↔ l ∈ ls ∧ config.layerOf l.key = layer := by
  have heq : node.leaves = ls.filter (config.layerOf ·.key = layer) := h.spells.leaves_eq
  rw [heq, List.mem_filter, decide_eq_true_iff]

theorem exists_group (h : node.Holds archive (Subtree.Holds archive layer) layer ls) {c : Subtree}
    (hc : .tree c ∈ node.entries) :
    ∃ ts, .tree ts ∈ Leaves.groups config layer ls ∧ ts.Sublist ls ∧ c.Holds archive layer ts := by
  obtain ⟨ts, hts, hholds⟩ := Entry.exists_tree_of_forall₂_left (h.spells.groups h.apart) hc
  obtain ⟨_, rfl, -, -, hsub⟩ := (Leaves.spells_groups h.spells.layer_le).of_tree_mem hts
  exact ⟨_, hts, hsub, hholds⟩

theorem exists_subtree (h : node.Holds archive (Subtree.Holds archive layer) layer ls)
    (hts : .tree ts ∈ Leaves.groups config layer ls) :
    ∃ c, .tree c ∈ node.entries ∧ ts.Sublist ls ∧ c.Holds archive layer ts := by
  obtain ⟨c, hc, hholds⟩ := Entry.exists_tree_of_forall₂ (h.spells.groups h.apart) hts
  obtain ⟨_, rfl, -, -, hsub⟩ := (Leaves.spells_groups h.spells.layer_le).of_tree_mem hts
  exact ⟨c, hc, hsub, hholds⟩

theorem pair {node' : Node} (h : node.Holds archive (Subtree.Holds archive layer) layer ls)
    (h' : node'.Holds archive (Subtree.Holds archive layer) layer ls) :
    List.Forall₂ (Entry.Rel fun c c' => ∃ ts, .tree ts ∈ Leaves.groups config layer ls ∧
      c.Holds archive layer ts ∧ c'.Holds archive layer ts) node.entries node'.entries :=
  Entry.forall₂_join (h.spells.groups h.apart) (h'.spells.groups h'.apart)

end NodeOf.Holds

namespace Subtree.Holds

theorem address_eq (h : t.Holds archive height ls) :
    t.address config = (canonical config height ls).address config := by
  induction height generalizing t ls with
  | zero => exact h.elim
  | succ layer ih =>
    match t, h with
    | .unresolved address hint, h => exact h.1.symm
    | .resolved node, h =>
      cases haddress : node.address with
      | some address => rw [address_resolved_some haddress, (h.address_eq address haddress).1]
      | none => rw [address_resolved haddress, address_canonical, h.block_eq fun t ts => ih]

end Subtree.Holds

end MerkleSearch
