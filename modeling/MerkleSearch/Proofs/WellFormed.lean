import MerkleSearch.Proofs.Reach
import MerkleSearch.Proofs.Table

/-!
This module contains the shape that every tree keeps, as it can be seen by reading the tree: what is
said about a node is said about whatever comes back when the node is asked for.
-/

namespace MerkleSearch

variable {config : Config} {archive : Archive config} {store : Blockstore Id} {tree : Tree}
variable {t : Subtree} {layer : Nat} {ls : List Leaf} {lower upper : Option String}

def Key.Between (lower upper : Option String) (key : String) : Prop :=
  (∀ k ∈ lower, k < key) ∧ ∀ k ∈ upper, key < k

structure NodeOf.Ordered (config : Config) (layer : Nat) (lower upper : Option String)
    (node : Node) : Prop where
  valid : ∀ l ∈ node.leaves, Key.isValid l.key
  sorted : node.leaves.Pairwise (·.key < ·.key)
  layer_eq : ∀ l ∈ node.leaves, config.layerOf l.key = layer
  between : ∀ l ∈ node.leaves, Key.Between lower upper l.key
  apart : node.entries.IsChain Entry.Apart
  lowest : layer = 0 → node.subtrees = []

namespace Subtree

/--
A subtree of a node, with the nearest leaf keys at either side, is one layer below the node.
-/
inductive WellFormed (store : Blockstore Id) (config : Config) :
    Nat → Option String → Option String → Subtree → Prop
  | intro {layer : Nat} {lower upper : Option String} {t : Subtree}
    (node : ∀ n, (t.resolve store config).run = .ok n → n.val.Ordered config layer lower upper ∧
      (t.layerOf store config n.val n.property).run = .ok layer)
    (nonempty : ∀ n, (t.resolve store config).run = .ok n → ∀ c ∈ n.val.subtrees,
      ∀ child, (c.resolve store config).run = .ok child → child.val.entries ≠ [])
    (below : ∀ n, (t.resolve store config).run = .ok n →
      ∀ left c right, n.val.entries = left ++ .tree c :: right →
      WellFormed store config (layer - 1) (((Entry.leaves left).getLast?.map (·.key)).or lower)
      (((Entry.leaves right).head?.map (·.key)).or upper) c) :
    WellFormed store config layer lower upper t

end Subtree

structure Tree.WellFormed (store : Blockstore Id) (tree : Tree) : Prop where
  root : ∀ layer, (tree.layer store).run = .ok layer →
    tree.root.WellFormed store tree.config layer none none
  leaf : ∀ n, (tree.root.resolve store tree.config).run = .ok n → n.val.entries = [] ∨
    n.val.leaves ≠ []
  highest : ∀ layer, (tree.layer store).run = .ok layer →
    (∀ l, tree.root.Contains store tree.config l → tree.config.layerOf l.key ≤ layer) ∧
      (layer = 0 ∧ (∀ l, ¬tree.root.Contains store tree.config l) ∨
        ∃ l, tree.root.Contains store tree.config l ∧ tree.config.layerOf l.key = layer)

theorem NodeOf.Holds.ordered {node : Node}
    (h : node.Holds archive (Subtree.Holds archive layer) layer ls) (hls : Listing ls)
    (hbetween : ∀ l ∈ ls, Key.Between lower upper l.key) :
    node.Ordered config layer lower upper := by
  constructor
  · exact fun l hl => hls.valid l (h.mem_leaves.1 hl).1
  · have hleaves : node.leaves = ls.filter (config.layerOf ·.key = layer) := h.spells.leaves_eq
    rw [hleaves]
    exact hls.sorted.sublist List.filter_sublist
  · exact fun l hl => (h.mem_leaves.1 hl).2
  · exact fun l hl => hbetween l (h.mem_leaves.1 hl).1
  · exact h.apart
  · rintro rfl
    rw [List.eq_nil_iff_forall_not_mem]
    intro c hc
    obtain ⟨_, hholds, -⟩ := h.spells.of_tree_mem (NodeOf.mem_subtrees.1 hc)
    exact hholds

theorem forall_mem_map_or {o : Option Leaf} {bound : Option String} {p : String → Prop}
    (ho : ∀ l ∈ o, p l.key) (hbound : ∀ k ∈ bound, p k) : ∀ k ∈ (o.map (·.key)).or bound, p k := by
  cases o with
  | none => exact hbound
  | some l =>
    rintro _ ⟨⟩
    exact ho l rfl

theorem Spells.mem_of_mem_leaves {τ : Type} {holds : τ → List Leaf → Prop} {es : List (Entry τ)}
    {l : Leaf} (h : Spells config holds layer es ls) (hl : l ∈ Entry.leaves es) :
    l ∈ ls := by
  rw [h.leaves_eq] at hl
  exact List.mem_of_mem_filter hl

namespace Subtree.Holds

theorem wellFormed {layer : Nat} {t : Subtree} {ls : List Leaf} {lower upper : Option String}
    (h : t.Holds archive (layer + 1) ls) (hls : Listing ls) (hstore : archive.Agrees store)
    (hbetween : ∀ l ∈ ls, Key.Between lower upper l.key) :
    t.WellFormed store config layer lower upper := by
  constructor
  · intro n hn
    have hnode := h.of_resolve hls hstore hn
    rw [hnode.layerOf n.property]
    exact ⟨hnode.ordered hls hbetween, rfl⟩
  · intro n hn c hc child hchild
    have hnode := h.of_resolve hls hstore hn
    obtain ⟨ts, hts, hne, -, hsub⟩ := hnode.spells.of_tree_mem (NodeOf.mem_subtrees.1 hc)
    match layer with
    | 0 => exact hts.elim
    | layer + 1 =>
      have hheld := hts.of_resolve (hls.sublist hsub) hstore hchild
      exact mt hheld.spells.eq_nil_iff.1 hne
  · intro n hn left c right hentries
    have hspells := (h.of_resolve hls hstore hn).spells
    rw [hentries] at hspells
    obtain ⟨bs, _, rfl, hleft, hrest⟩ := hspells.of_append
    obtain ⟨ts, as, rfl, hts, -, -, hright⟩ := hrest.of_tree_cons
    match layer with
    | 0 => exact hts.elim
    | layer + 1 =>
      apply hts.wellFormed hls.right.left hstore
      intro l hl
      have hl' : l ∈ bs ++ (ts ++ as) := by simp [hl]
      constructor
      · apply forall_mem_map_or
        · intro k hk
          apply hls.lt_of_append (hleft.mem_of_mem_leaves (List.mem_of_getLast? hk))
          simp [hl]
        · exact (hbetween l hl').1
      · apply forall_mem_map_or
        · intro k hk
          exact hls.right.lt_of_append hl (hright.mem_of_mem_leaves (List.mem_of_head? hk))
        · exact (hbetween l hl').2

theorem mem_of_contains {l : Leaf} (h : t.Holds archive (layer + 1) ls) (hls : Listing ls)
    (hstore : archive.Agrees store) (hl : t.Contains store config l) : l ∈ ls := by
  obtain ⟨node, hnode, hl⟩ := hl
  obtain ⟨n, us, hus, -, hheld⟩ := h.of_reaches hls hstore hnode
  have hlow : ∀ l ∈ ls, config.layerOf l.key < layer + 1 :=
    fun l hl => Nat.lt_succ_of_le (h.layer_le l hl)
  exact (Extent.of_mem_spread hlow hus).2.1.subset (hheld.mem_leaves.1 hl).1

end Subtree.Holds

theorem Tops.layer_lt (h : Tops config layer ls) : layer + 1 < UInt32.size := by
  rcases h with ⟨-, rfl⟩ | ⟨l, -, rfl⟩
  · decide
  · exact config.layerOf_lt l.key

namespace Tree

theorem Holds.returns_layer (h : tree.Holds archive ls) (hstore : archive.Agrees store) :
    Returns (tree.Readable store) (tree.layer store) fun layer =>
      Tops config layer ls ∧ tree.root.Holds archive (layer + 1) ls := by
  obtain ⟨layer, htops, hroot⟩ := h.root
  cases h.config_eq
  unfold Tree.layer
  apply (hroot.resolve h.listing hstore).bind
  rintro ⟨node, covers⟩ ⟨hnode, -⟩
  dsimp only
  rw [hnode.layerOf covers]
  exact Settles.pure ⟨htops, hroot⟩

theorem Holds.wellFormed (h : tree.Holds archive ls) (hstore : archive.Agrees store) :
    tree.WellFormed store := by
  have hlayer := h.returns_layer hstore
  cases h.config_eq
  constructor
  · intro layer hrun
    obtain ⟨-, hroot⟩ := hlayer.of_ok hrun
    exact hroot.wellFormed h.listing hstore fun _ _ => ⟨nofun, nofun⟩
  · intro n hn
    obtain ⟨layer, htops, hroot⟩ := h.root
    have hnode := hroot.of_resolve h.listing hstore hn
    rcases htops with ⟨rfl, -⟩ | ⟨l, hl, hlayer⟩
    · exact .inl (hnode.spells.eq_nil_iff.2 rfl)
    · apply Or.inr
      apply List.ne_nil_of_mem
      exact hnode.mem_leaves.2 ⟨hl, hlayer⟩
  · intro layer hrun
    obtain ⟨htops, hroot⟩ := hlayer.of_ok hrun
    have hmem : ∀ l, tree.root.Contains store tree.config l → l ∈ ls :=
      fun l => hroot.mem_of_contains h.listing hstore
    refine ⟨fun l hl => hroot.layer_le l (hmem l hl), ?_⟩
    rcases htops with ⟨rfl, rfl⟩ | ⟨l, hl, hlayer⟩
    · exact .inl ⟨rfl, fun l hl => nomatch hmem l hl⟩
    · refine .inr ⟨l, ?_, hlayer⟩
      unfold Tree.layer at hrun
      obtain ⟨n, hn, -⟩ := exists_of_run_bind_eq_ok hrun
      have hnode := hroot.of_resolve h.listing hstore hn
      refine ⟨n.val, .here hn, ?_⟩
      exact hnode.mem_leaves.2 ⟨hl, hlayer⟩

theorem Built.wellFormed_and_exists_layer (h : tree.Built archive) (hstore : archive.Agrees store) :
    tree.WellFormed store ∧
    (tree.Readable store → ∃ layer, (tree.layer store).run = .ok layer) := by
  obtain ⟨ls, hls⟩ := h.holds
  refine ⟨hls.wellFormed hstore, ?_⟩
  intro hreadable
  obtain ⟨layer, hrun, -⟩ := (hls.returns_layer hstore).exists_ok hreadable
  exact ⟨layer, hrun⟩

theorem Built.wellFormed_of_two_layers :
    Sample.tree.WellFormed Blockstore.empty ∧
    ∃ layer, (Sample.tree.layer Blockstore.empty).run = .ok layer := by
  have h := Built.wellFormed_and_exists_layer Sample.built Sample.archive.agrees_empty
  exact ⟨h.1, h.2 Sample.readable⟩

end Tree

end MerkleSearch
