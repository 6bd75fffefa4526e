import MerkleSearch.Proofs.Extent
import MerkleSearch.Proofs.Resolve

/-!
This module contains the nodes that are reached from a subtree by reading it. They are those of the
subtrees which its leaves decide on.
-/

namespace MerkleSearch

variable {config : Config} {layer height : Nat} {ls us : List Leaf} {archive : Archive config}
variable {store : Blockstore Id} {t : Subtree} {node : Node}

inductive Subtree.Reaches (store : Blockstore Id) (config : Config) (node : Node) : Subtree → Prop
  | here {t : Subtree} {covers : t.Covers node}
    (h : (t.resolve store config).run = .ok ⟨node, covers⟩) : Reaches store config node t
  | deeper {t c : Subtree} {n : { node : Node // t.Covers node }}
    (h : (t.resolve store config).run = .ok n) (hc : .tree c ∈ n.val.entries)
    (hnode : Reaches store config node c) : Reaches store config node t

def Subtree.Contains (store : Blockstore Id) (config : Config) (t : Subtree) (l : Leaf) : Prop :=
  ∃ node, t.Reaches store config node ∧ l ∈ node.leaves

namespace Subtree

variable {n : { node : Node // t.Covers node }}

theorem reaches_iff (hn : (t.resolve store config).run = .ok n) :
    t.Reaches store config node ↔ node = n.val ∨
      ∃ c, .tree c ∈ n.val.entries ∧ c.Reaches store config node := by
  constructor
  · intro hnode
    cases hnode with
    | here hn' =>
      cases hn.symm.trans hn'
      exact .inl rfl
    | deeper hn' hc hnode =>
      cases hn.symm.trans hn'
      exact .inr ⟨_, hc, hnode⟩
  · rintro (rfl | ⟨c, hc, hnode⟩)
    · exact .here hn
    · exact .deeper hn hc hnode

theorem reaches_resolved {other : Node} :
    (resolved other).Reaches store config node ↔ node = other ∨
      ∃ c, .tree c ∈ other.entries ∧ c.Reaches store config node :=
  reaches_iff (t := .resolved other) (n := ⟨other, covers_resolved other⟩) rfl

theorem contains_iff (hn : (t.resolve store config).run = .ok n) {l : Leaf} :
    t.Contains store config l ↔ .leaf l ∈ n.val.entries ∨
      ∃ c, .tree c ∈ n.val.entries ∧ c.Contains store config l := by
  constructor
  · rintro ⟨node, hnode, hl⟩
    rcases (reaches_iff hn).1 hnode with rfl | ⟨c, hc, hnode⟩
    · obtain ⟨_ | _, he, heq⟩ := List.mem_filterMap.1 hl <;> cases heq
      exact .inl he
    · exact .inr ⟨c, hc, node, hnode, hl⟩
  · rintro (hl | ⟨c, hc, node, hnode, hl⟩)
    · exact ⟨n.val, .here hn, List.mem_filterMap.2 ⟨_, hl, rfl⟩⟩
    · exact ⟨node, .deeper hn hc hnode, hl⟩

end Subtree

namespace Tree

def HasPointer (store : Blockstore Id) (tree : Tree) (address : Cid) : Prop :=
  ∃ node, tree.root.Reaches store tree.config node ∧ node.addressIn tree.config = .ok address

def HasBlock (store : Blockstore Id) (tree : Tree) (block : Block) : Prop :=
  ∃ node, tree.root.Reaches store tree.config node ∧
    node.addressIn tree.config = .ok block.address ∧ node.block tree.config = .ok block

def HasValue (store : Blockstore Id) (tree : Tree) (value : Cid) : Prop :=
  ∃ l, tree.root.Contains store tree.config l ∧ l.value = value

end Tree

namespace NodeOf.Holds

theorem addressIn_eq (h : node.Holds archive (Subtree.Holds archive layer) layer ls) :
    node.addressIn config = (canonical config (layer + 1) ls).address config := by
  have hholds : (Subtree.resolved node).Holds archive (layer + 1) ls := h
  exact hholds.address_eq

theorem block_eq_canonical (h : node.Holds archive (Subtree.Holds archive layer) layer ls) :
    node.block config = canonicalBlock config layer ls :=
  h.block_eq fun _ _ => Subtree.Holds.address_eq

end NodeOf.Holds

namespace Subtree.Holds

theorem of_reaches (h : t.Holds archive height ls) (hls : Listing ls)
    (hstore : archive.Agrees store) (hnode : t.Reaches store config node) :
    ∃ layer us, ⟨layer + 1, us⟩ ∈ Extent.spread config height ls ∧ Listing us ∧
      node.Holds archive (Subtree.Holds archive layer) layer us := by
  induction hnode generalizing height ls with
  | here hn =>
    cases height with
    | zero => exact h.elim
    | succ layer =>
      refine ⟨layer, ls, ?_, hls, h.of_resolve hls hstore hn⟩
      rw [Extent.spread_succ]
      exact List.mem_cons_self
  | deeper hn hc _ ih =>
    cases height with
    | zero => exact h.elim
    | succ layer =>
      obtain ⟨ts, hts, hsub, hholds⟩ := (h.of_resolve hls hstore hn).exists_group hc
      obtain ⟨n, us, hus, hlisting, hnode⟩ := ih hholds (hls.sublist hsub)
      exact ⟨n, us, Extent.mem_spread_succ hts hus, hlisting, hnode⟩

theorem exists_reaches (h : t.Holds archive height ls) (hls : Listing ls)
    (hstore : archive.Agrees store) (hreadable : t.Readable store config)
    (hus : ⟨layer + 1, us⟩ ∈ Extent.spread config height ls) :
    ∃ node, t.Reaches store config node ∧
      node.Holds archive (Subtree.Holds archive layer) layer us := by
  induction height generalizing t ls with
  | zero => cases hus
  | succ n ih =>
    obtain ⟨node, hrun, below⟩ := hreadable
    have hnode := h.of_resolve hls hstore hrun
    rw [Extent.spread_succ, List.mem_cons] at hus
    rcases hus with heq | hinner
    · cases heq
      exact ⟨node.val, .here hrun, hnode⟩
    · obtain ⟨u, hu, hspread⟩ := Extent.mem_nodes_iff.1 hinner
      obtain ⟨rfl, hts⟩ := Extent.mem_entries_iff.1 hu
      obtain ⟨c, hc, hsub, hholds⟩ := hnode.exists_subtree hts
      obtain ⟨found, hfound, hheld⟩ := ih hholds (hls.sublist hsub) (below c hc) hspread
      exact ⟨found, .deeper hrun hc hfound, hheld⟩

theorem contains (h : t.Holds archive height ls) (hls : Listing ls) (hstore : archive.Agrees store)
    (hreadable : t.Readable store config) {l : Leaf} (hl : l ∈ ls) : t.Contains store config l := by
  induction height generalizing t ls with
  | zero => exact h.elim
  | succ n ih =>
    obtain ⟨node, hrun, below⟩ := hreadable
    have hnode := h.of_resolve hls hstore hrun
    rcases Leaves.mem_groups config n hl with ⟨-, hlayer⟩ | ⟨ts, hts, hl⟩
    · exact ⟨node.val, .here hrun, hnode.mem_leaves.2 ⟨hl, hlayer⟩⟩
    · obtain ⟨c, hc, hsub, hholds⟩ := hnode.exists_subtree hts
      obtain ⟨found, hfound, hleaf⟩ := ih hholds (hls.sublist hsub) (below c hc) hl
      exact ⟨found, .deeper hrun hc hfound, hleaf⟩

end Subtree.Holds

end MerkleSearch
