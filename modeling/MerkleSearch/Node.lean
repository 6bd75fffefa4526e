import MerkleSearch.Cid

/-!
This module contains the nodes of a tree: leaves in key order with subtrees between them. A subtree
is either held in memory or known only by its address. Nodes are values, so the versions of a tree
share whatever they have in common.
-/

namespace MerkleSearch

structure Leaf where
  key : String
  value : Cid
deriving DecidableEq

inductive Entry (τ : Type) where
  | tree (subtree : τ)
  | leaf (leaf : Leaf)
deriving DecidableEq

namespace Entry

variable {τ : Type}

def isTree : Entry τ → Bool
  | .tree _ => true
  | .leaf _ => false

def leaf? : Entry τ → Option Leaf
  | .tree _ => none
  | .leaf l => some l

def tree? : Entry τ → Option τ
  | .tree t => some t
  | .leaf _ => none

def ofTree? (t : Option τ) : List (Entry τ) := (t.map .tree).toList

end Entry

/--
What is known about the layer of a subtree that has not been fetched: the layer itself, or only that
no more than `descents` subtrees of unknown layer are followed from there on downwards.
-/
inductive Hint where
  | layer (n : Nat)
  | unknown (descents : Nat)
deriving DecidableEq

namespace Hint

/--
More subtrees than can be stored.
-/
def horizon : Nat := UInt64.size

def ofLayer? : Option Nat → Hint
  | some n => .layer n
  | none => .unknown horizon

def layer? : Hint → Option Nat
  | .layer n => some n
  | .unknown _ => none

def below (h : Hint) (layer : Option Nat) : Hint :=
  match layer, h with
  | some n, _ | none, .layer n => .layer (n - 1)
  | none, .unknown descents => .unknown (descents - 1)

end Hint

/--
The entries of a node, the layer it is on if that is known, the address it was read from or has been
found to have, if any, and the number under which it is registered among the nodes held in memory.
-/
structure NodeOf (τ : Type) where
  entries : List (Entry τ)
  layer : Option Nat
  address : Option Cid := none
  serial : Option Nat := none

inductive Subtree where
  | resolved (node : NodeOf Subtree)
  | unresolved (address : Cid) (hint : Hint)

abbrev Node := NodeOf Subtree

abbrev NodeEntry := Entry Subtree

namespace Subtree

def isResolved : Subtree → Bool
  | .resolved _ => true
  | .unresolved _ _ => false

def hintedLayer? : Subtree → Option Nat
  | .resolved _ => none
  | .unresolved _ hint => hint.layer?

def ofEntries (entries : List NodeEntry) (layer : Option Nat) : Subtree :=
  .resolved { entries, layer }

def ofEntries? (entries : List NodeEntry) (layer : Option Nat) : Option Subtree :=
  if entries.isEmpty then none else some (ofEntries entries layer)

def raise (t : Subtree) (layer : Nat) : (n : Nat) → Subtree
  | 0 => t
  | n + 1 => ofEntries [.tree (t.raise layer n)] (some (layer + n + 1))

end Subtree

namespace NodeOf

def empty : Node := { entries := [], layer := some 0 }

def subtrees (node : Node) : List Subtree := node.entries.filterMap Entry.tree?

def leaves (node : Node) : List Leaf := node.entries.filterMap Entry.leaf?

def withEntries (node : Node) (entries : List NodeEntry) : Node := { entries, layer := node.layer }

def lowerBound (node : Node) (key : String) : Nat :=
  node.entries.findIdx fun
    | .tree _ => false
    | .leaf leaf => key ≤ leaf.key

def leafAt? (node : Node) (i : Nat) : Option Leaf := node.entries[i]? >>= Entry.leaf?

def treeBefore? (node : Node) : (i : Nat) → Option Subtree
  | 0 => none
  | i + 1 => node.entries[i]? >>= Entry.tree?

@[simp]
theorem mem_subtrees {node : Node} {t : Subtree} : t ∈ node.subtrees ↔ .tree t ∈ node.entries := by
  simp only [subtrees, List.mem_filterMap]
  constructor
  · rintro ⟨_ | _, h, ht⟩ <;> simp_all [Entry.tree?]
  · exact fun h => ⟨_, h, rfl⟩

end NodeOf

end MerkleSearch
