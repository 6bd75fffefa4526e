import MerkleSearch.Blockstore
import MerkleSearch.Node.Gap
import MerkleSearch.Node.Record

/-!
This module contains Merkle search trees: maps from keys to content addresses. The digest of a key
decides on which layer the key is; a node holds neighbouring keys of one layer, and between them the
subtrees that hold the keys of the layers below. The shape of a tree therefore depends only on what
it contains, and so does its address.

A subtree known only by its address is fetched on every visit. What comes back is checked against
the address, so it does not matter whether the store can be trusted.
-/

namespace MerkleSearch

structure Tree where
  root : Subtree
  config : Config

namespace Subtree

variable {m : Type → Type} [Monad m] (store : Blockstore m) (config : Config)

def resolve : (t : Subtree) → ExceptT Error m { node : Node // t.Covers node }
  | .resolved node => return ⟨node, covers_resolved node⟩
  | .unresolved address hint => do
    if hhint : hint = .unknown 0 then
      throw (.malformedNode .endlessDescent)
    else
      let bytes ← store.read address
      let computed ← (config.codec.address bytes).mapError Error.ofCodec
      if computed ≠ address then
        throw (.malformedNode (.addressMismatch address computed))
      let record ← (config.codec.decode bytes).mapError Error.ofCodec
      match h : NodeOf.ofStored config address hint record with
      | .ok node => return ⟨node, covers_ofStored hhint h⟩
      | .error defect => throw (.malformedNode defect)

def layer? (t : Subtree) (node : Node) (covers : t.Covers node) : ExceptT Error m (Option Nat) := do
  match node.layer, node.leaves with
  | some n, _ => return some n
  | none, l :: _ => return some (config.layerOf l.key)
  -- One above that of the first subtree that has one. There is none only if there are no leaves at
  -- all.
  | none, [] =>
    node.subtrees.attach.findSomeM? fun ⟨c, hc⟩ => do
      match c.hintedLayer? with
      | some n => return some (n + 1)
      | none =>
        have := covers c (NodeOf.mem_subtrees.1 hc)
        let ⟨child, childCovers⟩ ← c.resolve store config
        return (← layer? c child childCovers).map (· + 1)
termination_by t

def layerOf (t : Subtree) (node : Node) (covers : t.Covers node) : ExceptT Error m Nat := do
  return (← t.layer? store config node covers).getD 0

end Subtree

namespace Tree

def empty (config : Config := {}) : Tree := ⟨.resolved .empty, config⟩

/--
The tree at an address. Nothing is fetched until the tree is first read.
-/
def load (address : Cid) (config : Config := {}) : Tree :=
  ⟨.unresolved address (.ofLayer? none), config⟩

def withRoot (tree : Tree) (root : Node) : Tree := { tree with root := .resolved root }

def address (tree : Tree) : Except Error Cid := tree.root.address tree.config

def addressed (tree : Tree) : Tree := { tree with root := tree.root.addressed tree.config }

variable {m : Type → Type} [Monad m]

def layer (tree : Tree) (store : Blockstore m) : ExceptT Error m Nat := do
  let ⟨node, covers⟩ ← tree.root.resolve store tree.config
  tree.root.layerOf store tree.config node covers

end Tree

end MerkleSearch
