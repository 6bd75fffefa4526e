import MerkleSearch.Tree.Split

/-!
This module contains the insertion of a key. The digest of the key decides on which layer it goes.
-/

namespace MerkleSearch

variable {m : Type → Type} [Monad m]

def Leaf.between (leaf : Leaf) (left right : Option Subtree) : List NodeEntry :=
  Entry.ofTree? left ++ .leaf leaf :: Entry.ofTree? right

namespace Subtree

variable (store : Blockstore m) (config : Config)

def add (leaf : Leaf) (keyLayer : Nat) (t : Subtree) : ExceptT Error m Node := do
  let ⟨node, covers⟩ ← t.resolve store config
  let layer ← t.layerOf store config node covers
  let gap := node.gap leaf.key
  -- On the layer of its node, the leaf splits the subtree in its place.
  if keyLayer = layer then
    if (gap.found? leaf.key).isSome then
      throw (.keyExists leaf.key)
    else
      match gap.subtree with
      | some below =>
        let (left, right) ← below.split store config leaf.key
        return node.withEntries (gap.fill (leaf.between left right))
      | none => return node.withEntries (gap.fill [.leaf leaf])
  -- A lower one goes into that subtree or becomes a new one.
  else if keyLayer < layer then
    match hsubtree : gap.subtree with
    | some below =>
      have := covers below (NodeOf.tree_mem_of_gap hsubtree)
      let child ← below.add leaf keyLayer
      return node.withEntries (gap.fill [.tree (.resolved child)])
    | none =>
      let child := (ofEntries [.leaf leaf] (some keyLayer)).raise keyLayer (layer - 1 - keyLayer)
      return node.withEntries (gap.fill [.tree child])
  -- For a higher one the whole subtree is split, and both parts are pushed down below it.
  else
    let (left, right) ← (Subtree.resolved node).split store config leaf.key
    let push (part : Option Subtree) := part.map (·.raise layer (keyLayer - layer - 1))
    return { entries := leaf.between (push left) (push right), layer := some keyLayer }
termination_by t

end Subtree

namespace Tree

def add (tree : Tree) (store : Blockstore m) (key : String)
    (value : Cid) : ExceptT Error m Tree := do
  if Key.isValid key then
    let keyLayer := tree.config.layerOf key
    return tree.withRoot (← tree.root.add store tree.config ⟨key, value⟩ keyLayer)
  else
    throw (.invalidKey key)

end Tree

end MerkleSearch
