import MerkleSearch.Tree

/-!
This module contains the replacement of the value at a key.
-/

namespace MerkleSearch

variable {m : Type → Type} [Monad m]

def Subtree.update (store : Blockstore m) (config : Config) (leaf : Leaf) (t : Subtree) :
    ExceptT Error m Node := do
  let ⟨node, covers⟩ ← t.resolve store config
  let gap := node.gap leaf.key
  match gap.found? leaf.key, hsubtree : gap.subtree with
  | some (_, rest), _ => return node.withEntries { gap with after := .leaf leaf :: rest }.entries
  | none, some below =>
    have := covers below (NodeOf.tree_mem_of_gap hsubtree)
    let child ← below.update store config leaf
    return node.withEntries (gap.fill [.tree (.resolved child)])
  | none, none => throw (.keyNotFound leaf.key)
termination_by t

def Tree.update (tree : Tree) (store : Blockstore m) (key : String) (value : Cid) :
    ExceptT Error m Tree := do
  if Key.isValid key then
    return tree.withRoot (← tree.root.update store tree.config ⟨key, value⟩)
  else
    throw (.invalidKey key)

end MerkleSearch
