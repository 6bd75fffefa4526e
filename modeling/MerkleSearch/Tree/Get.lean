import MerkleSearch.Tree

/-!
This module contains the lookup of a key, and what is needed to prove its outcome to someone who has
nothing but the address of the tree: the nodes from the root down to the place of the key.
-/

namespace MerkleSearch

variable {m : Type → Type} [Monad m]

namespace Subtree

variable (store : Blockstore m) (config : Config) (key : String)

def get? (t : Subtree) : ExceptT Error m (Option Cid) := do
  let ⟨node, covers⟩ ← t.resolve store config
  match (node.gap key).found? key, hsubtree : (node.gap key).subtree with
  | some (leaf, _), _ => return some leaf.value
  | none, some below =>
    have := covers below (NodeOf.tree_mem_of_gap hsubtree)
    below.get?
  | none, none => return none
termination_by t

def path (t : Subtree) : ExceptT Error m (List Cid) := do
  let ⟨node, covers⟩ ← t.resolve store config
  let address ← node.addressIn config
  match (node.gap key).found? key, hsubtree : (node.gap key).subtree with
  | some (leaf, _), _ => return [address, leaf.value]
  | none, some below =>
    have := covers below (NodeOf.tree_mem_of_gap hsubtree)
    return address :: (← below.path)
  | none, none => return [address]
termination_by t

def addPathBlocks (blocks : BlockMap) (t : Subtree) : m (BlockMap × Except Error Unit) := do
  match ← (t.resolve store config).run with
  | .error error => return (blocks, .error error)
  | .ok ⟨node, covers⟩ =>
    match node.block config with
    | .error error => return (blocks, .error error)
    | .ok block =>
      let blocks := blocks.insert block.address block.bytes
      match (node.gap key).found? key, hsubtree : (node.gap key).subtree with
      | none, some below =>
        have := covers below (NodeOf.tree_mem_of_gap hsubtree)
        below.addPathBlocks blocks
      | _, _ => return (blocks, .ok ())
termination_by t

end Subtree

namespace Tree

variable (tree : Tree) (store : Blockstore m)

/--
The value at a key. What can be no key has no value, and nothing is read to find that out.
-/
def get? (key : String) : ExceptT Error m (Option Cid) :=
  if Key.isValid key then tree.root.get? store tree.config key else return none

def path (key : String) : ExceptT Error m (List Cid) := tree.root.path store tree.config key

def addPathBlocks (blocks : BlockMap) (key : String) : m (BlockMap × Except Error Unit) :=
  tree.root.addPathBlocks store tree.config key blocks

def pathBlocks : (keys : List String) → (blocks : BlockMap := {}) → m (BlockMap × Except Error Unit)
  | [], blocks => return (blocks, .ok ())
  | key :: keys, blocks => do
    match ← tree.addPathBlocks store blocks key with
    | (blocks, .ok ()) => pathBlocks keys blocks
    | (blocks, .error error) => return (blocks, .error error)

end Tree

end MerkleSearch
