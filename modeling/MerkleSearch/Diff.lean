import MerkleSearch.Tree

/-!
This module contains the difference between two versions of a tree, as a record that is built up
entry by entry. What is first found to be gone and then found again, or the other way round, has
only moved and is not reported.
-/

namespace MerkleSearch

structure ValueChange where
  prev : Cid
  value : Cid
deriving DecidableEq

structure Diff where
  adds : Std.TreeMap String Cid := {}
  updates : Std.TreeMap String ValueChange := {}
  deletes : Std.TreeMap String Cid := {}
  newBlocks : BlockMap := {}
  newValues : CidSet := {}
  removed : CidSet := {}
  removedBlocks : CidSet := {}

namespace Diff

def isEmpty (d : Diff) : Bool :=
  d.adds.isEmpty && d.updates.isEmpty && d.deletes.isEmpty && d.newBlocks.isEmpty
    && d.newValues.isEmpty && d.removed.isEmpty && d.removedBlocks.isEmpty

def addLeaf (d : Diff) (leaf : Leaf) : Diff :=
  let d := { d with adds := d.adds.insert leaf.key leaf.value }
  if d.removed.contains leaf.value then
    { d with removed := d.removed.erase leaf.value }
  else
    { d with newValues := d.newValues.insert leaf.value }

def updateLeaf (d : Diff) (key : String) (prev value : Cid) : Diff :=
  if prev = value then
    d
  else
    { d with
      updates := d.updates.insert key ⟨prev, value⟩
      removed := d.removed.insert prev
      newValues := d.newValues.insert value }

def deleteLeaf (d : Diff) (leaf : Leaf) : Diff :=
  let d := { d with deletes := d.deletes.insert leaf.key leaf.value }
  if d.newValues.contains leaf.value then
    { d with newValues := d.newValues.erase leaf.value }
  else
    { d with removed := d.removed.insert leaf.value }

def addNode (d : Diff) (block : Block) : Diff :=
  if d.removed.contains block.address then
    { d with
      removed := d.removed.erase block.address
      removedBlocks := d.removedBlocks.erase block.address }
  else
    { d with newBlocks := d.newBlocks.insert block.address block.bytes }

def deleteNode (d : Diff) (address : Cid) : Diff :=
  if d.newBlocks.contains address then
    { d with newBlocks := d.newBlocks.erase address }
  else
    { d with
      removed := d.removed.insert address
      removedBlocks := d.removedBlocks.insert address }

def newCids (d : Diff) : CidSet := d.newValues.insertMany d.newBlocks.addresses

variable {m : Type → Type} [Monad m]

def addEntry (store : Blockstore m) (config : Config) (d : Diff) (e : NodeEntry) :
    ExceptT Error m Diff := do
  match e with
  | .leaf l => return d.addLeaf l
  | .tree t =>
    let ⟨node, _⟩ ← t.resolve store config
    return d.addNode (← node.block config)

def deleteEntry (config : Config) (d : Diff) (e : NodeEntry) : Except Error Diff := do
  match e with
  | .leaf l => return d.deleteLeaf l
  | .tree t => return d.deleteNode (← t.address config)

end Diff

end MerkleSearch
