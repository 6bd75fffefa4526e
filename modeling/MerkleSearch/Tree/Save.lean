import MerkleSearch.Tree

/-!
This module contains the way of a tree into a store. Only nodes held in memory are written: whatever
is known by its address alone is in some store already.
-/

namespace MerkleSearch

variable {m : Type → Type} [Monad m] (store : Blockstore m) (config : Config)

mutual

def Subtree.unstored : Subtree → BlockMap → ExceptT Error m (Cid × BlockMap)
  | .unresolved address _, blocks => return (address, blocks)
  | .resolved ⟨entries, layer, known, serial⟩, blocks => do
    let node : Node := ⟨entries, layer, known, serial⟩
    let address ← node.addressIn config
    -- Below a node whose block is there already nothing else is looked for.
    if blocks.contains address then
      return (address, blocks)
    else if ← Blockstore.ask (store.contains address) then
      return (address, blocks)
    else
      let blocks ← unstoredEntries entries blocks
      let block ← node.block config
      return (address, blocks.insert block.address block.bytes)

def unstoredEntries : List NodeEntry → BlockMap → ExceptT Error m BlockMap
  | [], blocks => return blocks
  | .leaf _ :: rest, blocks => unstoredEntries rest blocks
  | .tree t :: rest, blocks => do
    let (_, blocks) ← t.unstored blocks
    unstoredEntries rest blocks

end

namespace Tree

variable (tree : Tree)

def unstored : ExceptT Error m (Cid × BlockMap) := tree.root.unstored store tree.config {}

def save : ExceptT Error m Cid := do
  let (address, blocks) ← tree.unstored store
  Blockstore.ask (store.putMany blocks)
  return address

end Tree

end MerkleSearch
