import MerkleSearch.BlockMap
import MerkleSearch.Error

/-!
This module contains what a tree needs of the place its blocks are stored in. A store acts in some
monad `m`: a plain function from addresses to blocks acts in `Id`, one that can be written to in
a state monad. It may be unable to answer, and says why.
-/

namespace MerkleSearch

abbrev Outage := String

structure Blockstore (m : Type → Type) where
  get? : Cid → ExceptT Outage m (Option Bytes)
  contains : Cid → ExceptT Outage m Bool
  getMany : List Cid → ExceptT Outage m (BlockMap × List Cid)
  put : Cid → Bytes → ExceptT Outage m Unit
  putMany : BlockMap → ExceptT Outage m Unit

namespace Blockstore

variable {m n : Type → Type} [Monad m]

def ask {α : Type} (action : ExceptT Outage m α) : ExceptT Error m α :=
  action.adapt .storageUnavailable

def read (store : Blockstore m) (address : Cid) : ExceptT Error m Bytes := do
  match ← ask (store.get? address) with
  | some bytes => return bytes
  | none => throw (.missingBlock address)

def lift (store : Blockstore m) (embed : {α : Type} → m α → n α) : Blockstore n where
  get? address := embed (store.get? address).run
  contains address := embed (store.contains address).run
  getMany addresses := embed (store.getMany addresses).run
  put address bytes := embed (store.put address bytes).run
  putMany blocks := embed (store.putMany blocks).run

def inMemory : Blockstore (StateM BlockMap) where
  get? address := return (← get)[address]?
  contains address := return (← get).contains address
  getMany addresses := return (← get).getMany addresses
  put address bytes := modify fun blocks => blocks.insert address bytes
  putMany blocks := modify fun old => old.addAll blocks

def snapshot (blocks : BlockMap) : Blockstore Id where
  get? address := return blocks[address]?
  contains address := return blocks.contains address
  getMany addresses := return blocks.getMany addresses
  put _ _ := return ()
  putMany _ := return ()

theorem run_get?_snapshot_eq {blocks : BlockMap} {address : Cid} {bytes : Bytes}
    (h : blocks[address]? = some bytes) :
    ((snapshot blocks).get? address).run = .ok (some bytes) :=
  congrArg Except.ok h

end Blockstore

end MerkleSearch
