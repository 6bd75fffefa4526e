import MerkleSearch.Blockstore

/-!
This module contains a store that counts what it is asked, and that can be made to refuse the
answer.
-/

namespace MerkleSearch

inductive Request where
  | get
  | contains
  | put
deriving DecidableEq

structure PerRequest (α : Type) where
  get : α
  contains : α
  put : α

namespace PerRequest

def of {α : Type} (p : PerRequest α) : Request → α
  | .get => p.get
  | .contains => p.contains
  | .put => p.put

def update {α : Type} (p : PerRequest α) (f : α → α) : Request → PerRequest α
  | .get => { p with get := f p.get }
  | .contains => { p with contains := f p.contains }
  | .put => { p with put := f p.put }

end PerRequest

structure MeteredStore where
  blocks : BlockMap := {}
  calls : PerRequest Nat := ⟨0, 0, 0⟩
  refused : PerRequest Bool := ⟨false, false, false⟩

namespace MeteredStore

/--
A request counts even if it is refused.
-/
def request {α : Type} (kind : Request) (action : StateM BlockMap (Except Outage α)) :
    StateM MeteredStore (Except Outage α) := do
  modify fun s => { s with calls := s.calls.update (· + 1) kind }
  let s ← get
  if s.refused.of kind then
    return .error "connection refused"
  else
    let (answer, blocks) := action s.blocks
    set { s with blocks }
    return answer

def blockstore : Blockstore (StateM MeteredStore) where
  get? address := request .get (Blockstore.inMemory.get? address).run
  contains address := request .contains (Blockstore.inMemory.contains address).run
  getMany addresses := request .get (Blockstore.inMemory.getMany addresses).run
  put address bytes := request .put (Blockstore.inMemory.put address bytes).run
  putMany blocks := request .put (Blockstore.inMemory.putMany blocks).run

end MeteredStore

end MerkleSearch
