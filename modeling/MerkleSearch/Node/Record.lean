import MerkleSearch.Config
import MerkleSearch.Node.Descent

/-!
This module contains the way between nodes and the records they are stored as, and with it the
blocks and addresses of nodes. A record is only accepted if the node it describes could have been
written: the address of a node is then the address of its entries.
-/

namespace MerkleSearch

namespace NodeRecord

/--
The record of the given entries, where each subtree is given by its address, or by why it has none.
Of several faults the first one counts.
-/
def ofEntries (entries : List (Entry (Except Error Cid))) : Except Error NodeRecord :=
  match entries with
  | .tree address :: rest => do
    let left ← address
    return { left := some left, leaves := ← leafRecords "" rest }
  | rest => do return { left := none, leaves := ← leafRecords "" rest }
where
  leafRecords (previous : String) : List (Entry (Except Error Cid)) → Except Error (List LeafRecord)
    | [] => return []
    | .tree _ :: _ => throw (.malformedNode .adjacentSubtrees)
    | .leaf l :: .tree address :: rest => do
      let right ← address
      let leaf ← leafRecord previous l (some right)
      return leaf :: (← leafRecords l.key rest)
    | .leaf l :: rest => do
      let leaf ← leafRecord previous l none
      return leaf :: (← leafRecords l.key rest)
  leafRecord (previous : String) (l : Leaf) (right : Option Cid) : Except Error LeafRecord :=
    if Key.isValid l.key then
      let key := Bytes.ofText l.key
      let shared := Bytes.sharedLength (Bytes.ofText previous) key
      return { shared := UInt64.ofNat shared, suffix := key.drop shared, value := l.value, right }
    else
      throw (.invalidKey l.key)

end NodeRecord

/--
The key of a leaf that follows one with the key `previous`. Keys are valid and strictly increasing.
-/
def LeafRecord.key (leaf : LeafRecord) (previous : Option String) : Except Defect String := do
  let known := Bytes.ofText (previous.getD "")
  if known.length < leaf.shared.toNat then
    throw (.sharedTooLong leaf.shared)
  let some key := Bytes.text? (known.take leaf.shared.toNat ++ leaf.suffix) | throw .keyNotText
  if !Key.isValid key then
    throw (.invalidKey key)
  match previous with
  | some last =>
    if key ≤ last then
      throw (.keysOutOfOrder last key)
  | none => pure ()
  return key

namespace NodeRecord

def keys (previous : Option String) : List LeafRecord → Except Defect (List String)
  | [] => return []
  | leaf :: rest => do
    let key ← leaf.key previous
    return key :: (← keys (some key) rest)

/--
The layer of a node with the given keys, which all belong on it. `layer` is the one it is expected
to be on, if that is known.
-/
def layerOf (config : Config) (layer : Option Nat) : List String → Except Defect (Option Nat)
  | [] => return layer
  | key :: keys => do
    let keyLayer := config.layerOf key
    match layer with
    | some n =>
      if n ≠ keyLayer then
        throw (.keyOnOtherLayer key keyLayer n)
    | none => pure ()
    layerOf config (some keyLayer) keys

def hasSubtrees (record : NodeRecord) : Bool :=
  record.left.isSome || record.leaves.any (·.right.isSome)

def toEntries (record : NodeRecord) (keys : List String) : List (Entry Cid) :=
  let subtree (address : Option Cid) := (address.map Entry.tree).toList
  subtree record.left ++ (record.leaves.zip keys).flatMap fun (leaf, key) =>
    .leaf ⟨key, leaf.value⟩ :: subtree leaf.right

theorem layerOf_some {config : Config} {n : Nat} {keys : List String} {layer : Option Nat}
    (h : layerOf config (some n) keys = .ok layer) : layer = some n := by
  induction keys with
  | nil => cases h; rfl
  | cons key keys ih =>
    by_cases hn : n = config.layerOf key
    · subst hn
      exact ih (by simpa [layerOf] using h)
    · simp [layerOf, hn, bind, Except.bind, throw, throwThe, MonadExceptOf.throw] at h

theorem hasSubtrees_of_mem_toEntries {record : NodeRecord} {keys : List String} {address : Cid}
    (h : .tree address ∈ record.toEntries keys) : record.hasSubtrees := by
  simp only [toEntries, List.mem_append, List.mem_flatMap] at h
  rcases h with h | ⟨⟨leaf, key⟩, hmem, h⟩
  · cases hleft : record.left <;> simp_all [hasSubtrees]
  · cases hright : leaf.right <;> simp_all only [Option.map, Option.toList, List.mem_cons] <;>
      simp_all [hasSubtrees]
    exact .inr ⟨leaf, (List.of_mem_zip hmem).1, by simp [hright]⟩

end NodeRecord

namespace NodeOf

/--
The node that a record describes, or what is wrong with it. The subtrees of a node are one layer
below it, so there are none on layer zero.
-/
def ofRecord (config : Config) (hint : Hint) (record : NodeRecord) : Except Defect Node := do
  let keys ← NodeRecord.keys none record.leaves
  let layer ← NodeRecord.layerOf config hint.layer? keys
  if layer = some 0 && record.hasSubtrees then
    throw .subtreeOnLayerZero
  let entries := (record.toEntries keys).map fun
    | .tree address => .tree (.unresolved address (hint.below layer))
    | .leaf l => .leaf l
  return { entries, layer }

def ofStored (config : Config) (address : Cid) (hint : Hint) (record : NodeRecord) :
    Except Defect Node := do
  return { (← ofRecord config hint record) with address := some address }

end NodeOf

namespace Subtree

theorem covers_ofRecord {config : Config} {address : Cid} {hint : Hint} {record : NodeRecord}
    {node : Node} (hhint : hint ≠ .unknown 0) (h : NodeOf.ofRecord config hint record = .ok node) :
    Covers (.unresolved address hint) node := by
  simp only [NodeOf.ofRecord, bind, Except.bind] at h
  split at h
  · simp at h
  · rename_i keys _
    split at h
    · simp at h
    · rename_i layer hlayer
      split at h
      · simp at h
      · rename_i hzero
        cases h
        intro c hc
        obtain ⟨_ | _, he, heq⟩ := List.mem_map.1 hc
        · cases heq
          have hzero : layer ≠ some 0 := by
            rintro rfl
            exact hzero (by simpa using NodeRecord.hasSubtrees_of_mem_toEntries he)
          refine .hint ?_
          match hint, layer with
          | .layer n, _ =>
            cases NodeRecord.layerOf_some hlayer
            exact .layer (Nat.sub_lt (Nat.pos_of_ne_zero fun h => hzero (by rw [h])) (by decide))
          | .unknown _, some _ => exact .known
          | .unknown 0, none => exact absurd rfl hhint
          | .unknown (k + 1), none => exact .descents (Nat.lt_succ_self k)
        · cases heq

theorem covers_ofStored {config : Config} {address : Cid} {hint : Hint} {record : NodeRecord}
    {node : Node} (hhint : hint ≠ .unknown 0)
    (h : NodeOf.ofStored config address hint record = .ok node) :
    Covers (.unresolved address hint) node := by
  cases hnode : NodeOf.ofRecord config hint record with
  | error => simp [NodeOf.ofStored, hnode, bind, Except.bind] at h
  | ok node' =>
    simp only [NodeOf.ofStored, hnode, bind, Except.bind, pure, Except.pure, Except.ok.injEq] at h
    subst h
    exact fun c hc => covers_ofRecord hhint hnode c hc

end Subtree

mutual

def Subtree.address (config : Config) : Subtree → Except Error Cid
  | .unresolved address _ => return address
  | .resolved ⟨_, _, some address, _⟩ => return address
  | .resolved ⟨entries, _, none, _⟩ => do
    let record ← NodeRecord.ofEntries (entryAddresses config entries)
    return (← config.codec.block record).address

def entryAddresses (config : Config) : List NodeEntry → List (Entry (Except Error Cid))
  | [] => []
  | .leaf l :: rest => .leaf l :: entryAddresses config rest
  | .tree t :: rest => .tree (t.address config) :: entryAddresses config rest

end

mutual

def Subtree.addressed (config : Config) : Subtree → Subtree
  | .unresolved address hint => .unresolved address hint
  | .resolved ⟨entries, layer, some address, serial⟩ =>
    .resolved ⟨entries, layer, some address, serial⟩
  | .resolved ⟨entries, layer, none, serial⟩ =>
    let entries := addressedEntries config entries
    let address := Subtree.address config (.resolved ⟨entries, layer, none, serial⟩)
    .resolved ⟨entries, layer, address.toOption, serial⟩

def addressedEntries (config : Config) : List NodeEntry → List NodeEntry
  | [] => []
  | .leaf l :: rest => .leaf l :: addressedEntries config rest
  | .tree t :: rest => .tree (t.addressed config) :: addressedEntries config rest

end

namespace NodeOf

def record (config : Config) (node : Node) : Except Error NodeRecord :=
  NodeRecord.ofEntries (entryAddresses config node.entries)

/--
The block of a node. This is always encoded anew, so the block of a node that was read from a store
that held some other encoding may have another address than the node.
-/
def block (config : Config) (node : Node) : Except Error Block := do
  config.codec.block (← node.record config)

def addressIn (config : Config) (node : Node) : Except Error Cid :=
  Subtree.address config (.resolved node)

end NodeOf

end MerkleSearch
