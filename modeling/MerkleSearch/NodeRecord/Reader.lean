import MerkleSearch.Cbor.Reader
import MerkleSearch.NodeRecord

/-!
This module contains the reader for stored node records. The fields of a map may come in any order
and between others, which are skipped, but no field twice.
-/

namespace MerkleSearch

namespace Cbor.Reader

def fields (initial : σ) (levels : Nat) (field : σ → String → Reader σ) : Reader σ := do
  go initial (← argument Major.map)
where
  go (found : σ) : Nat → Reader σ
    | 0 => return found
    | n + 1 => do
      let key ← text levels
      go (← field found key) n

def once (old : Option α) (value : Reader α) : Reader (Option α) :=
  match old with
  | some _ => failure
  | none => some <$> value

end Cbor.Reader

open Cbor

namespace LeafRecord

structure Fields where
  suffix : Option Bytes := none
  shared : Option Nat := none
  right : Option (Option Cid) := none
  value : Option Cid := none

def Fields.read (levels : Nat) (found : Fields) : String → Reader Fields
  | "k" => do return { found with suffix := ← Reader.once found.suffix (Reader.byteString levels) }
  | "p" => do
    return { found with shared := ← Reader.once found.shared (Reader.argument Major.unsigned) }
  | "t" => do return { found with right := ← Reader.once found.right (Reader.linkOrNull levels) }
  | "v" => do return { found with value := ← Reader.once found.value (Reader.link levels) }
  | _ => do
    Reader.skip levels
    return found

def reader : (levels : Nat) → Reader LeafRecord
  | 0 => failure
  | levels + 1 => do
    let found ← Reader.fields {} levels (Fields.read levels)
    let some suffix := found.suffix | failure
    let some shared := found.shared | failure
    let some value := found.value | failure
    return { suffix, shared := UInt64.ofNat shared, value, right := found.right.join }

def listReader : (levels : Nat) → Reader (List LeafRecord)
  | 0 => failure
  | levels + 1 => do Reader.times (reader levels) (← Reader.argument Major.array)

end LeafRecord

namespace NodeRecord

def maxLevels : Nat := 256

structure Fields where
  leaves : Option (List LeafRecord) := none
  left : Option (Option Cid) := none

def Fields.read (levels : Nat) (found : Fields) : String → Reader Fields
  | "e" =>
    do return { found with leaves := ← Reader.once found.leaves (LeafRecord.listReader levels) }
  | "l" => do return { found with left := ← Reader.once found.left (Reader.linkOrNull levels) }
  | _ => do
    Reader.skip levels
    return found

def reader : (levels : Nat) → Reader NodeRecord
  | 0 => failure
  | levels + 1 => do
    let found ← Reader.fields {} levels (Fields.read levels)
    let some leaves := found.leaves | failure
    return { leaves, left := found.left.join }

def ofCbor? (bytes : Bytes) : Option NodeRecord :=
  match reader maxLevels bytes with
  | some (record, []) => some record
  | _ => none

end NodeRecord

end MerkleSearch
