import MerkleSearch.Cbor

/-!
This module contains the readers for the items of CBOR. They are lenient in three ways: arguments
need not be short, strings may come in chunks, and an item of another major type is taken for the
expected one as long as the bits of its major type are among those expected. What they are strict
about is how deeply items are nested: a reader is given the number of levels that may still be
opened.
-/

namespace MerkleSearch

namespace Cbor

abbrev Reader (α : Type) := StateT Bytes Option α

namespace Reader

def peek : Reader UInt8 := do
  let b :: _ ← get | failure
  return b

def byte : Reader UInt8 := do
  let b :: rest ← get | failure
  set rest
  return b

def take (n : Nat) : Reader Bytes := do
  let bytes ← get
  if n ≤ bytes.length then
    set (bytes.drop n)
    return bytes.take n
  else
    failure

def argumentOf (info : UInt8) : Reader Nat :=
  if info < 24 then return info.toNat
  else if info = 24 then Bytes.ofBigEndian <$> take 1
  else if info = 25 then Bytes.ofBigEndian <$> take 2
  else if info = 26 then Bytes.ofBigEndian <$> take 4
  else if info = 27 then Bytes.ofBigEndian <$> take 8
  else failure

/--
The argument of an item of the given major type. Only the bits of that type are removed from the
first byte: what is left is no valid announcement if other bits of the upper three were set.
-/
def argument (major : UInt8) : Reader Nat := do
  argumentOf ((← byte) &&& ~~~(initial major 0))

def untilBreak (item : Reader α) : Reader (List α) := do
  go (← get).length
where
  go : Nat → Reader (List α)
    | 0 => failure
    | fuel + 1 => do
      if (← peek) = 0xff then
        let _ ← byte
        return []
      else
        let x ← item
        return x :: (← go fuel)

def times (item : Reader α) : Nat → Reader (List α)
  | 0 => return []
  | n + 1 => do
    let x ← item
    return x :: (← times item n)

def stringOf (major : UInt8) (chunk : Reader Bytes) : Reader Bytes := do
  if (← peek) = initial major 31 then
    let _ ← byte
    return (← untilBreak chunk).flatten
  else
    take (← argument major)

def string (major : UInt8) : (levels : Nat) → Reader Bytes
  | 0 => stringOf major failure
  | levels + 1 => stringOf major (string major levels)

def byteString (levels : Nat) : Reader Bytes := string Major.bytes levels

def text (levels : Nat) : Reader String := do
  let some s := Bytes.text? (← string Major.text levels) | failure
  return s

def link (levels : Nat) : Reader Cid := do
  unless (← argument Major.tag) = 42 do failure
  unless (← peek) >>> 5 = Major.bytes do failure
  let 0 :: bytes ← byteString levels | failure
  let some c := Cid.ofBytes? bytes | failure
  return c

def linkOrNull : (levels : Nat) → Reader (Option Cid)
  | levels => do
    if (← peek) = 0xf6 then
      let _ ← byte
      return none
    else
      match levels with
      | 0 => failure
      | levels + 1 => some <$> link levels

def skip : (levels : Nat) → Reader Unit
  | 0 => failure
  | levels + 1 => do
    let b ← byte
    let info := b &&& 0x1f
    match (b >>> 5).toNat with
    | 0 | 1 =>
      let _ ← argumentOf info
    | 2 | 3 =>
      if info = 31 then
        let _ ← untilBreak (skip levels)
      else
        let _ ← take (← argumentOf info)
    | 4 =>
      if info = 31 then
        let _ ← untilBreak (skip levels)
      else
        let _ ← times (skip levels) (← argumentOf info)
    | 5 =>
      let pair : Reader Unit := do
        skip levels
        skip levels
      if info = 31 then
        let _ ← untilBreak pair
      else
        let _ ← times pair (← argumentOf info)
    | 6 =>
      let _ ← argumentOf info
      skip levels
    | _ =>
      match info.toNat with
      | 20 | 21 | 22 | 23 => return ()
      | 25 =>
        let _ ← take 2
      | 26 =>
        let _ ← take 4
      | 27 =>
        let _ ← take 8
      | _ => failure

end Reader

end Cbor

end MerkleSearch
