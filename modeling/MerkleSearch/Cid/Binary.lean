import MerkleSearch.Cid
import MerkleSearch.Varint

/-!
This module contains the binary form of content addresses.
-/

namespace MerkleSearch

namespace Multihash

def toBytes (h : Multihash) : Bytes :=
  Varint.encode h.code.toNat ++ Varint.encode h.digest.length ++ h.digest

def read? (bytes : Bytes) : Option (Multihash × Bytes) := do
  let (code, rest) ← Varint.readWord? bytes
  let (size, rest) ← Varint.readWord? rest
  if h : (rest.take size.toNat).length = size.toNat ∧ size.toNat ≤ 64 then
    return (⟨code, rest.take size.toNat, by omega⟩, rest.drop size.toNat)
  else
    none

end Multihash

namespace Cid

def toBytes : Cid → Bytes
  | .v0 digest _ => 0x12 :: 0x20 :: digest
  | .v1 codec hash => Varint.encode 1 ++ Varint.encode codec.toNat ++ hash.toBytes

/--
Reads an address off the front. The two numbers that open a `v0` address are the code and the length
of its hash, and no other address opens with them.
-/
def read? (bytes : Bytes) : Option (Cid × Bytes) := do
  let (first, rest) ← Varint.readWord? bytes
  let (second, rest) ← Varint.readWord? rest
  if first = 0x12 ∧ second = 0x20 then
    if h : (rest.take 32).length = 32 then
      return (.v0 (rest.take 32) h, rest.drop 32)
    else
      none
  else if first = 1 then
    let (hash, rest) ← Multihash.read? rest
    return (.v1 second hash, rest)
  else
    none

def ofBytes? (bytes : Bytes) : Option Cid := (read? bytes).map Prod.fst

end Cid

end MerkleSearch
