import MerkleSearch.Error
import MerkleSearch.Key
import MerkleSearch.NodeRecord.Reader

/-!
This module contains the strategies that a tree is built with: how keys are placed on layers, and
how node records are turned into addressed blocks. Trees share addresses only if they share both.
-/

namespace MerkleSearch

/--
Places keys on layers. A byte of a digest is worth no more than four layers, and layers have to fit
into 32 bits; so no digest has 2^30 bytes or more.
-/
structure KeyHasher where
  name : String
  digest : Bytes → Bytes
  length_lt : ∀ key, 4 * (digest key).length < UInt32.size

namespace KeyHasher

def sha256 : KeyHasher where
  name := "sha2-256"
  digest := MerkleSearch.sha256
  length_lt key := by
    rw [length_sha256]
    decide

def flat : KeyHasher where
  name := "flat"
  digest _ := List.replicate 32 0xff
  length_lt _ := by decide

/--
The number that is written at the end of a key behind a dash: `a/b-3` is on layer 3. A key without
such a number is on layer zero, and no key is above layer 128.
-/
def layerAtEnd (key : Bytes) : Nat :=
  let digits := (key.reverse.takeWhile (· != 0x2d)).reverse
  if key.contains 0x2d && digits.all fun b => 0x30 ≤ b && b ≤ 0x39 then
    min 128 (digits.foldl (fun n b => 10 * n + (b.toNat - 0x30)) 0)
  else
    0

def digestOnLayer (layer : Nat) : Bytes :=
  (List.range 32).map fun i => UInt8.ofNat (0xff >>> (2 * min 4 (layer - 4 * i)))

def tail : KeyHasher where
  name := "tail"
  digest key := digestOnLayer (layerAtEnd key)
  length_lt key := by
    rw [digestOnLayer, List.length_map, List.length_range]
    decide

end KeyHasher

structure NodeCodec where
  name : String
  encode : NodeRecord → Except CodecFault Bytes
  decode : Bytes → Except CodecFault NodeRecord
  address : Bytes → Except CodecFault Cid

structure Block where
  address : Cid
  bytes : Bytes
deriving DecidableEq

namespace NodeCodec

def block (codec : NodeCodec) (record : NodeRecord) : Except Error Block := do
  let bytes ← (codec.encode record).mapError .ofCodec
  let address ← (codec.address bytes).mapError .ofCodec
  return ⟨address, bytes⟩

def decodeCbor (bytes : Bytes) : Except CodecFault NodeRecord :=
  match NodeRecord.ofCbor? bytes with
  | some record => return record
  | none => throw .undecodable

theorem decodeCbor_eq_ok {bytes : Bytes} {record : NodeRecord} :
    decodeCbor bytes = .ok record ↔ NodeRecord.ofCbor? bytes = some record := by
  unfold decodeCbor
  cases NodeRecord.ofCbor? bytes with
  | none => exact ⟨nofun, nofun⟩
  | some found =>
    constructor
    · intro h
      cases h
      rfl
    · intro h
      cases h
      rfl

def dagCbor : NodeCodec where
  name := "dag-cbor"
  encode record := return record.toCbor
  decode := decodeCbor
  address bytes := return Cid.ofBlock Cid.dagCbor bytes

def rawCids : NodeCodec where
  name := "raw-cids"
  encode record := return record.toCbor
  decode := decodeCbor
  address bytes := return Cid.ofBlock Cid.raw bytes

def atMost (limit : Nat) : NodeCodec where
  name := s!"max{limit}"
  encode record :=
    if record.leaves.length ≤ limit then
      return record.toCbor
    else
      throw (.encoding s!"more than {limit} entries")
  decode := decodeCbor
  address bytes := return Cid.ofBlock Cid.dagCbor bytes

end NodeCodec

structure Config where
  codec : NodeCodec := .dagCbor
  hasher : KeyHasher := .sha256

namespace Config

def layerOf (config : Config) (key : String) : Nat :=
  Key.layerOfDigest (config.hasher.digest (Bytes.ofText key))

theorem layerOf_lt (config : Config) (key : String) : config.layerOf key + 1 < UInt32.size := by
  have hle := Key.layerOfDigest_le (config.hasher.digest (Bytes.ofText key))
  have hlt := config.hasher.length_lt (Bytes.ofText key)
  unfold layerOf
  unfold UInt32.size at hlt ⊢
  omega

end Config

end MerkleSearch
