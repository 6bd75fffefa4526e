import MerkleSearch.Sha256
import Std.Data.TreeSet

/-!
This module contains content addresses. An address names the codec of a block and a hash of its
bytes; addresses of the first version, `v0`, fix both the codec and the hash.
-/

namespace MerkleSearch

structure Multihash where
  code : UInt64
  digest : Bytes
  length_digest_le : digest.length ≤ 64
deriving DecidableEq

namespace Multihash

def sha256Code : UInt64 := 0x12

def sha256 (bytes : Bytes) : Multihash :=
  ⟨sha256Code, MerkleSearch.sha256 bytes, by simp⟩

end Multihash

inductive Cid where
  | v0 (digest : Bytes) (length_digest : digest.length = 32)
  | v1 (codec : UInt64) (hash : Multihash)
deriving DecidableEq

namespace Cid

def dagPb : UInt64 := 0x70
def dagCbor : UInt64 := 0x71
def raw : UInt64 := 0x55

def ofBlock (codec : UInt64) (bytes : Bytes) : Cid := .v1 codec (.sha256 bytes)

def codec : Cid → UInt64
  | .v0 _ _ => dagPb
  | .v1 codec _ => codec

def hash : Cid → Multihash
  | .v0 digest h => ⟨Multihash.sha256Code, digest, by omega⟩
  | .v1 _ hash => hash

def version : Cid → Nat
  | .v0 _ _ => 0
  | .v1 _ _ => 1

/--
What addresses are ordered by: the version, the codec, the hash code, the length of the digest, and
last the digest itself.
-/
def sortKey (c : Cid) : List Nat :=
  [c.version, c.codec.toNat, c.hash.code.toNat, c.hash.digest.length]
    ++ c.hash.digest.map UInt8.toNat

theorem sortKey_inj {c d : Cid} (h : c.sortKey = d.sortKey) : c = d := by
  have digests {xs ys : Bytes} : xs.map UInt8.toNat = ys.map UInt8.toNat ↔ xs = ys :=
    List.map_inj_right fun _ _ => UInt8.toNat_inj.mp
  rcases c with _ | ⟨_, _, _, _⟩ <;> rcases d with _ | ⟨_, _, _, _⟩ <;>
    simp_all [sortKey, version, codec, hash, UInt64.toNat_inj]

instance : Ord Cid := ⟨compareOn sortKey⟩

instance : Std.TransOrd Cid := inferInstanceAs (Std.TransCmp (compareOn sortKey))

instance : Std.LawfulEqOrd Cid where
  eq_of_compare h := sortKey_inj (Std.LawfulEqOrd.eq_of_compare h)

end Cid

abbrev CidSet := Std.TreeSet Cid

end MerkleSearch
