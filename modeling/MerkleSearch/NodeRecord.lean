import MerkleSearch.Cbor

/-!
This module contains the record that a node is stored as. A record lists the leaves of the node in
key order. Neighbouring keys share much of their start, so each key is given as the number of bytes
it shares with the key before it and the rest. There are never two subtrees next to each other,
hence each leaf carries the address of the subtree to its right, and the record that of the leftmost
one.
-/

namespace MerkleSearch

structure LeafRecord where
  shared : UInt64
  suffix : Bytes
  value : Cid
  right : Option Cid
deriving DecidableEq

structure NodeRecord where
  left : Option Cid
  leaves : List LeafRecord
deriving DecidableEq

def LeafRecord.toCbor (leaf : LeafRecord) : Bytes :=
  Cbor.map [
    ("k", Cbor.byteString leaf.suffix),
    ("p", Cbor.int leaf.shared.toNat),
    ("t", Cbor.linkOrNull leaf.right),
    ("v", Cbor.link leaf.value)]

namespace NodeRecord

def toCbor (record : NodeRecord) : Bytes :=
  Cbor.map [
    ("e", Cbor.array (record.leaves.map LeafRecord.toCbor)),
    ("l", Cbor.linkOrNull record.left)]

end NodeRecord

end MerkleSearch
