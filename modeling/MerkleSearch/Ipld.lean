import MerkleSearch.Cbor

/-!
This module contains the values that a record may consist of, and their DAG-CBOR form.
-/

namespace MerkleSearch

inductive Ipld where
  | null
  | bool (b : Bool)
  | int (i : Int)
  | bytes (b : Bytes)
  | text (s : String)
  | link (c : Cid)
  | list (items : List Ipld)
  | map (fields : List (String × Ipld))

namespace Ipld

mutual

def toCbor : Ipld → Bytes
  | .null => Cbor.null
  | .bool b => Cbor.bool b
  | .int i => Cbor.int i
  | .bytes b => Cbor.byteString b
  | .text s => Cbor.text s
  | .link c => Cbor.link c
  | .list items => Cbor.array (itemsToCbor items)
  | .map fields => Cbor.map (fieldsToCbor fields)

def itemsToCbor : List Ipld → List Bytes
  | [] => []
  | item :: items => item.toCbor :: itemsToCbor items

def fieldsToCbor : List (String × Ipld) → List (String × Bytes)
  | [] => []
  | (key, value) :: fields => (key, value.toCbor) :: fieldsToCbor fields

end

def cid (value : Ipld) : Cid := .ofBlock Cid.dagCbor value.toCbor

end Ipld

end MerkleSearch
