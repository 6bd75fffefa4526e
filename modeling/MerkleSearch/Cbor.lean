import MerkleSearch.Cid.Binary

/-!
This module contains the writers for the items of DAG-CBOR: every head is as short as its argument
allows and every length is given in advance. A link is tag 42 around the bytes of an address behind
a zero.
-/

namespace MerkleSearch

namespace Cbor

namespace Major

def unsigned : UInt8 := 0
def negative : UInt8 := 1
def bytes : UInt8 := 2
def text : UInt8 := 3
def array : UInt8 := 4
def map : UInt8 := 5
def tag : UInt8 := 6

end Major

def initial (major info : UInt8) : UInt8 := (major <<< 5) ||| info

def head (major : UInt8) (n : Nat) : Bytes :=
  if n < 24 then [initial major (UInt8.ofNat n)]
  else if n < UInt8.size then initial major 24 :: Bytes.bigEndian 1 n
  else if n < UInt16.size then initial major 25 :: Bytes.bigEndian 2 n
  else if n < UInt32.size then initial major 26 :: Bytes.bigEndian 4 n
  else initial major 27 :: Bytes.bigEndian 8 n

def null : Bytes := [0xf6]

def bool (b : Bool) : Bytes := [if b then 0xf5 else 0xf4]

def int (i : Int) : Bytes :=
  if 0 ≤ i then head Major.unsigned i.toNat else head Major.negative (-1 - i).toNat

def byteString (bytes : Bytes) : Bytes := head Major.bytes bytes.length ++ bytes

def text (s : String) : Bytes :=
  let bytes := Bytes.ofText s
  head Major.text bytes.length ++ bytes

def link (c : Cid) : Bytes := head Major.tag 42 ++ byteString (0 :: c.toBytes)

def linkOrNull (c : Option Cid) : Bytes := (c.map link).getD null

def array (items : List Bytes) : Bytes := head Major.array items.length ++ items.flatten

/--
A map of the given fields, which are put in canonical order: shorter keys first, and keys of one
length in the order of their bytes.
-/
def map (fields : List (String × Bytes)) : Bytes :=
  let keyLE (a b : String × Bytes) : Bool :=
    (compare a.1.utf8ByteSize b.1.utf8ByteSize).then (compare a.1 b.1) |>.isLE
  head Major.map fields.length ++ (fields.mergeSort keyLE).flatMap fun (key, value) =>
    text key ++ value

end Cbor

end MerkleSearch
