import MerkleSearch.Bytes

/-!
This module contains the keys that a tree accepts, and the layer on which a digest places a key.
-/

namespace MerkleSearch

namespace Key

def maxLength : Nat := 1024

def isKeyChar (c : Char) : Bool :=
  c.isAlphanum || c == '_' || c == '~' || c == '-' || c == ':' || c == '.'

def isName (chars : List Char) : Bool := !chars.isEmpty && chars.all isKeyChar

def isValid (key : String) : Bool :=
  let chars := key.toList
  let collection := chars.takeWhile (· != '/')
  match chars.dropWhile (· != '/') with
  | [] => false
  | _ :: name => key.utf8ByteSize ≤ maxLength && isName collection && isName name

def zeroPairs (b : UInt8) : Nat :=
  if b = 0 then 4 else if b < 4 then 3 else if b < 16 then 2 else if b < 64 then 1 else 0

/--
The number of zero pairs of bits at the start of a digest. A quarter of all keys rise to the next
layer.
-/
def layerOfDigest : Bytes → Nat
  | [] => 0
  | b :: rest => if b = 0 then layerOfDigest rest + zeroPairs b else zeroPairs b

theorem zeroPairs_le (b : UInt8) : zeroPairs b ≤ 4 := by
  unfold zeroPairs
  repeat' split
  all_goals decide

theorem layerOfDigest_le (digest : Bytes) : layerOfDigest digest ≤ 4 * digest.length := by
  induction digest with
  | nil => exact Nat.le_refl 0
  | cons b rest ih =>
    have hb := zeroPairs_le b
    rw [layerOfDigest, List.length_cons]
    split <;> omega

end Key

end MerkleSearch
