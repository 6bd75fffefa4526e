import MerkleSearch.Bytes

/-!
This module contains the two alphabets in which content addresses are written: base 32 without
padding, which spells out the bits of a byte string in groups of five, and base 58, which spells out
the byte string as one number.
-/

namespace MerkleSearch

namespace Base32

def alphabet : List Char := "abcdefghijklmnopqrstuvwxyz234567".toList

def bits (width n : Nat) : List Bool := (List.range width).map fun i => n.testBit (width - 1 - i)

def ofBits (bits : List Bool) : Nat := bits.foldl (fun n b => 2 * n + b.toNat) 0

def groups : List Bool → List Nat
  | [] => []
  | a :: b :: c :: d :: e :: rest => ofBits [a, b, c, d, e] :: groups rest
  | short => [ofBits (short ++ List.replicate (5 - short.length) false)]

def octets : List Bool → Bytes
  | a :: b :: c :: d :: e :: f :: g :: h :: rest =>
    UInt8.ofNat (ofBits [a, b, c, d, e, f, g, h]) :: octets rest
  | _ => []

def encode (bytes : Bytes) : String :=
  String.ofList ((groups (bytes.flatMap fun b => bits 8 b.toNat)).map fun i => alphabet.getD i 'a')

def decode? (text : List Char) : Option Bytes := do
  let digits ← text.mapM (alphabet.idxOf? ·)
  return octets (digits.flatMap (bits 5))

end Base32

namespace Base58

def alphabet : List Char := "123456789ABCDEFGHJKLMNPQRSTUVWXYZabcdefghijkmnopqrstuvwxyz".toList

def digits (base n : Nat) (tail : List Nat) : List Nat :=
  if _ : n = 0 ∨ base < 2 then
    tail
  else
    digits base (n / base) (n % base :: tail)
termination_by n
decreasing_by exact Nat.div_lt_self (by omega) (by omega)

def ofDigits (base : Nat) (digits : List Nat) : Nat := digits.foldl (fun n d => base * n + d) 0

/--
The number in base 58 after one `1` for each leading zero byte.
-/
def encode (bytes : Bytes) : String :=
  let zeros := (bytes.takeWhile (· == 0)).map fun _ => 0
  String.ofList ((zeros ++ digits 58 (Bytes.ofBigEndian bytes) []).map fun i => alphabet.getD i '1')

def decode? (text : List Char) : Option Bytes := do
  let indices ← text.mapM (alphabet.idxOf? ·)
  let zeros := (indices.takeWhile (· == 0)).map fun _ => 0
  return zeros ++ (digits 256 (ofDigits 58 indices) []).map UInt8.ofNat

end Base58

end MerkleSearch
