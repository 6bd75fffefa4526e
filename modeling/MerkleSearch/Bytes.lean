/-!
This module contains the byte strings that keys, digests and blocks are made of: their UTF-8 and
hexadecimal forms, their shared prefixes, and numbers in big-endian order.
-/

namespace MerkleSearch

abbrev Bytes := List UInt8

namespace Bytes

def ofText (text : String) : Bytes := text.toByteArray.data.toList

def text? (bytes : Bytes) : Option String := String.fromUTF8? ⟨bytes.toArray⟩

@[simp]
theorem text?_ofText (text : String) : text? (ofText text) = some text :=
  dif_pos text.isValidUTF8

def sharedLength : Bytes → Bytes → Nat
  | a :: as, b :: bs => if a = b then sharedLength as bs + 1 else 0
  | _, _ => 0

def bigEndian : (width : Nat) → (n : Nat) → Bytes
  | 0, _ => []
  | width + 1, n => bigEndian width (n / 256) ++ [UInt8.ofNat n]

def ofBigEndian (bytes : Bytes) : Nat := bytes.foldl (fun n b => n * 256 + b.toNat) 0

@[simp]
theorem length_bigEndian (width n : Nat) : (bigEndian width n).length = width := by
  induction width generalizing n with
  | zero => rfl
  | succ width ih => simp [bigEndian, ih]

theorem ofBigEndian_bigEndian {width n : Nat} (h : n < Nat.pow 256 width) :
    ofBigEndian (bigEndian width n) = n := by
  induction width generalizing n with
  | zero => simp_all [bigEndian, ofBigEndian]
  | succ width ih =>
    have h : n < Nat.pow 256 width * 256 := h
    have := ih ((Nat.div_lt_iff_lt_mul (by decide)).2 h)
    simp only [ofBigEndian, bigEndian, List.foldl_append, List.foldl_cons, List.foldl_nil] at this ⊢
    rw [this, UInt8.toNat_ofNat']
    omega

def hexDigit (n : UInt8) : Char :=
  if n < 10 then Char.ofNat (48 + n.toNat) else Char.ofNat (87 + n.toNat)

def hex (bytes : Bytes) : String :=
  String.ofList (bytes.flatMap fun (b : UInt8) => [hexDigit (b >>> 4), hexDigit (b &&& 0xf)])

def hexDigit? (c : Char) : Option UInt8 :=
  if '0' ≤ c ∧ c ≤ '9' then some (UInt8.ofNat (c.toNat - 48))
  else if 'a' ≤ c ∧ c ≤ 'f' then some (UInt8.ofNat (c.toNat - 87))
  else none

def ofHex? (text : String) : Option Bytes :=
  go text.toList
where
  go : List Char → Option Bytes
    | [] => some []
    | [_] => none
    | high :: low :: rest => do return ((← hexDigit? high) * 16 + (← hexDigit? low)) :: (← go rest)

end Bytes

end MerkleSearch
