import MerkleSearch.Bytes

/-!
This module contains the reading of arbitrary bytes as UTF-8. Bytes that start a character without
completing it count as one unreadable part, and any other unreadable byte as a part of its own; a
replacement character stands for each.
-/

namespace MerkleSearch

namespace Text

def following? (b : UInt8) : Option (Nat × UInt8 × UInt8) :=
  if b < 0xc2 then none
  else if b < 0xe0 then some (1, 0x80, 0xbf)
  else if b = 0xe0 then some (2, 0xa0, 0xbf)
  else if b = 0xed then some (2, 0x80, 0x9f)
  else if b < 0xf0 then some (2, 0x80, 0xbf)
  else if b = 0xf0 then some (3, 0x90, 0xbf)
  else if b < 0xf4 then some (3, 0x80, 0xbf)
  else if b = 0xf4 then some (3, 0x80, 0x8f)
  else none

def payload (b : UInt8) (n : Nat) : Nat := b.toNat % (1 <<< (6 - n))

/--
Reads `n` more bytes, the first of them between `low` and `high`. Returns the character if they are
all there, and what comes after those that are.
-/
def finish (code : Nat) : (n : Nat) → (low high : UInt8) → Bytes → Option Char × Bytes
  | 0, _, _, rest => (some (Char.ofNat code), rest)
  | _ + 1, _, _, [] => (none, [])
  | n + 1, low, high, b :: rest =>
    if low ≤ b ∧ b ≤ high then
      finish (64 * code + b.toNat % 64) n 0x80 0xbf rest
    else
      (none, b :: rest)

theorem length_finish (code n : Nat) (low high : UInt8) (bytes : Bytes) :
    (finish code n low high bytes).2.length ≤ bytes.length := by
  fun_induction finish with
  | case1 => simp
  | case2 => simp
  | case3 _ _ _ _ _ _ _ ih => exact Nat.le_succ_of_le ih
  | case4 => simp

def replacement : Char := '\uFFFD'

def lossy (bytes : Bytes) : String := String.ofList (go bytes)
where
  go : Bytes → List Char
    | [] => []
    | b :: rest =>
      if b < 0x80 then
        Char.ofNat b.toNat :: go rest
      else
        match following? b with
        | none => replacement :: go rest
        | some (n, low, high) =>
          let read := finish (payload b n) n low high rest
          have := length_finish (payload b n) n low high rest
          read.1.getD replacement :: go read.2
  termination_by bytes => bytes.length

end Text

end MerkleSearch
