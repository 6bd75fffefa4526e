import Mathlib
import MerkleSearch.Key

/-!
This module contains on which layer a digest places a key. `Key.layerOfDigest` compares bytes with
bounds and goes on to the next byte only after a zero; the main statement is
`Key.layerOfDigest_eq_half_leadingZeros`, that this counts the zero bits at the start of the whole
digest in pairs.
-/

namespace MerkleSearch

namespace Bytes

def bitsOf : (width : Nat) → (n : Nat) → List Bool
  | 0, _ => []
  | width + 1, n => n.testBit width :: bitsOf width n

/--
The bits of a byte string, from the highest bit of the first byte to the lowest bit of the last one.
-/
def bits (bytes : Bytes) : List Bool := bytes.flatMap fun b => bitsOf 8 b.toNat

def leadingZeros (bytes : Bytes) : Nat := ((bits bytes).takeWhile (! ·)).length

theorem length_bitsOf (width n : Nat) : (bitsOf width n).length = width := by
  induction width with
  | zero => rfl
  | succ width ih => rw [bitsOf, List.length_cons, ih]

theorem length_bits (bytes : Bytes) : (bits bytes).length = 8 * bytes.length := by
  induction bytes with
  | nil => rfl
  | cons b bytes ih =>
    have hcons : bits (b :: bytes) = bitsOf 8 b.toNat ++ bits bytes := rfl
    rw [hcons, List.length_append, length_bitsOf, ih, List.length_cons]
    omega

theorem length_takeWhile_bitsOf {width n : Nat} (h : n < 2 ^ width) :
    ((bitsOf width n).takeWhile (! ·)).length = width - n.size := by
  induction width with
  | zero => exact (Nat.zero_sub _).symm
  | succ width ih =>
    rw [bitsOf, List.takeWhile_cons]
    cases hbit : n.testBit width with
    | true =>
      have hle : 2 ^ width ≤ n := Nat.ge_two_pow_of_testBit hbit
      have hsize : width < n.size := Nat.lt_size.2 hle
      simp only [Bool.not_true, Bool.false_eq_true, if_false, List.length_nil]
      omega
    | false =>
      have hlt : n < 2 ^ width := by
        apply Nat.lt_pow_two_of_testBit
        intro i hi
        rcases Nat.eq_or_lt_of_le hi with rfl | hi
        · exact hbit
        · exact Nat.testBit_lt_two_pow (Nat.lt_of_lt_of_le h (Nat.pow_le_pow_right Nat.two_pos hi))
      have hsize : n.size ≤ width := Nat.size_le.2 hlt
      simp only [Bool.not_false, if_true, List.length_cons, ih hlt]
      omega

theorem leadingZeros_cons (b : UInt8) (bytes : Bytes) :
    leadingZeros (b :: bytes) = if b = 0 then 8 + leadingZeros bytes else 8 - b.toNat.size := by
  have hlength : ((bitsOf 8 b.toNat).takeWhile (! ·)).length = 8 - b.toNat.size :=
    length_takeWhile_bitsOf b.toNat_lt
  have hcons : bits (b :: bytes) = bitsOf 8 b.toNat ++ bits bytes := rfl
  rw [leadingZeros, hcons, List.takeWhile_append, hlength, length_bitsOf]
  split
  · next hsize =>
    have hzero : b = 0 := by
      rw [← UInt8.toNat_inj]
      apply Nat.size_eq_zero.1
      omega
    rw [if_pos hzero, List.length_append, length_bitsOf]
    rfl
  · next hsize =>
    rw [if_neg, hlength]
    rintro rfl
    exact hsize rfl

theorem leadingZeros_le (bytes : Bytes) : leadingZeros bytes ≤ 8 * bytes.length := by
  rw [← length_bits]
  exact (List.takeWhile_sublist _).length_le

end Bytes

namespace Key

theorem zeroPairs_eq (b : UInt8) : zeroPairs b = (8 - b.toNat.size) / 2 := by
  have hsize (k : Nat) : b.toNat.size ≤ k ↔ b.toNat < 2 ^ k := Nat.size_le
  have h8 := (hsize 8).2 b.toNat_lt
  have h6 := hsize 6
  have h4 := hsize 4
  have h2 := hsize 2
  have h0 := hsize 0
  unfold zeroPairs
  simp only [← UInt8.toNat_inj, UInt8.lt_iff_toNat_lt, UInt8.reduceToNat]
  split_ifs <;> omega

theorem layerOfDigest_eq (digest : Bytes) : layerOfDigest digest = digest.leadingZeros / 2 := by
  induction digest with
  | nil => rfl
  | cons b digest ih =>
    rw [layerOfDigest, Bytes.leadingZeros_cons, ih, zeroPairs_eq]
    split
    · next hzero =>
      rw [hzero]
      have hsize : (0 : UInt8).toNat.size = 0 := rfl
      omega
    · rfl

theorem layerOfDigest_zeros (n : Nat) : layerOfDigest (List.replicate n 0) = 4 * n := by
  induction n with
  | zero => rfl
  | succ n ih =>
    rw [List.replicate_succ, layerOfDigest, if_pos rfl, ih]
    rfl

theorem layerOfDigest_eq_half_leadingZeros (digest : Bytes) :
    layerOfDigest digest = digest.leadingZeros / 2 ∧
    (digest.length < 2 ^ 30 → layerOfDigest digest < 2 ^ 32) ∧
    ((∀ b ∈ digest, b = 0) → layerOfDigest digest = 4 * digest.length) := by
  refine ⟨layerOfDigest_eq digest, ?_, ?_⟩
  · intro hlength
    have hle := digest.leadingZeros_le
    rw [layerOfDigest_eq]
    omega
  · intro hzero
    rw [List.eq_replicate_of_mem hzero, layerOfDigest_zeros, List.length_replicate]

theorem layerOfDigest_eq_half_leadingZeros_of_two_bytes :
    Bytes.leadingZeros [0x00, 0x07, 0xff] = 13 ∧ layerOfDigest [0x00, 0x07, 0xff] = 13 / 2 ∧
      layerOfDigest [0x00, 0x07, 0xff] < 2 ^ 32 ∧ layerOfDigest [0x00, 0x00, 0x00] = 4 * 3 := by
  have hzeros : Bytes.leadingZeros [0x00, 0x07, 0xff] = 13 := by decide
  obtain ⟨heq, hlt, -⟩ := layerOfDigest_eq_half_leadingZeros [0x00, 0x07, 0xff]
  refine ⟨hzeros, ?_, hlt (by decide), ?_⟩
  · rw [heq, hzeros]
  · exact (layerOfDigest_eq_half_leadingZeros [0x00, 0x00, 0x00]).2.2 (by simp)

end Key

end MerkleSearch
