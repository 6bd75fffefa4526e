import Mathlib.Data.String.Basic
import MerkleSearch.Key

/-!
This module contains the order of keys. A tree compares keys as texts, code point by code point;
this is the same as to compare their bytes.
-/

namespace MerkleSearch

theorem utf8EncodeChar_append_lt {c d : Char} (h : c < d) (bs cs : Bytes) :
    String.utf8EncodeChar c ++ bs < String.utf8EncodeChar d ++ cs := by
  have hlt : c.val.toNat < d.val.toNat := h
  have hd : d.val.toNat < 1114112 := d.valid.elim (fun h => h.trans (by decide)) fun h => h.2
  unfold String.utf8EncodeChar
  dsimp only
  generalize c.val.toNat = v at hlt
  generalize d.val.toNat = w at hlt hd
  -- The bytes are the digits of the code point to base 64, with the length of the sequence in
  -- front.
  have hv : v / 64 / 64 = v / 4096 ∧ v / 4096 / 64 = v / 262144 := by omega
  have hw : w / 64 / 64 = w / 4096 ∧ w / 4096 / 64 = w / 262144 := by omega
  split_ifs
  all_goals
    simp (disch := omega) only [List.cons_append, List.nil_append, List.cons_lt_cons_iff,
      UInt8.lt_iff_toNat_lt, ← UInt8.toNat_inj, UInt8.toNat_ofNat', Nat.mod_eq_of_lt]
    omega

theorem flatMap_utf8EncodeChar_lt {as bs : List Char} (h : as < bs) :
    as.flatMap String.utf8EncodeChar < bs.flatMap String.utf8EncodeChar := by
  induction as generalizing bs with
  | nil =>
    cases bs with
    | nil => exact absurd h (List.not_lt_nil _)
    | cons b bs =>
      rw [List.flatMap_nil, List.flatMap_cons]
      cases hb : String.utf8EncodeChar b with
      | nil =>
        have hlength := String.length_utf8EncodeChar b
        rw [hb] at hlength
        exact absurd hlength b.utf8Size_pos.ne
      | cons => exact List.nil_lt_cons ..
  | cons a as ih =>
    cases bs with
    | nil => exact absurd h (List.not_lt_nil _)
    | cons b bs =>
      rw [List.flatMap_cons, List.flatMap_cons]
      rcases List.cons_lt_cons_iff.1 h with hlt | ⟨rfl, hrest⟩
      · exact utf8EncodeChar_append_lt hlt ..
      · exact List.append_left_lt (ih hrest)

namespace Bytes

theorem ofText_eq_flatMap (text : String) :
    ofText text = text.toList.flatMap String.utf8EncodeChar := by
  have h : text.toByteArray = (String.ofList text.toList).toByteArray := by
    rw [String.ofList_toList]
  rw [ofText, h, String.toByteArray_ofList, List.utf8Encode]
  simp

theorem ofText_lt_ofText_iff {a b : String} : ofText a < ofText b ↔ a < b := by
  have hlt : ∀ {a b : String}, a < b → ofText a < ofText b := by
    intro a b h
    rw [ofText_eq_flatMap, ofText_eq_flatMap]
    exact flatMap_utf8EncodeChar_lt (String.lt_iff_toList_lt.1 h)
  refine ⟨fun h => ?_, hlt⟩
  rcases lt_trichotomy a b with hab | rfl | hba
  · exact hab
  · exact absurd h (List.lt_irrefl _)
  · exact absurd h (List.lt_asymm (hlt hba))

end Bytes

end MerkleSearch
