import Mathlib
import MerkleSearch.Key

/-!
This module contains the grammar of keys: two names with a slash between them. `Key.isValid` looks
for the first slash and for the length of the text before it looks at the names; the main statement
is `Key.isValid_iff_spelled`, that it accepts what the grammar spells and refuses everything else.
-/

namespace MerkleSearch

namespace Key

def Permitted (c : Char) : Prop :=
  'A' ≤ c ∧ c ≤ 'Z' ∨ 'a' ≤ c ∧ c ≤ 'z' ∨ '0' ≤ c ∧ c ≤ '9' ∨ c ∈ ['_', '~', '-', ':', '.']

instance : DecidablePred Permitted := fun _ => inferInstanceAs (Decidable (_ ∨ _ ∨ _ ∨ _))

structure Name (text : String) : Prop where
  nonempty : text ≠ ""
  permitted : ∀ c ∈ text.toList, Permitted c

structure Spelled (key collection name : String) : Prop where
  eq : key = collection ++ "/" ++ name
  collection : Name collection
  name : Name name

variable {c : Char} {chars : List Char} {key collection name : String}

theorem isKeyChar_iff : isKeyChar c = true ↔ Permitted c := by
  have hupper : c.isUpper = true ↔ 'A' ≤ c ∧ c ≤ 'Z' := by simp [Char.isUpper, Char.le_def]
  have hlower : c.isLower = true ↔ 'a' ≤ c ∧ c ≤ 'z' := by simp [Char.isLower, Char.le_def]
  have hdigit : c.isDigit = true ↔ '0' ≤ c ∧ c ≤ '9' := by simp [Char.isDigit, Char.le_def]
  simp only [isKeyChar, Char.isAlphanum, Char.isAlpha, Bool.or_eq_true, hupper, hlower, hdigit,
    beq_iff_eq, Permitted, List.mem_cons, List.not_mem_nil, or_false, or_assoc]

theorem isName_iff : isName name.toList = true ↔ Name name := by
  have hempty : name.toList.isEmpty = true ↔ name = "" := by simp
  have hchars : name.toList.all isKeyChar = true ↔ ∀ c ∈ name.toList, Permitted c := by
    simp only [List.all_eq_true, isKeyChar_iff]
  rw [isName, Bool.and_eq_true, Bool.not_eq_true', ← Bool.not_eq_true, hempty, hchars]
  exact ⟨fun h => ⟨h.1, h.2⟩, fun h => ⟨h.nonempty, h.permitted⟩⟩

instance : DecidablePred Name := fun _ => decidable_of_iff _ isName_iff

theorem Permitted.lt (h : Permitted c) : c.toNat < 128 := by
  have hle {d : Char} (hcd : c ≤ d) (hd : d.toNat < 128) : c.toNat < 128 :=
    Nat.lt_of_le_of_lt hcd hd
  rcases h with h | h | h | h
  · exact hle h.2 (by decide)
  · exact hle h.2 (by decide)
  · exact hle h.2 (by decide)
  · have hmarks : ∀ c ∈ ['_', '~', '-', ':', '.'], c.toNat < 128 := by simp
    exact hmarks c h

theorem Permitted.ne_slash (h : Permitted c) : c ≠ '/' := by
  rintro rfl
  exact absurd h (by decide)

theorem Name.bne_slash (h : Name name) : ∀ c ∈ name.toList, (c != '/') = true :=
  fun c hc => bne_iff_ne.2 (h.permitted c hc).ne_slash

namespace Spelled

theorem toList_eq (h : Spelled key collection name) :
    key.toList = collection.toList ++ '/' :: name.toList := by
  rw [h.eq, String.toList_append, String.toList_append, List.append_assoc]
  rfl

theorem isValid_iff (h : Spelled key collection name) :
    isValid key = true ↔ key.utf8ByteSize ≤ maxLength := by
  have hcollection : key.toList.takeWhile (· != '/') = collection.toList := by
    rw [h.toList_eq, List.takeWhile_append_of_pos h.collection.bne_slash]
    exact List.append_nil _
  have hname : key.toList.dropWhile (· != '/') = '/' :: name.toList := by
    rw [h.toList_eq, List.dropWhile_append_of_pos h.collection.bne_slash]
    rfl
  unfold isValid
  dsimp only
  rw [hname]
  dsimp only
  rw [hcollection, isName_iff.2 h.collection, isName_iff.2 h.name, Bool.and_true, Bool.and_true,
    decide_eq_true_iff]

theorem count_eq (h : Spelled key collection name) : key.toList.count '/' = 1 := by
  have hcollection : collection.toList.count '/' = 0 :=
    List.count_eq_zero.2 fun hmem => (h.collection.permitted _ hmem).ne_slash rfl
  have hname : name.toList.count '/' = 0 :=
    List.count_eq_zero.2 fun hmem => (h.name.permitted _ hmem).ne_slash rfl
  rw [h.toList_eq, List.count_append, hcollection, List.count_cons_self, hname]

theorem permitted_or_eq (h : Spelled key collection name) :
    ∀ c ∈ key.toList, Permitted c ∨ c = '/' := by
  intro c hc
  rw [h.toList_eq, List.mem_append, List.mem_cons] at hc
  rcases hc with hc | rfl | hc
  · exact .inl (h.collection.permitted c hc)
  · exact .inr rfl
  · exact .inl (h.name.permitted c hc)

theorem head?_ne (h : Spelled key collection name) : key.toList.head? ≠ some '/' := by
  intro hhead
  rw [h.toList_eq] at hhead
  cases hchars : collection.toList with
  | nil => exact h.collection.nonempty (String.toList_inj.1 hchars)
  | cons c chars =>
    rw [hchars, List.cons_append, List.head?_cons] at hhead
    cases hhead
    exact (h.collection.permitted '/' (by rw [hchars]; exact List.mem_cons_self)).ne_slash rfl

theorem getLast?_ne (h : Spelled key collection name) : key.toList.getLast? ≠ some '/' := by
  intro hlast
  rw [h.toList_eq, List.getLast?_append_of_ne_nil _ (List.cons_ne_nil _ _)] at hlast
  cases hchars : name.toList with
  | nil => exact h.name.nonempty (String.toList_inj.1 hchars)
  | cons c chars =>
    rw [hchars, List.getLast?_cons_cons, ← hchars] at hlast
    exact (h.name.permitted '/' (List.mem_of_getLast? hlast)).ne_slash rfl

end Spelled

theorem exists_spelled (h : isValid key = true) :
    ∃ collection name, Spelled key collection name := by
  unfold isValid at h
  dsimp only at h
  split at h
  · cases h
  · next slash rest hrest =>
    rw [Bool.and_eq_true, Bool.and_eq_true] at h
    obtain ⟨⟨-, hcollection⟩, hname⟩ := h
    have hslash : slash = '/' := by
      have hstop :=
        List.head_dropWhile_not (· != '/') (l := key.toList)
        (by rw [hrest]; exact List.cons_ne_nil _ _)
      simpa only [hrest, List.head_cons, bne_eq_false_iff_eq] using hstop
    have hsplit := List.takeWhile_append_dropWhile (p := (· != '/')) (l := key.toList)
    rw [hrest, hslash] at hsplit
    refine ⟨String.ofList (key.toList.takeWhile (· != '/')), String.ofList rest, ⟨?_, ?_, ?_⟩⟩
    · simpa [← String.toList_inj] using hsplit.symm
    · rwa [← isName_iff, String.toList_ofList]
    · rwa [← isName_iff, String.toList_ofList]

theorem isValid_iff (key : String) :
    isValid key = true ↔ (∃ collection name, Spelled key collection name) ∧
    key.utf8ByteSize ≤ 1024 := by
  constructor
  · intro h
    obtain ⟨collection, name, hspelled⟩ := exists_spelled h
    exact ⟨⟨collection, name, hspelled⟩, hspelled.isValid_iff.1 h⟩
  · rintro ⟨⟨collection, name, hspelled⟩, hlength⟩
    exact hspelled.isValid_iff.2 hlength

theorem isValid_eq_false (h : ∀ collection name, ¬Spelled key collection name) :
    isValid key = false := by
  rw [← Bool.not_eq_true]
  intro hvalid
  obtain ⟨collection, name, hspelled⟩ := exists_spelled hvalid
  exact h collection name hspelled

/--
A text is a key if and only if the grammar spells it and it is short enough. So there is no key
without a slash or with several, none with any other character, be it a line break or one that looks
like a letter, and none that starts or ends with the slash.
-/
theorem isValid_iff_spelled (key : String) :
    (isValid key = true ↔ (∃ collection name, Spelled key collection name) ∧
      key.utf8ByteSize ≤ 1024) ∧
    (key.toList.count '/' ≠ 1 → isValid key = false) ∧
    (∀ c ∈ key.toList, ¬Permitted c → c ≠ '/' → isValid key = false) ∧
    (∀ c ∈ key.toList, c = '\n' ∨ 128 ≤ c.toNat → isValid key = false) ∧
    ∀ rest, key = "/" ++ rest ∨ key = rest ++ "/" → isValid key = false := by
  have hother : ∀ c ∈ key.toList, ¬Permitted c → c ≠ '/' → isValid key = false :=
    fun c hc hforbidden hslash => isValid_eq_false fun _ _ h =>
      (h.permitted_or_eq c hc).elim hforbidden hslash
  refine ⟨isValid_iff key, ?_, hother, ?_, ?_⟩
  · intro hcount
    exact isValid_eq_false fun _ _ h => hcount h.count_eq
  · rintro c hc (rfl | hlarge)
    · exact hother _ hc (by decide) (by decide)
    · refine hother c hc (fun h => Nat.not_lt.2 hlarge h.lt) ?_
      rintro rfl
      exact absurd hlarge (by decide)
  · rintro rest (rfl | rfl)
    · apply isValid_eq_false
      intro collection name h
      apply h.head?_ne
      rw [String.toList_append]
      rfl
    · apply isValid_eq_false
      intro collection name h
      apply h.getLast?_ne
      rw [String.toList_append]
      exact List.getLast?_concat

theorem isValid_iff_spelled_of_one_slash :
    isValid "a.b/c-1" = true ∧ isValid "a/b/c" = false ∧ isValid "a/b\n" = false ∧
    isValid "a/\uff42" = false ∧ isValid "/a" = false ∧ isValid "a/" = false := by
  have hspelled : Spelled "a.b/c-1" "a.b" "c-1" := ⟨by decide, by decide, by decide⟩
  refine ⟨(isValid_iff_spelled _).1.2 ⟨⟨_, _, hspelled⟩, by decide⟩, ?_, ?_, ?_, ?_, ?_⟩
  · exact (isValid_iff_spelled _).2.1 (by decide)
  · exact (isValid_iff_spelled _).2.2.1 '\n' (by decide) (by decide) (by decide)
  · exact (isValid_iff_spelled _).2.2.2.1 '\uff42' (by decide) (by decide)
  · exact (isValid_iff_spelled _).2.2.2.2 "a" (by decide)
  · exact (isValid_iff_spelled _).2.2.2.2 "a" (by decide)

end Key

end MerkleSearch
