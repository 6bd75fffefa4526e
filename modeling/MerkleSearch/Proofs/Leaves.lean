import Mathlib.Data.List.Sort
import Mathlib.Data.String.Basic
import MerkleSearch.Key
import MerkleSearch.Node

/-!
This module contains lists of leaves in key order, which is what a tree amounts to as a map, and
what insertion, removal and look-up do to them.
-/

namespace MerkleSearch

structure Listing (ls : List Leaf) : Prop where
  sorted : ls.Pairwise (·.key < ·.key)
  valid : ∀ l ∈ ls, Key.isValid l.key

namespace Leaves

def before (key : String) (ls : List Leaf) : List Leaf := ls.filter (·.key < key)

def after (key : String) (ls : List Leaf) : List Leaf := ls.filter (key < ·.key)

def insert (leaf : Leaf) (ls : List Leaf) : List Leaf :=
  before leaf.key ls ++ leaf :: after leaf.key ls

def erase (key : String) (ls : List Leaf) : List Leaf := before key ls ++ after key ls

def value? (key : String) (ls : List Leaf) : Option Cid := (ls.find? (·.key = key)).map (·.value)

variable {key : String} {ls ls' : List Leaf} {l leaf : Leaf}

@[simp]
theorem before_nil : before key [] = [] := rfl

@[simp]
theorem after_nil : after key [] = [] := rfl

@[simp]
theorem before_append : before key (ls ++ ls') = before key ls ++ before key ls' :=
  List.filter_append ..

@[simp]
theorem after_append : after key (ls ++ ls') = after key ls ++ after key ls' :=
  List.filter_append ..

@[simp]
theorem mem_before : l ∈ before key ls ↔ l ∈ ls ∧ l.key < key := by
  simp [before]

@[simp]
theorem mem_after : l ∈ after key ls ↔ l ∈ ls ∧ key < l.key := by
  simp [after]

theorem mem_insert : l ∈ insert leaf ls ↔ l = leaf ∨ l ∈ ls ∧ l.key ≠ leaf.key := by
  simp only [insert, List.mem_append, List.mem_cons, mem_before, mem_after, ne_iff_lt_or_gt]
  tauto

theorem mem_erase : l ∈ erase key ls ↔ l ∈ ls ∧ l.key ≠ key := by
  simp only [erase, List.mem_append, mem_before, mem_after, ne_iff_lt_or_gt]
  tauto

theorem before_of_lt (h : ∀ l ∈ ls, l.key < key) : before key ls = ls := by
  simpa [before] using h

theorem before_of_le (h : ∀ l ∈ ls, key ≤ l.key) : before key ls = [] := by
  rw [List.eq_nil_iff_forall_not_mem]
  intro l hl
  rw [mem_before] at hl
  exact hl.2.not_ge (h l hl.1)

theorem after_of_lt (h : ∀ l ∈ ls, key < l.key) : after key ls = ls := by
  simpa [after] using h

theorem after_of_le (h : ∀ l ∈ ls, l.key ≤ key) : after key ls = [] := by
  rw [List.eq_nil_iff_forall_not_mem]
  intro l hl
  rw [mem_after] at hl
  exact hl.2.not_ge (h l hl.1)

theorem before_append_after (hls : ls.Pairwise (·.key < ·.key)) (hkey : ∀ l ∈ ls, l.key ≠ key) :
    before key ls ++ after key ls = ls := by
  induction ls with
  | nil => rfl
  | cons l ls ih =>
    rw [List.pairwise_cons] at hls
    rw [List.forall_mem_cons] at hkey
    rcases lt_or_gt_of_ne hkey.1 with hlt | hgt
    · have hbefore : before key (l :: ls) = l :: before key ls :=
        List.filter_cons_of_pos (decide_eq_true hlt)
      have hafter : after key (l :: ls) = after key ls :=
        List.filter_cons_of_neg (by simpa only [decide_eq_true_eq] using hlt.asymm)
      rw [hbefore, hafter, List.cons_append, ih hls.2 hkey.2]
    · have habove : ∀ k ∈ l :: ls, key < k.key :=
        List.forall_mem_cons.2 ⟨hgt, fun k hk => hgt.trans (hls.1 k hk)⟩
      rw [before_of_le fun k hk => (habove k hk).le, after_of_lt habove, List.nil_append]

theorem before_eq_nil_iff (hkey : ∀ l ∈ ls, l.key ≠ key) :
    before key ls = [] ↔ ∀ l ∈ ls, key < l.key := by
  constructor
  · intro hnil l hl
    apply lt_of_le_of_ne _ (hkey l hl).symm
    rw [← not_lt]
    intro hlt
    exact List.not_mem_nil (hnil ▸ mem_before.2 ⟨hl, hlt⟩)
  · exact fun h => before_of_le fun l hl => (h l hl).le

theorem after_eq_nil_iff (hkey : ∀ l ∈ ls, l.key ≠ key) :
    after key ls = [] ↔ ∀ l ∈ ls, l.key < key := by
  constructor
  · intro hnil l hl
    apply lt_of_le_of_ne _ (hkey l hl)
    rw [← not_lt]
    intro hlt
    exact List.not_mem_nil (hnil ▸ mem_after.2 ⟨hl, hlt⟩)
  · exact fun h => after_of_le fun l hl => (h l hl).le

theorem before_sublist : (before key ls).Sublist ls := List.filter_sublist

theorem after_sublist : (after key ls).Sublist ls := List.filter_sublist

theorem value?_eq_none : value? key ls = none ↔ ∀ l ∈ ls, l.key ≠ key := by
  simp [value?]

end Leaves

namespace Listing

variable {key : String} {ls ls' : List Leaf} {l leaf : Leaf}

theorem nil : Listing [] := ⟨.nil, nofun⟩

theorem sublist (h : Listing ls) (hsub : ls'.Sublist ls) : Listing ls' :=
  ⟨h.sorted.sublist hsub, fun l hl => h.valid l (hsub.subset hl)⟩

theorem left (h : Listing (ls ++ ls')) : Listing ls := h.sublist (List.sublist_append_left ..)

theorem right (h : Listing (ls ++ ls')) : Listing ls' := h.sublist (List.sublist_append_right ..)

theorem lt_of_append (h : Listing (ls ++ ls')) {a b : Leaf} (ha : a ∈ ls) (hb : b ∈ ls') :
    a.key < b.key :=
  (List.pairwise_append.1 h.sorted).2.2 a ha b hb

theorem lt_of_cons (h : Listing (leaf :: ls)) (hl : l ∈ ls) : leaf.key < l.key :=
  (List.pairwise_cons.1 h.sorted).1 l hl

theorem tail (h : Listing (leaf :: ls)) : Listing ls := h.sublist (List.sublist_cons_self ..)

theorem before (h : Listing ls) : Listing (Leaves.before key ls) := h.sublist Leaves.before_sublist

theorem after (h : Listing ls) : Listing (Leaves.after key ls) := h.sublist Leaves.after_sublist

theorem eq_of_key_eq (h : Listing ls) {a b : Leaf} (ha : a ∈ ls) (hb : b ∈ ls)
    (hkey : a.key = b.key) :
    a = b := by
  induction ls with
  | nil => simp at ha
  | cons l ls ih =>
    rw [List.mem_cons] at ha hb
    rcases ha with rfl | ha <;> rcases hb with rfl | hb
    · rfl
    · exact absurd hkey (h.lt_of_cons hb).ne
    · exact absurd hkey (h.lt_of_cons ha).ne'
    · exact ih h.tail ha hb

theorem value?_eq_some (h : Listing ls) {v : Cid} :
    Leaves.value? key ls = some v ↔ ⟨key, v⟩ ∈ ls := by
  rw [Leaves.value?, Option.map_eq_some_iff]
  constructor
  · rintro ⟨l, hl, rfl⟩
    have hkey : l.key = key := by simpa using List.find?_some hl
    rw [← hkey]
    exact List.mem_of_find?_eq_some hl
  · intro hmem
    cases hfound : ls.find? (·.key = key) with
    | none => simpa using List.find?_eq_none.1 hfound _ hmem
    | some l =>
      have hkey : l.key = key := by simpa using List.find?_some hfound
      have : l = ⟨key, v⟩ := h.eq_of_key_eq (List.mem_of_find?_eq_some hfound) hmem hkey
      exact ⟨l, rfl, by rw [this]⟩

theorem ext (h : Listing ls) (h' : Listing ls')
    (hvalue : ∀ key, Leaves.value? key ls = Leaves.value? key ls') : ls = ls' := by
  have : Std.Irrefl fun a b : Leaf => a.key < b.key := ⟨fun a => lt_irrefl a.key⟩
  have : Std.Antisymm fun a b : Leaf => a.key < b.key := ⟨fun a b hab hba => (hab.asymm hba).elim⟩
  refine h.sorted.eq_of_mem_iff h'.sorted fun l => ?_
  have hmem : Leaves.value? l.key ls = some l.value ↔ l ∈ ls := h.value?_eq_some
  rw [hvalue, h'.value?_eq_some] at hmem
  exact hmem.symm

theorem before_append_cons (h : Listing (ls ++ l :: ls')) :
    Leaves.before l.key (ls ++ l :: ls') = ls := by
  rw [Leaves.before_append, Leaves.before_of_lt fun k hk => h.lt_of_append hk List.mem_cons_self,
    Leaves.before_of_le, List.append_nil]
  rw [List.forall_mem_cons]
  exact ⟨le_rfl, fun k hk => (h.right.lt_of_cons hk).le⟩

theorem after_append_cons (h : Listing (ls ++ l :: ls')) :
    Leaves.after l.key (ls ++ l :: ls') = ls' := by
  rw [Leaves.after_append, Leaves.after_of_le fun k hk => (h.lt_of_append hk List.mem_cons_self).le,
    List.nil_append, ← List.singleton_append, Leaves.after_append,
    Leaves.after_of_lt fun k hk =>
      h.right.lt_of_cons hk, Leaves.after_of_le (by simp), List.nil_append]

theorem erase_append_cons (h : Listing (ls ++ l :: ls')) :
    Leaves.erase l.key (ls ++ l :: ls') = ls ++ ls' := by
  rw [Leaves.erase, h.before_append_cons, h.after_append_cons]

theorem insert_append_cons (h : Listing (ls ++ l :: ls')) (hkey : l.key = leaf.key) :
    Leaves.insert leaf (ls ++ l :: ls') = ls ++ leaf :: ls' := by
  rw [Leaves.insert, ← hkey, h.before_append_cons, h.after_append_cons]

theorem erase (h : Listing ls) : Listing (Leaves.erase key ls) := by
  constructor
  · rw [Leaves.erase, List.pairwise_append]
    refine ⟨h.before.sorted, h.after.sorted, ?_⟩
    intro a ha b hb
    exact (Leaves.mem_before.1 ha).2.trans (Leaves.mem_after.1 hb).2
  · intro l hl
    exact h.valid l (Leaves.mem_erase.1 hl).1

theorem insert (h : Listing ls) (hvalid : Key.isValid leaf.key) :
    Listing (Leaves.insert leaf ls) := by
  constructor
  · rw [Leaves.insert, List.pairwise_append, List.pairwise_cons]
    refine ⟨h.before.sorted, ⟨fun b hb => (Leaves.mem_after.1 hb).2, h.after.sorted⟩, ?_⟩
    intro a ha b hb
    have ha := (Leaves.mem_before.1 ha).2
    rcases List.mem_cons.1 hb with rfl | hb
    · exact ha
    · exact ha.trans (Leaves.mem_after.1 hb).2
  · intro l hl
    rcases Leaves.mem_insert.1 hl with rfl | ⟨hl, _⟩
    · exact hvalid
    · exact h.valid l hl

end Listing

end MerkleSearch
