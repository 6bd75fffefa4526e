import MerkleSearch.Proofs.Seek
import MerkleSearch.Proofs.Walk.Outcome

/-!
This module contains listing leaves page by page. A page is cut out of the leaves of a walk by a
range or by a prefix, and by a count; that it is full is found out at the leaf behind it, so whether
a failed walk spoils it depends on that leaf. Since the keys are in order, to stop at the first leaf
that is out of range misses none. The main statement is `Tree.Built.list_eq_filter`: the pages of a
tree that can be read are what is left of all its leaves by a filter.
-/

namespace MerkleSearch

variable {config : Config} {archive : Archive config} {store : Blockstore Id} {tree : Tree}
variable {ls found : List Leaf} {count : Option Nat} {after before : Option String}
variable {key start : String} {stops : Leaf → Bool} {outcome : Except Error Unit}

namespace Leaves

def first (count : Option Nat) (ls : List Leaf) : List Leaf := count.elim ls ls.take

def between (after before : Option String) (ls : List Leaf) : List Leaf :=
  ls.filter fun l => after.all (· < l.key) && before.all (l.key < ·)

def startingWith (start : String) (ls : List Leaf) : List Leaf := ls.filter (start.isPrefixOf ·.key)

theorem takeWhile_eq_filter {p : Leaf → Bool} (h : ls.Pairwise fun a b => p b = true → p a = true) :
    ls.takeWhile p = ls.filter p := by
  induction ls with
  | nil => rfl
  | cons l ls ih =>
    rw [List.pairwise_cons] at h
    by_cases hl : p l = true
    · rw [List.takeWhile_cons_of_pos hl, List.filter_cons_of_pos hl, ih h.2]
    · rw [List.takeWhile_cons_of_neg hl, List.filter_cons_of_neg hl, eq_comm,
        List.filter_eq_nil_iff]
      exact fun k hk hp => hl (h.1 k hk hp)

theorem prefix_of_not_lt {cs ds rs : List Char} (h : ¬ds < cs) (h' : ¬cs ++ rs < ds) :
    cs <+: ds := by
  induction cs generalizing ds with
  | nil => exact ⟨ds, rfl⟩
  | cons c cs ih =>
    cases ds with
    | nil => exact (h (List.nil_lt_cons c cs)).elim
    | cons d ds =>
      rw [List.cons_lt_cons_iff, not_or, not_and] at h
      rw [List.cons_append, List.cons_lt_cons_iff, not_or, not_and] at h'
      cases le_antisymm (not_lt.1 h'.1) (not_lt.1 h.1)
      exact List.cons_prefix_cons.2 ⟨rfl, ih (h.2 rfl) (h'.2 rfl)⟩

theorem isPrefixOf_iff : start.isPrefixOf key = true ↔ start.toList <+: key.toList :=
  String.startsWith_string_iff

theorem le_of_isPrefixOf (h : start.isPrefixOf key = true) : start ≤ key :=
  not_lt.1 fun hlt => (isPrefixOf_iff.1 h).le (String.lt_iff_toList_lt.1 hlt)

theorem isPrefixOf_of_le {key' : String} (h : start.isPrefixOf key' = true) (hle : start ≤ key)
    (hle' : key ≤ key') :
    start.isPrefixOf key = true := by
  rw [isPrefixOf_iff] at h ⊢
  obtain ⟨rs, hrs⟩ := h
  rw [← not_lt, String.lt_iff_toList_lt] at hle hle'
  rw [← hrs] at hle'
  exact prefix_of_not_lt hle hle'

theorem filter_ne_eq_between (h : Listing ls) (hle : ∀ l ∈ ls, after.getD "" ≤ l.key) :
    ls.filter (·.key ≠ after.getD "") = between after none ls := by
  apply List.filter_congr
  intro l hl
  rw [Option.all_none, Bool.and_true]
  cases after with
  | none =>
    have hne : l.key ≠ "" := fun hempty => by
      have hvalid := h.valid l hl
      rw [hempty] at hvalid
      exact absurd hvalid (by decide)
    exact decide_eq_true hne
  | some k => exact decide_eq_decide.2 ⟨fun hne => (hle l hl).lt_of_ne' hne, fun hlt => hlt.ne'⟩

theorem takeWhile_between (h : Listing ls) :
    (between after none ls).takeWhile (fun l => !before.any (· ≤ l.key)) =
      between after before ls := by
  have hstop : ∀ l : Leaf, (!before.any (· ≤ l.key)) = before.all (l.key < ·) := by
    intro l
    cases before with
    | none => rfl
    | some k => simp only [Option.any_some, Option.all_some, ← decide_not, not_le]
  simp only [hstop]
  rw [takeWhile_eq_filter, between, between, List.filter_filter]
  · apply List.filter_congr
    intro l _
    rw [Option.all_none, Bool.and_true, Bool.and_comm]
  · apply (h.sorted.sublist List.filter_sublist).imp
    intro a b hlt hb
    rw [Option.all_eq_true] at hb ⊢
    intro k hk
    exact decide_eq_true (hlt.trans (of_decide_eq_true (hb k hk)))

theorem between_from :
    between after before (Leaves.from (after.getD "") ls) = between after before ls := by
  rw [between, between, Leaves.from, List.filter_filter]
  apply List.filter_congr
  intro l _
  rw [Bool.and_eq_left_iff_imp, Bool.and_eq_true]
  rintro ⟨hafter, -⟩
  apply decide_eq_true
  cases after with
  | none => exact not_lt.1 fun hlt => List.not_lt_nil _ (String.lt_iff_toList_lt.1 hlt)
  | some k => exact (of_decide_eq_true hafter).le

theorem takeWhile_isPrefixOf (h : Listing ls) (hle : ∀ l ∈ ls, start ≤ l.key) :
    ls.takeWhile (start.isPrefixOf ·.key) = startingWith start ls := by
  apply takeWhile_eq_filter
  apply h.sorted.imp_of_mem
  intro a b ha _ hlt hb
  exact isPrefixOf_of_le hb (hle a ha) hlt.le

theorem startingWith_from : startingWith start (Leaves.from start ls) = startingWith start ls := by
  rw [startingWith, startingWith, Leaves.from, List.filter_filter]
  apply List.filter_congr
  intro l _
  rw [Bool.and_eq_left_iff_imp]
  exact fun hstart => decide_eq_true (le_of_isPrefixOf hstart)

theorem le_of_mem_from {l : Leaf} (hl : l ∈ Leaves.from key ls) : key ≤ l.key := by
  simpa using (List.mem_filter.1 hl).2

theorem from_sublist : (Leaves.from key ls).Sublist ls := List.filter_sublist

end Leaves

/--
What becomes of a page at the next leaf. Only here is it noticed that the page is full.
-/
def turnPage (stops : Leaf → Bool) (count : Option Nat) (l : Leaf)
    (found : List Leaf) : ForInStep (List Leaf) :=
  if count = some found.length || stops l then .done found else .yield (l :: found)

theorem feed_turnPage_none : feed (turnPage stops none) outcome ls found =
    ((ls.takeWhile (!stops ·)).reverse ++ found,
      if (ls.takeWhile (!stops ·)).length < ls.length then .ok () else outcome) := by
  induction ls generalizing found with
  | nil => rfl
  | cons l ls ih =>
    rw [feed, turnPage]
    by_cases hstops : stops l = true
    · simp [hstops]
    · simp [hstops, ih]

theorem feed_turnPage_some (room : Nat) :
    feed (turnPage stops (some (found.length + room))) outcome ls found =
      (((ls.takeWhile (!stops ·)).take room).reverse ++ found,
      if ((ls.takeWhile (!stops ·)).take room).length < ls.length then .ok () else outcome) := by
  induction ls generalizing found room with
  | nil => simp [feed]
  | cons l ls ih =>
    rw [feed, turnPage]
    by_cases hstops : stops l = true
    · simp [hstops]
    · cases room with
      | zero => simp
      | succ room =>
        have ih := @ih (l :: found) room
        rw [List.length_cons, Nat.add_right_comm, Nat.add_assoc] at ih
        simp [hstops, ih]

theorem feed_turnPage :
    feed (turnPage stops count) outcome ls [] =
      ((Leaves.first count (ls.takeWhile (!stops ·))).reverse,
      if (Leaves.first count (ls.takeWhile (!stops ·))).length <
        ls.length then .ok () else outcome) := by
  cases count with
  | none => rw [feed_turnPage_none, List.append_nil, Leaves.first, Option.elim]
  | some n =>
    have h := @feed_turnPage_some ls [] stops outcome n
    rw [List.length_nil, Nat.zero_add] at h
    rw [h, List.append_nil, Leaves.first, Option.elim]

/--
A page of leaves that a walk has come to before it ended with `outcome`: it stands if there is
another leaf behind it.
-/
def closePage (outcome : Except Error Unit) (page beyond : List Leaf) : Except Error (List Leaf) :=
  if page.length < beyond.length then .ok page else outcome.map fun _ => page

theorem map_reverse_feed_turnPage :
    (walkOutcome (feed (turnPage stops count) outcome ls [])).map List.reverse =
      closePage outcome (Leaves.first count (ls.takeWhile (!stops ·))) ls := by
  rw [feed_turnPage, closePage, walkOutcome]
  split
  · rw [Except.map, Except.map, List.reverse_reverse]
  · cases outcome with
    | error e => rfl
    | ok => rw [Except.map, Except.map, Except.map, List.reverse_reverse]

namespace Tree

theorem run_list (tree : Tree) (store : Blockstore Id) (count : Option Nat)
    (after before : Option String) :
    (tree.list store count after before).run =
      let r := tree.leavesFrom store (after.getD "")
      let beyond := r.1.filter (·.key ≠ after.getD "")
      closePage r.2 (Leaves.first count (beyond.takeWhile fun l => !before.any (· ≤ l.key)))
        beyond := by
  dsimp only
  rw [list, run_scan, ← map_reverse_feed_turnPage, ← List.filterMap_eq_filter, ← feed_filterMap]
  · intro l found hskip
    have hkey : l.key = after.getD "" := by simpa [Option.guard] using hskip
    rw [if_pos hkey]
  · intro l k found hkeep
    obtain ⟨hkey, rfl⟩ : l.key ≠ after.getD "" ∧ l = k := by simpa [Option.guard] using hkeep
    rw [if_neg hkey, turnPage]
    by_cases hcount : count = some found.length
    · simp [hcount]
    · simp [hcount]

theorem run_listWithPrefix (tree : Tree) (store : Blockstore Id) (start : String)
    (count : Option Nat) :
    (tree.listWithPrefix store start count).run =
      let r := tree.leavesFrom store start
      closePage r.2 (Leaves.first count (r.1.takeWhile (start.isPrefixOf ·.key))) r.1 := by
  dsimp only
  have hstep : (fun (l : Leaf) (found : List Leaf) =>
      if count = some found.length ||
        !start.isPrefixOf l.key then ForInStep.done found else .yield (l :: found)) =
        turnPage (fun l => !start.isPrefixOf l.key) count := rfl
  rw [listWithPrefix, run_scan, hstep, map_reverse_feed_turnPage]
  simp only [Bool.not_not]

end Tree

@[simp]
theorem closePage_ok {page beyond : List Leaf} : closePage (.ok ()) page beyond = .ok page := by
  unfold closePage
  split <;> rfl

theorem Tree.Built.list_eq_filter (h : tree.Built archive) (hstore : archive.Agrees store)
    (hreadable : tree.Readable store) :
    ∃ ls, (tree.leaves store).run = .ok ls ∧ ls.Pairwise (·.key < ·.key) ∧
      (∀ count after before, (tree.list store count after before).run =
        .ok (Leaves.first count (Leaves.between after before ls))) ∧
      ∀ start count, (tree.listWithPrefix store start count).run =
        .ok (Leaves.first count (Leaves.startingWith start ls)) := by
  obtain ⟨ls, hls⟩ := h.holds
  have hroot : tree.root.Readable store config := by
    rw [← hls.config_eq]
    exact hreadable
  have hfrom : ∀ key, Listing (Leaves.from key ls) :=
    fun key => hls.listing.sublist Leaves.from_sublist
  refine ⟨ls, hls.leaves_run hstore hreadable, hls.listing.sorted, fun count after before =>
    ?_, fun start count => ?_⟩
  · rw [run_list, hls.leavesFrom hstore (hroot.readableFrom _)]
    dsimp only
    rw [closePage_ok, Leaves.filter_ne_eq_between (hfrom _) fun l =>
      Leaves.le_of_mem_from, Leaves.takeWhile_between (hfrom _), Leaves.between_from]
  · rw [run_listWithPrefix, hls.leavesFrom hstore (hroot.readableFrom _)]
    dsimp only
    rw [closePage_ok, Leaves.takeWhile_isPrefixOf (hfrom _) fun l =>
      Leaves.le_of_mem_from, Leaves.startingWith_from]

theorem Tree.Built.list_eq_filter_of_load :
    ((Tree.load (Sample.pointer 2) Sample.config).leaves (.snapshot Sample.shelf)).run =
      .ok [Sample.low, Sample.high] ∧
    ((Tree.load (Sample.pointer 2) Sample.config).list (.snapshot Sample.shelf) (some 1)).run =
      .ok [Sample.low] ∧
    ((Tree.load (Sample.pointer 2) Sample.config).list (.snapshot Sample.shelf) none
      (some "a/b")).run = .ok [Sample.high] ∧
    ((Tree.load (Sample.pointer 2) Sample.config).list (.snapshot Sample.shelf) none none
      (some "a/c-1")).run = .ok [Sample.low] ∧
    ((Tree.load (Sample.pointer 2) Sample.config).listWithPrefix (.snapshot Sample.shelf) "a/c"
      (some 3)).run = .ok [Sample.high] := by
  have hbuilt : (Tree.load (Sample.pointer 2) Sample.config).Built Sample.archive :=
    .load Sample.built Sample.covers Sample.save_tree
  obtain ⟨ls, hleaves, -, hlist, hstart⟩ :=
    list_eq_filter hbuilt Sample.agrees_shelf Sample.readable_shelf
  cases hleaves.symm.trans Sample.leaves_shelf
  exact ⟨Sample.leaves_shelf, hlist _ _ _, hlist _ _ _, hlist _ _ _, (hstart _ _).trans (by cbv)⟩

end MerkleSearch
