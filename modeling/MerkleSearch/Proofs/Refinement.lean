import Mathlib.Logic.Function.Basic
import MerkleSearch.Proofs.Key
import MerkleSearch.Proofs.Table
import MerkleSearch.Proofs.Visits

/-!
This module contains trees as maps from keys to values. Along with a tree a map is made by the same
edits, and what is read of the tree is what the map says; an edit is refused if and only if the map
gives a reason for it.
-/

namespace MerkleSearch

abbrev KeyMap := String → Option Cid

namespace Edit

def map : Edit → KeyMap → KeyMap
  | .add key value, m => Function.update m key (some value)
  | .update key value, m => Function.update m key (some value)
  | .delete key, m => Function.update m key none

def unlisted? (key : String) (m : KeyMap) : Option Error :=
  if !Key.isValid key then some (.invalidKey key)
  else if (m key).isNone then some (.keyNotFound key)
  else none

def refusal? : Edit → KeyMap → Option Error
  | .add key _, m =>
    if !Key.isValid key then some (.invalidKey key)
    else if (m key).isSome then some (.keyExists key)
    else none
  | .update key _, m => unlisted? key m
  | .delete key, m => unlisted? key m

end Edit

variable {config : Config} {archive : Archive config} {store : Blockstore Id} {tree tree' : Tree}
variable {m : KeyMap} {ls : List Leaf} {leaf : Leaf} {key : String} {edit : Edit}

namespace Tree

/--
A tree that has been edited and saved any number of times, and the map that the same edits have
made.
-/
inductive Tracks (archive : Archive config) : Tree → KeyMap → Prop
  | empty : Tracks archive (.empty config) fun _ => none
  | edit {tree tree' : Tree} {m : KeyMap} {store : Blockstore Id} (edit : Edit)
    (h : Tracks archive tree m) (hstore : archive.Agrees store)
    (hrun : (edit.apply tree store).run = .ok tree') : Tracks archive tree' (edit.map m)
  | addressed {tree : Tree} {m : KeyMap} (h : Tracks archive tree m)
    (hcovers : archive.Covers tree) : Tracks archive tree.addressed m
  | load {tree : Tree} {m : KeyMap} {store : Blockstore Id} {address : Cid}
    (h : Tracks archive tree m) (hcovers : archive.Covers tree)
    (hsave : (tree.save store).run = .ok address) : Tracks archive (.load address config) m

/--
What is read of the tree is the map. Its leaves come in the order of the bytes of their keys.
-/
structure Means (store : Blockstore Id) (tree : Tree) (m : KeyMap) : Prop where
  get? : ∀ key, (tree.get? store key).run = .ok (m key)
  leaves : ∃ ls, (tree.leaves store).run = .ok ls ∧
    ls.Pairwise (fun a b => Bytes.ofText a.key < Bytes.ofText b.key) ∧
    ∀ key value, ⟨key, value⟩ ∈ ls ↔ m key = some value

end Tree

namespace Listing

theorem value?_insert (h : Listing ls) (h' : Listing (Leaves.insert leaf ls)) :
    (Leaves.value? · (Leaves.insert leaf ls)) =
      Function.update (Leaves.value? · ls) leaf.key (some leaf.value) := by
  funext key
  apply Option.ext
  intro value
  rw [h'.value?_eq_some, Leaves.mem_insert]
  by_cases hkey : key = leaf.key
  · cases hkey
    rw [Function.update_self, Option.some.injEq]
    constructor
    · rintro (heq | ⟨-, hne⟩)
      · rw [← heq]
      · exact absurd rfl hne
    · rintro rfl
      exact .inl rfl
  · rw [Function.update_of_ne hkey, h.value?_eq_some]
    constructor
    · rintro (rfl | ⟨hmem, -⟩)
      · exact absurd rfl hkey
      · exact hmem
    · exact fun hmem => .inr ⟨hmem, hkey⟩

theorem value?_erase (h : Listing ls) :
    (Leaves.value? · (Leaves.erase key ls)) = Function.update (Leaves.value? · ls) key none := by
  funext k
  apply Option.ext
  intro value
  rw [h.erase.value?_eq_some, Leaves.mem_erase]
  by_cases hkey : k = key
  · cases hkey
    simp
  · rw [Function.update_of_ne hkey, h.value?_eq_some]
    exact and_iff_left hkey

end Listing

theorem Edit.value?_leaves (h : Listing ls) (h' : Listing (edit.leaves ls)) :
    (Leaves.value? · (edit.leaves ls)) = edit.map (Leaves.value? · ls) := by
  cases edit with
  | add | update => exact h.value?_insert h'
  | delete => exact h.value?_erase

namespace Edit

theorem unlisted?_of_mem (h : Listing ls) (hmem : ∃ l ∈ ls, l.key = key) :
    unlisted? key (Leaves.value? · ls) = none := by
  obtain ⟨⟨_, value⟩, hl, rfl⟩ := hmem
  have hvalid := h.valid _ hl
  have hvalue := h.value?_eq_some.2 hl
  dsimp only at hvalid
  simp [unlisted?, hvalid, hvalue]

theorem unlisted?_eq_some {e : Error}
    (he : e = .invalidKey key ∧ ¬Key.isValid key ∨ e = .keyNotFound key ∧ Key.isValid key ∧
      ∀ l ∈ ls, l.key ≠ key) :
    unlisted? key (Leaves.value? · ls) = some e := by
  unfold unlisted?
  rcases he with ⟨rfl, hinvalid⟩ | ⟨rfl, hvalid, hne⟩
  · simp [hinvalid]
  · simp [hvalid, Leaves.value?_eq_none.2 hne]

theorem refusal?_add_eq_none {value : Cid} (h : Listing (Leaves.insert ⟨key, value⟩ ls))
    (hne : ∀ l ∈ ls, l.key ≠ key) : refusal? (.add key value) (Leaves.value? · ls) = none := by
  have hvalid : Key.isValid key := h.valid _ (Leaves.mem_insert.2 (.inl rfl))
  simp [refusal?, hvalid, Leaves.value?_eq_none.2 hne]

theorem refusal?_add_eq_some {value : Cid} {e : Error} (h : Listing ls)
    (he : e = .invalidKey key ∧ ¬Key.isValid key ∨ e = .keyExists key ∧ ∃ l ∈ ls, l.key = key) :
    refusal? (.add key value) (Leaves.value? · ls) = some e := by
  rcases he with ⟨rfl, hinvalid⟩ | ⟨rfl, ⟨_, known⟩, hl, rfl⟩
  · simp [refusal?, hinvalid]
  · have hvalid := h.valid _ hl
    have hvalue := h.value?_eq_some.2 hl
    dsimp only at hvalid
    simp [refusal?, hvalid, hvalue]

end Edit

namespace Tree.Holds

theorem apply (h : tree.Holds archive ls) (hstore : archive.Agrees store) :
    Settles (tree.Readable store) (edit.apply tree store) (fun tree' =>
      edit.refusal? (Leaves.value? · ls) = none ∧ tree'.Holds archive (edit.leaves ls) ∧
        (tree.Readable store → tree'.Readable store)) (fun e =>
          edit.refusal? (Leaves.value? · ls) = some e) := by
  cases edit with
  | add key value =>
    apply (h.add hstore).imp id
    · exact fun tree' ⟨htree', hne, hreadable⟩ =>
        ⟨Edit.refusal?_add_eq_none htree'.listing hne, htree', hreadable⟩
    · exact fun e => Edit.refusal?_add_eq_some h.listing
  | update key value =>
    apply (h.update hstore).imp id
    · exact fun tree' ⟨htree', hmem, hreadable⟩ =>
        ⟨Edit.unlisted?_of_mem h.listing hmem, htree', hreadable⟩
    · exact fun e => Edit.unlisted?_eq_some
  | delete key =>
    apply (h.delete hstore).imp id
    · exact fun tree' ⟨htree', hmem, hreadable⟩ =>
        ⟨Edit.unlisted?_of_mem h.listing hmem, htree', hreadable⟩
    · exact fun e => Edit.unlisted?_eq_some

theorem means (h : tree.Holds archive ls) (hstore : archive.Agrees store)
    (hreadable : tree.Readable store) :
    tree.Means store (Leaves.value? · ls) := by
  constructor
  · intro key
    obtain ⟨_, hrun, rfl⟩ := (h.get? hstore).exists_ok hreadable
    exact hrun
  · refine ⟨ls, h.leaves_run hstore hreadable, ?_, fun key value => h.listing.value?_eq_some.symm⟩
    exact h.listing.sorted.imp Bytes.ofText_lt_ofText_iff.2

end Tree.Holds

namespace Tree

theorem Tracks.exists_holds (h : tree.Tracks archive m) :
    ∃ ls, tree.Holds archive ls ∧ m = (Leaves.value? · ls) := by
  induction h with
  | empty => exact ⟨[], .empty, rfl⟩
  | edit edit _ hstore hrun ih =>
    obtain ⟨ls, hls, rfl⟩ := ih
    have hholds := hls.edit hstore hrun
    exact ⟨edit.leaves ls, hholds, (Edit.value?_leaves hls.listing hholds.listing).symm⟩
  | addressed _ hcovers ih =>
    obtain ⟨ls, hls, hm⟩ := ih
    exact ⟨ls, hls.addressed hcovers, hm⟩
  | load _ hcovers hsave ih =>
    obtain ⟨ls, hls, hm⟩ := ih
    exact ⟨ls, hls.load hcovers (address_of_save hsave), hm⟩

theorem Tracks.refines (h : tree.Tracks archive m) (hstore : archive.Agrees store)
    (hreadable : tree.Readable store) :
    tree.Means store m ∧ (∀ key, !Key.isValid key → m key = none) ∧ ∀ edit : Edit,
      match edit.refusal? m with
      | some e => (edit.apply tree store).run = .error e
      | none => ∃ tree', (edit.apply tree store).run = .ok tree' ∧ tree'.Means store (edit.map m) ∧
        tree'.Readable store := by
  obtain ⟨ls, hls, rfl⟩ := h.exists_holds
  refine ⟨hls.means hstore hreadable, ?_, ?_⟩
  · intro key hinvalid
    rw [Leaves.value?_eq_none]
    rintro l hl rfl
    simp [hls.listing.valid l hl] at hinvalid
  · intro edit
    cases hrun : (edit.apply tree store).run with
    | error e => rw [(hls.apply hstore).of_error hreadable hrun]
    | ok tree' =>
      obtain ⟨hnone, htree', hreadable'⟩ := (hls.apply hstore).of_ok hrun
      rw [hnone, ← Edit.value?_leaves hls.listing htree'.listing]
      exact ⟨tree', rfl, htree'.means hstore (hreadable' hreadable), hreadable' hreadable⟩

theorem Tracks.refines_of_load :
    ∃ tree',
      ((Tree.load (Sample.pointer 2) Sample.config).delete (.snapshot Sample.shelf)
        Sample.low.key).run = .ok tree' ∧
      (tree'.get? (.snapshot Sample.shelf) Sample.low.key).run = .ok none ∧
      (tree'.get? (.snapshot Sample.shelf) Sample.high.key).run = .ok (some Sample.high.value) ∧
      ((Tree.load (Sample.pointer 2) Sample.config).add (.snapshot Sample.shelf) Sample.low.key
        Sample.high.value).run = .error (.keyExists Sample.low.key) := by
  have htracks : Sample.tree.Tracks Sample.archive _ :=
    .edit (.add Sample.high.key Sample.high.value)
      (.edit (.add Sample.low.key Sample.low.value) .empty Sample.archive.agrees_empty
        Sample.add_low)
      Sample.archive.agrees_empty Sample.add_high
  have hloaded := htracks.load Sample.covers Sample.save_tree
  have hreadable := Sample.readable_load (Blockstore.run_get?_snapshot_eq Sample.get?_shelf.1)
    (Blockstore.run_get?_snapshot_eq Sample.get?_shelf.2)
  obtain ⟨-, -, hedits⟩ := Tracks.refines hloaded Sample.agrees_shelf hreadable
  have hadd := hedits (.add Sample.low.key Sample.high.value)
  obtain ⟨tree', hdelete, hmeans, -⟩ := hedits (.delete Sample.low.key)
  refine ⟨tree', hdelete, ?_, ?_, hadd⟩
  · exact hmeans.get? Sample.low.key
  · exact hmeans.get? Sample.high.key

end Tree

end MerkleSearch
