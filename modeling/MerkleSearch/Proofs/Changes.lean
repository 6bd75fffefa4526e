import MerkleSearch.Proofs.Contents
import MerkleSearch.Proofs.Table

/-!
This module contains what the difference of two trees says about their keys. Each step of the
comparison settles one key, if any, and no key is settled twice.
-/

namespace MerkleSearch

variable {config : Config} {key : String} {ls ls' : List Leaf} {l leaf : Leaf}

namespace Leaves

theorem value?_cons_of_eq (h : l.key = key) : value? key (l :: ls) = some l.value := by
  simp [value?, h]

theorem value?_cons_of_ne (h : l.key ≠ key) : value? key (l :: ls) = value? key ls := by
  simp [value?, h]

end Leaves

theorem Listing.value?_tail (h : Listing (l :: ls)) : Leaves.value? l.key ls = none := by
  rw [Leaves.value?_eq_none]
  exact fun k hk => (h.lt_of_cons hk).ne'

namespace Diff

variable {d d' : Diff} {prev value : Cid} {block : Block} {address : Cid}

structure Change where
  add : Option Cid
  update : Option ValueChange
  delete : Option Cid

def change (d : Diff) (key : String) : Change := ⟨d.adds[key]?, d.updates[key]?, d.deletes[key]?⟩

def Change.note (c : Change) : (prev curr : Option Cid) → Change
  | none, none => c
  | none, some value => { c with add := some value }
  | some value, none => { c with delete := some value }
  | some prev, some value => if prev = value then c else { c with update := some ⟨prev, value⟩ }

theorem Change.note_some_some {c : Change} :
    c.note (some prev) (some value) = if prev =
      value then c else { c with update := some ⟨prev, value⟩ } :=
  rfl

def Change.none : Change := ⟨.none, .none, .none⟩

@[simp]
theorem change_empty : ({} : Diff).change key = .none := by
  simp [change, Change.none]

namespace Change

variable {p v : Option Cid}

theorem note_none_none : Change.none.note .none v = ⟨v, .none, .none⟩ := by
  cases v <;> rfl

theorem add_note_none : (Change.none.note p v).add = some value ↔ v = some value ∧ p = .none := by
  cases p <;> cases v <;> simp [note, none, apply_ite add]

theorem delete_note_none :
    (Change.none.note p v).delete = some value ↔ p = some value ∧ v = .none := by
  cases p <;> cases v <;> simp [note, none, apply_ite delete]

theorem update_note_none {c : ValueChange} :
    (Change.none.note p v).update = some c ↔ p = some c.prev ∧ v = some c.value ∧
    c.prev ≠ c.value := by
  cases p with
  | none => cases v <;> simp [note, none]
  | some prev =>
    cases v with
    | none => simp [note, none]
    | some value =>
      rw [note_some_some]
      split
      · next heq =>
        constructor
        · exact nofun
        · rintro ⟨⟨⟩, ⟨⟩, hne⟩
          exact (hne heq).elim
      · next hne =>
        constructor
        · rintro ⟨⟩
          exact ⟨rfl, rfl, hne⟩
        · rintro ⟨⟨⟩, ⟨⟩, -⟩
          rfl

end Change

theorem Change.note_self (c : Change) (value? : Option Cid) : c.note value? value? = c := by
  cases value? with
  | none => rfl
  | some value => exact if_pos rfl

theorem change_addLeaf_self :
    (d.addLeaf leaf).change leaf.key = (d.change leaf.key).note none (some leaf.value) := by
  unfold addLeaf
  dsimp only
  split <;> simp [change, Change.note]

theorem change_addLeaf_of_ne (h : leaf.key ≠ key) : (d.addLeaf leaf).change key = d.change key := by
  unfold addLeaf
  dsimp only
  split <;> simp [change, Std.TreeMap.getElem?_insert, h]

theorem change_deleteLeaf_self :
    (d.deleteLeaf leaf).change leaf.key = (d.change leaf.key).note (some leaf.value) none := by
  unfold deleteLeaf
  dsimp only
  split <;> simp [change, Change.note]

theorem change_deleteLeaf_of_ne (h : leaf.key ≠ key) :
    (d.deleteLeaf leaf).change key = d.change key := by
  unfold deleteLeaf
  dsimp only
  split <;> simp [change, Std.TreeMap.getElem?_insert, h]

theorem change_updateLeaf_self :
    (d.updateLeaf key prev value).change key = (d.change key).note (some prev) (some value) := by
  rw [Change.note_some_some]
  unfold updateLeaf
  split
  · rfl
  · simp [change]

theorem change_updateLeaf_of_ne {other : String} (h : other ≠ key) :
    (d.updateLeaf other prev value).change key = d.change key := by
  unfold updateLeaf
  split <;> simp [change, Std.TreeMap.getElem?_insert, h]

@[simp]
theorem change_addNode : (d.addNode block).change key = d.change key := by
  unfold addNode
  split <;> rfl

@[simp]
theorem change_deleteNode : (d.deleteNode address).change key = d.change key := by
  unfold deleteNode
  split <;> rfl

theorem Compared.change_eq {ps qs : List (Entry Extent)} (h : Compared config ps qs d d')
    (hps : Listing (Extent.content ps)) (hqs : Listing (Extent.content qs)) :
    d'.change key =
      (d.change key).note (Leaves.value? key (Extent.content ps))
      (Leaves.value? key (Extent.content qs)) := by
  induction h with
  | done => rfl
  | @newLeaf l ps qs _ _ hfresh _ ih =>
    rw [Extent.content_leaf] at hqs ⊢
    rw [ih hps hqs.tail]
    -- The key is new, and no other step is about it.
    by_cases hkey : l.key = key
    · cases hkey
      rw [Leaves.value?_eq_none.2 hfresh, hqs.value?_tail, Leaves.value?_cons_of_eq rfl,
        change_addLeaf_self]
      rfl
    · rw [Leaves.value?_cons_of_ne hkey, change_addLeaf_of_ne hkey]
  | @goneLeaf l ps qs _ _ hfresh _ ih =>
    rw [Extent.content_leaf] at hps ⊢
    rw [ih hps.tail hqs]
    by_cases hkey : l.key = key
    · cases hkey
      rw [Leaves.value?_eq_none.2 hfresh, hps.value?_tail, Leaves.value?_cons_of_eq rfl,
        change_deleteLeaf_self]
      rfl
    · rw [Leaves.value?_cons_of_ne hkey, change_deleteLeaf_of_ne hkey]
  | @sameKey old new ps qs _ _ hsame _ ih =>
    rw [Extent.content_leaf] at hps hqs ⊢
    rw [Extent.content_leaf, ih hps.tail hqs.tail]
    by_cases hkey : old.key = key
    · cases hkey
      have hnone := hqs.value?_tail
      rw [← hsame] at hnone
      rw [hps.value?_tail, hnone, Leaves.value?_cons_of_eq rfl, Leaves.value?_cons_of_eq hsame.symm,
        change_updateLeaf_self]
      rfl
    · rw [Leaves.value?_cons_of_ne hkey, Leaves.value?_cons_of_ne (hsame ▸ hkey),
        change_updateLeaf_of_ne hkey]
  | newNode _ _ ih =>
    rw [Extent.content_enter] at ih
    rw [ih hps hqs, change_addNode]
  | goneNode _ _ ih =>
    rw [Extent.content_enter] at ih
    rw [ih hps hqs, change_deleteNode]
  | @skip e ps qs _ _ _ ih =>
    rw [Extent.content_tree] at hps hqs ⊢
    rw [Extent.content_tree, ih hps.right hqs.right]
    -- A key inside has the same value in both trees and comes up nowhere else.
    by_cases hmem : ∃ l ∈ e.leaves, l.key = key
    · obtain ⟨l, hl, rfl⟩ := hmem
      have hp : ∀ k ∈ Extent.content ps, k.key ≠ l.key := fun k hk => (hps.lt_of_append hl hk).ne'
      have hq : ∀ k ∈ Extent.content qs, k.key ≠ l.key := fun k hk => (hqs.lt_of_append hl hk).ne'
      rw [Leaves.value?_append_of_ne_right hp, Leaves.value?_append_of_ne_right hq,
        Change.note_self, Leaves.value?_eq_none.2 hp, Leaves.value?_eq_none.2 hq, Change.note_self]
    · have hnot : ∀ l ∈ e.leaves, l.key ≠ key := fun l hl heq => hmem ⟨l, hl, heq⟩
      rw [Leaves.value?_append_of_ne_left hnot, Leaves.value?_append_of_ne_left hnot]

end Diff

theorem isEmpty_of_getElem?_eq_none {β : Type} {t : Std.TreeMap String β}
    (h : ∀ key : String, t[key]? = none) :
    t.isEmpty := by
  rw [Std.TreeMap.isEmpty_iff_forall_not_mem]
  intro key hmem
  rw [Std.TreeMap.mem_iff_isSome_getElem?, h] at hmem
  cases hmem

namespace Tree

variable {archive : Archive config} {store : Blockstore Id} {tree curr : Tree}

theorem Built.diff_changes (hcurr : curr.Built archive) (hstore : archive.Agrees store)
    (hcovers : archive.Covers curr) (hreadable : curr.Readable store) :
    (∀ prev prevStore, prev.Built archive → archive.Agrees prevStore → archive.Covers prev →
      prev.Readable prevStore → ∃ d, (curr.diff store prev prevStore).run = .ok d ∧
        (∀ key value, d.adds[key]? = some value ↔
          (curr.get? store key).run = .ok (some value) ∧ (prev.get? prevStore key).run = .ok none) ∧
        (∀ key value, d.deletes[key]? = some value ↔
          (prev.get? prevStore key).run = .ok (some value) ∧ (curr.get? store key).run = .ok none) ∧
        ∀ key change, d.updates[key]? = some change ↔
          (prev.get? prevStore key).run = .ok (some change.prev) ∧
          (curr.get? store key).run = .ok (some change.value) ∧ change.prev ≠ change.value) ∧
    ∃ d, (curr.contents store).run = .ok d ∧
      (∀ key value, d.adds[key]? = some value ↔ (curr.get? store key).run = .ok (some value)) ∧
      d.updates.isEmpty ∧ d.deletes.isEmpty := by
  obtain ⟨layer, ls, hls⟩ := hcurr.exists_spans hstore hcovers hreadable
  constructor
  · intro prev prevStore hprev hprevStore hprevCovers hprevReadable
    obtain ⟨layer', ls', hls'⟩ := hprev.exists_spans hprevStore hprevCovers hprevReadable
    obtain ⟨d, hrun, hcompared⟩ := hls.diff hls'
    have hchange : ∀ key,
        d.change key = Diff.Change.none.note (Leaves.value? key ls') (Leaves.value? key ls) := by
      intro key
      rw [hcompared.change_eq hls'.listing_content hls.listing_content, Diff.change_empty]
      simp
    refine ⟨d, hrun, ?_, ?_, ?_⟩
    · intro key value
      rw [hls.get?_run, hls'.get?_run, Except.ok.injEq, Except.ok.injEq,
        ← Diff.Change.add_note_none, ← hchange]
      rfl
    · intro key value
      rw [hls.get?_run, hls'.get?_run, Except.ok.injEq, Except.ok.injEq,
        ← Diff.Change.delete_note_none, ← hchange]
      rfl
    · intro key change
      rw [hls.get?_run, hls'.get?_run, Except.ok.injEq, Except.ok.injEq,
        ← Diff.Change.update_note_none, ← hchange]
      rfl
  · obtain ⟨d, hrun, hcompared⟩ := hls.contents
    have hchange : ∀ key, d.change key = ⟨Leaves.value? key ls, none, none⟩ := by
      intro key
      rw [hcompared.change_eq .nil hls.listing_content, Diff.change_empty,
        ← Diff.Change.note_none_none]
      simp [Leaves.value?]
    refine ⟨d, hrun, ?_, ?_, ?_⟩
    · intro key value
      have hadd : d.adds[key]? = Leaves.value? key ls := congrArg Diff.Change.add (hchange key)
      rw [hls.get?_run, Except.ok.injEq, hadd]
    · exact isEmpty_of_getElem?_eq_none fun key => congrArg Diff.Change.update (hchange key)
    · exact isEmpty_of_getElem?_eq_none fun key => congrArg Diff.Change.delete (hchange key)

theorem Built.diff_changes_of_revised :
    let store := Blockstore.snapshot Sample.shelf
    let stored := Tree.load (Sample.pointer 2) Sample.config
    (∃ d, (Sample.revised.diff store stored store).run = .ok d ∧
      d.updates[Sample.high.key]? = some ⟨Sample.high.value, Sample.newer.value⟩ ∧
      d.adds[Sample.last.key]? = some Sample.last.value ∧ d.updates[Sample.low.key]? = none) ∧
    (∃ d, (stored.diff store Sample.revised store).run = .ok d ∧
      d.deletes[Sample.last.key]? = some Sample.last.value) ∧
    ∃ d, (Sample.revised.contents store).run = .ok d ∧
      d.adds[Sample.low.key]? = some Sample.low.value ∧ d.updates.isEmpty := by
  intro store stored
  obtain ⟨_, hn⟩ := Sample.exists_resolve_high_shelf
  have hhigh : (stored.get? store Sample.high.key).run = .ok (some Sample.high.value) :=
    Sample.get?_high_load (Blockstore.run_get?_snapshot_eq Sample.get?_shelf.1)
  have hlow : (stored.get? store Sample.low.key).run = .ok (some Sample.low.value) :=
    Sample.get?_low_shelf hn (by cbv) rfl
  have hnewer : (Sample.revised.get? store Sample.high.key).run =
      .ok (some Sample.newer.value) := by
    cbv
  have hlow' : (Sample.revised.get? store Sample.low.key).run = .ok (some Sample.low.value) :=
    Sample.get?_low_shelf (n := ⟨Sample.revisedNode, Subtree.covers_resolved _⟩) rfl (by cbv) rfl
  have hlast' : (Sample.revised.get? store Sample.last.key).run = .ok (some Sample.last.value) := by
    cbv
  obtain ⟨hdiff, dc, hcontents, hall, hnone, -⟩ := Built.diff_changes Sample.built_revised
    Sample.agrees_shelf Sample.covers_revised Sample.readable_revised
  obtain ⟨d, hd, hadds, -, hupdates⟩ :=
    hdiff _ _ Sample.built_load Sample.agrees_shelf Sample.covers_load Sample.readable_shelf
  obtain ⟨hdiff', -⟩ := Built.diff_changes Sample.built_load Sample.agrees_shelf
    Sample.covers_load Sample.readable_shelf
  obtain ⟨d', hd', -, hdeletes, -⟩ :=
    hdiff' _ _ Sample.built_revised Sample.agrees_shelf Sample.covers_revised
      Sample.readable_revised
  refine ⟨⟨d, hd, ?_, ?_, ?_⟩, ⟨d', hd', ?_⟩, dc, hcontents, ?_, hnone⟩
  · exact (hupdates _ _).2 ⟨hhigh, hnewer, by decide⟩
  · exact (hadds _ _).2 ⟨hlast', Sample.get?_last_load⟩
  · rw [Option.eq_none_iff_forall_ne_some]
    intro change hchange
    obtain ⟨hprev, hvalue, hne⟩ := (hupdates _ _).1 hchange
    rw [hlow, Except.ok.injEq, Option.some.injEq] at hprev
    rw [hlow', Except.ok.injEq, Option.some.injEq] at hvalue
    exact hne (hprev.symm.trans hvalue)
  · exact (hdeletes _ _).2 ⟨hlast', Sample.get?_last_load⟩
  · exact (hall _ _).2 hlow'

end Tree

end MerkleSearch
