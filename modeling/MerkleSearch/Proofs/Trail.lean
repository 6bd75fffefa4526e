import MerkleSearch.Cursor
import MerkleSearch.Proofs.Reach

/-!
This module contains what a cursor has still to go through, as it is seen from outside, and what its
moves do to that: a step over an entry drops it, and a step into a subtree puts the entries of its
node in its place.
-/

namespace MerkleSearch

variable {config : Config} {archive : Archive config} {store : Blockstore Id} {layer : Nat}
variable {ls : List Leaf} {f : Frame} {frames outer : List Frame} {us vs : List (Entry Extent)}
variable {u : Entry Extent} {e : Extent} {t : Subtree}

structure Subtree.Spans (archive : Archive config) (store : Blockstore Id) (layer : Nat)
    (t : Subtree) (e : Extent) : Prop where
  height_eq : e.height = layer
  holds : t.Holds archive layer e.leaves
  readable : t.Readable store config
  has : archive.Has layer e.leaves

theorem NodeOf.Holds.spans {node : Node}
    (h : node.Holds archive (Subtree.Holds archive layer) layer ls)
    (hreadable : ∀ c, .tree c ∈ node.entries → c.Readable store config)
    (hhas : archive.Has (layer + 1) ls) :
    List.Forall₂ (Entry.Rel (Subtree.Spans archive store layer)) node.entries
      (Extent.entries config ⟨layer + 1, ls⟩) :=
  h.forall₂_entries fun c ts hholds hc hts => ⟨rfl, hholds, hreadable c hc, hhas.2 ts hts⟩

theorem Archive.Has.leaves_ne_nil (h : archive.Has (layer + 1) ls)
    (he : .tree e ∈ Extent.entries config ⟨layer + 1, ls⟩) : e.leaves ≠ [] := by
  obtain ⟨_, rfl, hne, -⟩ :=
    (Leaves.spells_groups h.layer_le).of_tree_mem (Extent.mem_entries_iff.1 he).2
  exact hne

namespace Cursor

inductive Rests (archive : Archive config)
    (store : Blockstore Id) : List Frame → List (Entry Extent) → Prop
  | nil : Rests archive store [] []
  | cons {f : Frame} {outer : List Frame} {us vs : List (Entry Extent)}
    (hrest : List.Forall₂ (Entry.Rel (Subtree.Spans archive store f.layer)) f.rest us)
    (hne : ∀ e, .tree e ∈ us → e.leaves ≠ []) (houter : Rests archive store outer vs) :
    Rests archive store (f :: outer) (us ++ vs)

/--
Only the root of a tree may be without leaves.
-/
inductive Trail (archive : Archive config)
    (store : Blockstore Id) : List Frame → List (Entry Extent) → Prop
  | done : Trail archive store [] []
  | on {f : Frame} {outer : List Frame} {u : Entry Extent} {vs : List (Entry Extent)}
    (hcurrent : Entry.Rel (Subtree.Spans archive store f.layer) f.current u)
    (hempty : ∀ e, u = .tree e → e.leaves = [] → outer = [])
    (hrests : Rests archive store (f :: outer) vs) : Trail archive store (f :: outer) (u :: vs)

theorem Rests.stepOver (h : Rests archive store frames vs) :
    Trail archive store (Cursor.stepOver.go frames) vs := by
  induction h with
  | nil => exact .done
  | @cons f outer us vs hrest hne houter ih =>
    obtain ⟨current, rest, index, layer⟩ := f
    cases hrest with
    | nil => exact ih
    | cons hcurrent hrest =>
      rw [List.cons_append]
      apply Trail.on hcurrent
      · rintro e rfl hnil
        exact (hne e List.mem_cons_self hnil).elim
      · exact .cons hrest (fun e he => hne e (List.mem_cons_of_mem _ he)) houter

theorem Trail.rests (h : Trail archive store (f :: outer) (u :: vs)) :
    Rests archive store (f :: outer) vs := by
  cases h with
  | on _ _ hrests => exact hrests

theorem Trail.current (h : Trail archive store (f :: outer) (u :: vs)) :
    Entry.Rel (Subtree.Spans archive store f.layer) f.current u := by
  cases h with
  | on hcurrent _ _ => exact hcurrent

theorem Trail.height_pos (h : Trail archive store (f :: outer) (.tree e :: vs)) : 0 < e.height := by
  obtain ⟨current, rest, index, height⟩ := f
  cases h.current with
  | tree hspans =>
    rw [hspans.height_eq]
    exact hspans.has.height_pos

theorem Trail.stepOver (h : Trail archive store (f :: outer) (u :: vs)) :
    Trail archive store (Cursor.stepOver ⟨f :: outer⟩).frames vs :=
  h.rests.stepOver

theorem Trail.enter (h : Trail archive store (f :: outer) (.tree e :: vs))
    (hcurrent : f.current = .tree t) {n : { node : Node // t.Covers node }}
    (hn : (t.resolve store config).run = .ok n) (hls : Listing e.leaves)
    (hstore : archive.Agrees store) :
    ∃ c, Cursor.enter f outer n.val = .ok c ∧
      Trail archive store c.frames (e.entries config ++ vs) := by
  obtain ⟨current, rest, index, layer⟩ := f
  cases hcurrent
  cases h with
  | on hcurrent hempty hrests =>
    cases hcurrent with
    | tree hspans =>
      obtain ⟨height, ls⟩ := e
      obtain ⟨rfl, hholds, hreadable, hhas⟩ := hspans
      dsimp only at hholds hreadable hhas hls hempty ⊢
      cases height with
      | zero => exact hholds.elim
      | succ layer =>
        have hnode := hholds.of_resolve hls hstore hn
        have hspans := hnode.spans (fun c => hreadable.child hn) hhas
        have hne : ∀ e, .tree e ∈ Extent.entries config ⟨layer + 1, ls⟩ → e.leaves ≠ [] :=
          fun _ => hhas.leaves_ne_nil
        generalize Extent.entries config ⟨layer + 1, ls⟩ = ws at hspans hne ⊢
        unfold Cursor.enter
        rw [if_neg (Nat.succ_ne_zero layer)]
        split
        · next first others heq =>
          rw [heq] at hspans
          cases hspans with
          | cons hfirst hothers =>
            refine ⟨_, rfl, .on hfirst ?_ ?_⟩
            · rintro e rfl hnil
              exact (hne e List.mem_cons_self hnil).elim
            · exact .cons hothers (fun e he => hne e (List.mem_cons_of_mem _ he)) hrests
        · next heq =>
          rw [heq] at hspans
          cases hspans
          exact ⟨_, rfl, hrests.stepOver⟩
        -- No node but the root is empty.
        · next heq =>
          have hnil := hnode.spells
          rw [heq] at hnil
          cases hempty _ rfl hnil.of_nil

theorem Trail.layer_eq (h : Trail archive store (f :: outer) (.tree e :: vs)) :
    f.layer = e.height := by
  obtain ⟨current, rest, index, layer⟩ := f
  cases h.current with
  | tree hspans => exact hspans.height_eq.symm

theorem Trail.tree (h : Trail archive store (f :: outer) (.tree e :: vs))
    (hcurrent : f.current = .tree t) :
    Subtree.Spans archive store e.height t e := by
  have hrel := h.current
  rw [hcurrent, h.layer_eq] at hrel
  cases hrel with
  | tree hspans => exact hspans

end Cursor

theorem Subtree.Spans.exists_block (h : t.Spans archive store layer e) (hls : Listing e.leaves)
    (hstore : archive.Agrees store) :
    ∃ n block, (t.resolve store config).run = .ok n ∧
      canonicalBlock config (layer - 1) e.leaves = .ok block ∧
      archive.blocks block.bytes ∧ n.val.block config = .ok block ∧
      t.address config = .ok block.address := by
  obtain ⟨height, ls⟩ := e
  obtain ⟨rfl, hholds, hreadable, hhas⟩ := h
  dsimp only at hholds hreadable hhas hls ⊢
  cases height with
  | zero => exact hholds.elim
  | succ layer =>
    obtain ⟨n, hn, -⟩ := (hholds.resolve hls hstore).exists_ok hreadable
    obtain ⟨⟨block, hblock, hmem⟩, -⟩ := hhas
    have hnode := hholds.of_resolve hls hstore hn
    refine ⟨n, block, hn, hblock, hmem, ?_, ?_⟩
    · rw [hnode.block_eq_canonical, hblock]
    · rw [hholds.address_eq, address_canonical, hblock]
      rfl

end MerkleSearch
