import MerkleSearch.Proofs.Address
import MerkleSearch.Proofs.Table

/-!
This module contains the fact that a tree does not depend on its history. Edits of the empty tree
lead to the canonical tree of the map that they leave behind, so two trees with the same map are the
same.
-/

namespace MerkleSearch

variable {config : Config} {layer layer' height : Nat} {ls : List Leaf} {store : Blockstore Id}
variable {key : String}

inductive Tree.Edited (config : Config) : Tree → Prop
  | empty : Edited config (.empty config)
  | edit {tree tree' : Tree} {store : Blockstore Id} (edit : Edit) (h : Edited config tree)
    (hrun : (edit.apply tree store).run = .ok tree') : Edited config tree'

def Archive.none (config : Config) : Archive config where
  blocks _ := False
  decode _ _ := False.elim
  injective _ _ := False.elim

theorem Archive.not_has_none : ¬(Archive.none config).Has height ls := by
  cases height with
  | zero => exact id
  | succ layer =>
    rintro ⟨⟨_, _, hmem⟩, _⟩
    exact hmem

theorem Tops.unique (h : Tops config layer ls) (h' : Tops config layer' ls)
    (hle : ∀ l ∈ ls, config.layerOf l.key ≤ layer)
    (hle' : ∀ l ∈ ls, config.layerOf l.key ≤ layer') :
    layer = layer' := by
  rcases h with ⟨rfl, rfl⟩ | ⟨l, hl, hlayer⟩
  · rcases h' with ⟨-, rfl⟩ | ⟨_, hl, -⟩
    · rfl
    · cases hl
  · rcases h' with ⟨rfl, -⟩ | ⟨l', hl', hlayer'⟩
    · cases hl
    · have := hle l' hl'
      have := hle' l hl
      omega

theorem canonical_readable : (canonical config height ls).Readable store config := by
  induction height generalizing ls with
  | zero => exact Subtree.readable_resolved Subtree.allReadable_nil
  | succ layer ih =>
    apply Subtree.readable_resolved
    intro c hc
    obtain ⟨_ | _, _, heq⟩ := List.mem_map.1 hc <;> cases heq
    exact ih

theorem Subtree.Holds.eq_canonical {t : Subtree} (h : t.Holds (Archive.none config) height ls) :
    t = canonical config height ls := by
  induction height generalizing t ls with
  | zero => exact h.elim
  | succ layer ih =>
    match t, h with
    | .unresolved _ _, h => exact (Archive.not_has_none h.2.1).elim
    | .resolved ⟨es, layer?, address, serial⟩, h =>
      obtain ⟨hlayer, haddress, hserial, hapart, hspells⟩ := h
      have hlayer : layer? = some layer :=
        hlayer.resolve_right fun hnone => Archive.not_has_none hnone.2.2
      have haddress : address = none := by
        rw [Option.eq_none_iff_forall_ne_some]
        rintro known rfl
        exact Archive.not_has_none (haddress known rfl).2
      have hserial : serial = none := hserial
      have hentries : es =
          (Leaves.groups config layer ls).map (Entry.map (canonical config layer)) := by
        have heq := Entry.map_eq_of_forall₂ (f := id) (hspells.groups hapart) fun _ _ => ih
        rwa [Entry.map_id, List.map_id] at heq
      rw [hlayer, haddress, hserial, hentries]
      rfl

theorem canonical_holds {archive : Archive config} (hheight : 0 < height)
    (hlow : ∀ l ∈ ls, config.layerOf l.key < height) :
    (canonical config height ls).Holds archive height ls := by
  induction height generalizing ls with
  | zero => exact absurd hheight (Nat.lt_irrefl 0)
  | succ layer ih =>
    apply NodeOf.Holds.of_spells ((Entry.isChain_apart_map _).2 Leaves.groups_apart)
    have hspells := Leaves.spells_groups fun l hl => Nat.le_of_lt_succ (hlow l hl)
    have hentries :
        ((Leaves.groups config layer ls).map (Entry.map (canonical config layer))).map
          (Entry.map id) =
          (Leaves.groups config layer ls).map (Entry.map (canonical config layer)) := by
      rw [Entry.map_id, List.map_id]
    apply hspells.of_forall₂ (Entry.forall₂_of_map_eq hentries fun t ts heq _ _ => heq)
    rintro t ts _ rfl rfl hne hlow
    obtain ⟨l, hl⟩ := List.exists_mem_of_ne_nil ts hne
    exact ih (Nat.zero_lt_of_lt (hlow l hl)) hlow

namespace Tree.Edited

variable {tree tree₁ tree₂ : Tree} {store₁ store₂ : Blockstore Id}

theorem holds (h : tree.Edited config) : ∃ ls, tree.Holds (.none config) ls := by
  induction h with
  | empty => exact ⟨[], .empty⟩
  | edit edit _ hrun ih =>
    obtain ⟨ls, hls⟩ := ih
    exact ⟨edit.leaves ls, hls.edit (fun _ _ _ _ => False.elim) hrun⟩

theorem eq_canonical (h : tree.Holds (.none config) ls) :
    ∃ layer, Tops config layer ls ∧ (∀ l ∈ ls, config.layerOf l.key ≤ layer) ∧
      tree = ⟨canonical config (layer + 1) ls, config⟩ := by
  obtain ⟨layer, htops, hroot⟩ := h.root
  refine ⟨layer, htops, hroot.layer_le, ?_⟩
  rw [← hroot.eq_canonical, ← h.config_eq]

theorem get?_run (h : tree.Holds (.none config) ls) :
    (tree.get? store key).run = .ok (Leaves.value? key ls) := by
  obtain ⟨layer, _, _, rfl⟩ := eq_canonical h
  obtain ⟨_, hrun, rfl⟩ := (h.get? fun _ _ _ _ => False.elim).exists_ok canonical_readable
  exact hrun

theorem has {archive : Archive config} (h : tree.Holds (.none config) ls)
    (hcovers : archive.Covers tree) :
    ∃ layer, archive.Has (layer + 1) ls ∧ tree.address =
      (canonical config (layer + 1) ls).address config := by
  obtain ⟨layer, -, hle, rfl⟩ := eq_canonical h
  have hholds : (canonical config (layer + 1) ls).Holds archive (layer + 1) ls :=
    canonical_holds (Nat.succ_pos layer) fun l hl => Nat.lt_succ_of_le (hle l hl)
  exact ⟨layer, hholds.has h.listing hcovers, rfl⟩

theorem history_independent (h₁ : tree₁.Edited config) (h₂ : tree₂.Edited config) :
    ((∀ key, (tree₁.get? store₁ key).run = (tree₂.get? store₂ key).run) →
      tree₁.root = tree₂.root ∧ tree₁.address = tree₂.address) ∧
    ∀ archive : Archive config, archive.Covers tree₁ → archive.Covers tree₂ →
      tree₁.address = tree₂.address →
      ∀ key, (tree₁.get? store₁ key).run = (tree₂.get? store₂ key).run := by
  obtain ⟨ls₁, hls₁⟩ := h₁.holds
  obtain ⟨ls₂, hls₂⟩ := h₂.holds
  obtain ⟨layer₁, htops₁, hle₁, heq₁⟩ := eq_canonical hls₁
  obtain ⟨layer₂, htops₂, hle₂, heq₂⟩ := eq_canonical hls₂
  constructor
  · intro hmap
    have hls : ls₁ = ls₂ := by
      apply hls₁.listing.ext hls₂.listing
      intro key
      have hkey := hmap key
      rw [get?_run hls₁, get?_run hls₂, Except.ok.injEq] at hkey
      exact hkey
    cases hls
    cases htops₁.unique htops₂ hle₁ hle₂
    rw [heq₁, heq₂]
    exact ⟨rfl, rfl⟩
  · intro archive hcovers₁ hcovers₂ haddress key
    obtain ⟨layer₁, hhas₁, haddress₁⟩ := has hls₁ hcovers₁
    obtain ⟨layer₂, hhas₂, haddress₂⟩ := has hls₂ hcovers₂
    rw [haddress₁, haddress₂] at haddress
    obtain ⟨rfl, -⟩ := hhas₁.eq_of_address_eq hhas₂ hls₁.listing hls₂.listing haddress
    rw [get?_run hls₁, get?_run hls₂]

theorem history_independent_of_order :
    ∃ t t' one other : Tree,
      ((Tree.empty Sample.config).add Blockstore.empty Sample.low.key Sample.low.value).run =
        .ok t ∧
      (t.add Blockstore.empty Sample.high.key Sample.high.value).run = .ok one ∧
      ((Tree.empty Sample.config).add Blockstore.empty Sample.high.key Sample.high.value).run =
        .ok t' ∧
      (t'.add Blockstore.empty Sample.low.key Sample.low.value).run = .ok other ∧
      one.root = other.root ∧ one.address = other.address ∧
      ∀ key, (one.get? Blockstore.empty key).run = (other.get? Blockstore.empty key).run := by
  have h₁ : Sample.tree.Edited Sample.config :=
    .edit (.add Sample.high.key Sample.high.value)
      (.edit (.add Sample.low.key Sample.low.value) .empty Sample.add_low) Sample.add_high
  have h₂ : Sample.tree.Edited Sample.config :=
    .edit (.add Sample.low.key Sample.low.value)
      (.edit (.add Sample.high.key Sample.high.value) .empty Sample.add_high_first)
        Sample.add_low_last
  have h := @history_independent Sample.config Sample.tree Sample.tree .empty .empty h₁ h₂
  obtain ⟨hroot, haddress⟩ := h.1 fun _ => rfl
  refine ⟨_, _, _, _, Sample.add_low, Sample.add_high, Sample.add_high_first, Sample.add_low_last,
    hroot, haddress, ?_⟩
  exact h.2 Sample.archive Sample.covers Sample.covers rfl

end Tree.Edited

end MerkleSearch
