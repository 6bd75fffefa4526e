import MerkleSearch.Proofs.Address
import MerkleSearch.Proofs.Extent

/-!
This module contains the subtrees whose blocks have been written. Their addresses tell them apart.
-/

namespace MerkleSearch

variable {config : Config} {archive : Archive config} {ls : List Leaf} {e x : Extent}
variable {layer height : Nat}

namespace Extent

def block (config : Config) (e : Extent) : Except Error Block :=
  canonicalBlock config (e.height - 1) e.leaves

/--
Subtrees that have been written. There is only one without leaves.
-/
structure Written (archive : Archive config) (e : Extent) : Prop where
  has : archive.Has e.height e.leaves
  listing : Listing e.leaves
  root : e.leaves = [] → e.height = 1

theorem Written.exists_block (h : e.Written archive) : ∃ block, e.block config = .ok block := by
  obtain ⟨height, ls⟩ := e
  cases height with
  | zero => exact h.has.elim
  | succ layer =>
    obtain ⟨⟨block, hblock, -⟩, -⟩ := h.has
    exact ⟨block, hblock⟩

theorem Written.address_eq (h : e.Written archive) {block : Block}
    (hblock : e.block config = .ok block) :
    (canonical config e.height e.leaves).address config = .ok block.address := by
  obtain ⟨height, ls⟩ := e
  cases height with
  | zero => exact h.has.elim
  | succ layer =>
    have hcanonical : canonicalBlock config layer ls = .ok block := hblock
    rw [address_canonical, hcanonical]
    rfl

theorem Written.blocks (h : e.Written archive) {block : Block}
    (hblock : e.block config = .ok block) :
    archive.blocks block.bytes := by
  obtain ⟨height, ls⟩ := e
  cases height with
  | zero => exact h.has.elim
  | succ layer =>
    obtain ⟨⟨known, hknown, hmem⟩, -⟩ := h.has
    cases hblock.symm.trans hknown
    exact hmem

theorem Written.eq_of_address_eq (h : e.Written archive) (hx : x.Written archive)
    {block block' : Block} (hblock : e.block config = .ok block)
    (hblock' : x.block config = .ok block') (haddress : block.address = block'.address) :
    e = x := by
  obtain ⟨height, ls⟩ := e
  obtain ⟨height', ls'⟩ := x
  obtain ⟨hhas, hls, hroot⟩ := h
  obtain ⟨hhas', hls', hroot'⟩ := hx
  dsimp only at hhas hls hroot hhas' hls' hroot'
  cases height with
  | zero => exact hhas.elim
  | succ layer =>
    cases height' with
    | zero => exact hhas'.elim
    | succ layer' =>
      have hcanonical : (canonical config (layer + 1) ls).address config =
          (canonical config (layer' + 1) ls').address config := by
        rw [address_canonical, address_canonical]
        unfold Extent.block at hblock hblock'
        rw [Nat.add_sub_cancel] at hblock hblock'
        rw [hblock, hblock']
        exact congrArg Except.ok haddress
      obtain ⟨rfl, hlayer⟩ := hhas.eq_of_address_eq hhas' hls hls' hcanonical
      by_cases hnil : ls = []
      · rw [hroot hnil, hroot' hnil]
      · rw [hlayer hnil]

theorem has_of_mem_spread (hhas : archive.Has height ls) (he : e ∈ spread config height ls) :
    archive.Has e.height e.leaves := by
  induction height generalizing ls with
  | zero => cases he
  | succ layer ih =>
    rw [spread_succ, List.mem_cons, mem_nodes_iff] at he
    rcases he with rfl | ⟨u, hu, he⟩
    · exact hhas
    · obtain ⟨hheight, hts⟩ := mem_entries_iff.1 hu
      rw [hheight] at he
      exact ih (hhas.2 u.leaves hts) he

theorem Written.height_pos (h : e.Written archive) : 0 < e.height := h.has.height_pos

theorem Written.layer_lt (h : e.Written archive) :
    ∀ l ∈ e.leaves, config.layerOf l.key < e.height := by
  obtain ⟨height, ls⟩ := e
  cases height with
  | zero => exact h.has.elim
  | succ layer => exact fun l hl => Nat.lt_succ_of_le (h.has.layer_le l hl)

theorem Written.of_mem_spread (h : x.Written archive) (he : e ∈ spread config x.height x.leaves) :
    e.Written archive := by
  have hhas := has_of_mem_spread h.has he
  obtain ⟨hle, hsub, hne⟩ := Extent.of_mem_spread h.layer_lt he
  refine ⟨hhas, h.listing.sublist hsub, ?_⟩
  intro hnil
  have hheight := h.root (not_not.1 fun hne' => hne hne' hnil)
  have hpos := hhas.height_pos
  omega

theorem Written.mem_spread (h : e.Written archive) : e ∈ spread config e.height e.leaves := by
  obtain ⟨height, ls⟩ := e
  cases height with
  | zero => exact h.has.elim
  | succ layer =>
    rw [spread_succ]
    exact List.mem_cons_self

theorem Written.child {ts : List Leaf} (h : Written archive ⟨layer + 1, ls⟩)
    (hts : .tree ts ∈ Leaves.groups config layer ls) : Written archive ⟨layer, ts⟩ := by
  obtain ⟨_, rfl, hne, -, hsub⟩ := (Leaves.spells_groups h.has.layer_le).of_tree_mem hts
  exact ⟨h.has.2 _ hts, h.listing.sublist hsub, fun hnil => absurd hnil hne⟩

theorem Written.of_tops (htops : Tops config layer ls) (hls : Listing ls)
    (hhas : archive.Has (layer + 1) ls) :
    Written archive ⟨layer + 1, ls⟩ := by
  refine ⟨hhas, hls, ?_⟩
  rintro rfl
  rcases htops with ⟨-, rfl⟩ | ⟨_, hl, -⟩
  · rfl
  · cases hl

theorem Written.nodup_spread (h : e.Written archive) : (spread config e.height e.leaves).Nodup :=
  Extent.nodup_spread h.listing h.layer_lt

end Extent

end MerkleSearch
