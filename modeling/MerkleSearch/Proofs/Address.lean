import MerkleSearch.Proofs.Resolve

/-!
This module contains the fact that an address decides on the leaves of a subtree, as long as the
blocks of its nodes are told apart by their addresses and decoded to what has been encoded.
-/

namespace MerkleSearch

variable {config : Config} {layer layer' : Nat} {ls ls' : List Leaf} {archive : Archive config}

theorem Spells.eq_of_eq {gs : List (Entry (List Leaf))} (h : Spells config Eq layer gs ls)
    (h' : Spells config Eq layer' gs ls') : ls = ls' := by
  induction h generalizing ls' with
  | nil => rw [h'.of_nil]
  | leaf _ _ ih =>
    cases h' with
    | leaf _ h' => rw [ih h']
  | tree ht _ _ _ ih =>
    cases h' with
    | tree ht' _ _ h' => rw [← ht, ← ht', ih h']

theorem Spells.eq_of_groups (h : Spells config Eq layer (Leaves.groups config layer ls) ls)
    (h' : Spells config Eq layer' (Leaves.groups config layer' ls') ls')
    (hgroups : List.Forall₂ (Entry.Rel fun ts ts' => ts = ts' ∧ layer = layer')
      (Leaves.groups config layer ls) (Leaves.groups config layer' ls')) :
    ls = ls' ∧ (ls ≠ [] → layer = layer') := by
  have heq : (Leaves.groups config layer ls).map (Entry.map id) =
      (Leaves.groups config layer' ls').map (Entry.map id) :=
    Entry.map_eq_of_forall₂ hgroups fun _ _ => And.left
  rw [Entry.map_id, List.map_id, List.map_id] at heq
  rw [← heq] at h'
  have hls := h.eq_of_eq h'
  refine ⟨hls, ?_⟩
  intro hne
  obtain ⟨l, hl⟩ := List.exists_mem_of_ne_nil ls hne
  rcases Leaves.mem_groups config layer hl with ⟨hmem, hlayer⟩ | ⟨ts, hmem, -⟩
  · rw [← hlayer]
    exact (h'.leaf_mem_iff.1 hmem).2
  · rw [heq] at hmem
    obtain ⟨_, -, -, hlayer⟩ := Entry.exists_tree_of_forall₂ hgroups hmem
    exact hlayer

namespace Archive.Has

theorem entryAddresses_eq (h : archive.Has (layer + 1) ls) (h' : archive.Has (layer' + 1) ls')
    (hls : Listing ls) (hls' : Listing ls')
    (haddress : (canonical config (layer + 1) ls).address config =
      (canonical config (layer' + 1) ls').address config) :
    entryAddresses config (canonicalNode config layer ls).entries =
      entryAddresses config (canonicalNode config layer' ls').entries := by
  obtain ⟨record, block, hrecord, hdecode, hmem, hbytes, hblock⟩ := h.exists_block
  obtain ⟨record', block', hrecord', hdecode', hmem', hbytes', hblock'⟩ := h'.exists_block
  rw [address_canonical, address_canonical, hblock, hblock'] at haddress
  have hsame : block.address = block'.address := Except.ok.inj haddress
  have heq := archive.injective _ _ hmem hmem' ⟨_, hbytes, hsame ▸ hbytes'⟩
  rw [heq, hdecode', Except.ok.injEq] at hdecode
  cases hdecode
  apply NodeRecord.ofEntries_inj hrecord hrecord'
  · rw [entryAddresses_canonicalNode, Entry.leaves_map, (Leaves.spells_groups h.layer_le).leaves_eq]
    exact hls.sorted.sublist List.filter_sublist
  · rw [entryAddresses_canonicalNode, Entry.leaves_map,
      (Leaves.spells_groups h'.layer_le).leaves_eq]
    exact hls'.sorted.sublist List.filter_sublist

theorem eq_of_address_eq {layer layer' : Nat} {ls ls' : List Leaf}
    (h : archive.Has (layer + 1) ls) (h' : archive.Has (layer' + 1) ls') (hls : Listing ls)
    (hls' : Listing ls')
    (haddress : (canonical config (layer + 1) ls).address config =
      (canonical config (layer' + 1) ls').address config) :
    ls = ls' ∧ (ls ≠ [] → layer = layer') := by
  have hspells := Leaves.spells_groups h.layer_le
  have hspells' := Leaves.spells_groups h'.layer_le
  apply hspells.eq_of_groups hspells'
  have hentries := entryAddresses_eq h h' hls hls' haddress
  rw [entryAddresses_canonicalNode, entryAddresses_canonicalNode] at hentries
  apply Entry.forall₂_of_map_eq hentries
  intro ts ts' heq hts hts'
  have hhas := h.2 ts hts
  have hhas' := h'.2 ts' hts'
  obtain ⟨_, rfl, hne, -, hsub⟩ := hspells.of_tree_mem hts
  obtain ⟨_, rfl, -, -, hsub'⟩ := hspells'.of_tree_mem hts'
  -- Subtrees are only there above the lowest layer.
  match layer, layer' with
  | 0, _ => exact hhas.elim
  | _ + 1, 0 => exact hhas'.elim
  | layer + 1, layer' + 1 =>
    obtain ⟨hts, hlayer⟩ := eq_of_address_eq hhas hhas' (hls.sublist hsub) (hls'.sublist hsub') heq
    rw [hlayer hne]
    exact ⟨hts, rfl⟩

end Archive.Has

end MerkleSearch
