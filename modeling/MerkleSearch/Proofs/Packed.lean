import MerkleSearch.Proofs.Accepted

/-!
This module contains how far a node says what its record was. Of the records that are accepted for a
node just one is written for it (`NodeOf.record_ofRecord`): the one in which each key shares with
the key before it as much as it can.
-/

namespace MerkleSearch

namespace LeafRecord

variable {leaf : LeafRecord} {previous : Bytes}

/--
The same leaf, but it shares with the key before it as many bytes as it can.
-/
def packed (leaf : LeafRecord) (previous : Bytes) : LeafRecord :=
  let key := leaf.keyBytes previous
  let shared := Bytes.sharedLength previous key
  { leaf with shared := UInt64.ofNat shared, suffix := key.drop shared }

theorem toNat_shared_packed (h : (leaf.keyBytes previous).length < 2 ^ 64) :
    (leaf.packed previous).shared.toNat = Bytes.sharedLength previous (leaf.keyBytes previous) := by
  have hle := Bytes.sharedLength_le_right previous (leaf.keyBytes previous)
  have hshared : (leaf.packed previous).shared.toNat =
      (UInt64.ofNat (Bytes.sharedLength previous (leaf.keyBytes previous))).toNat := rfl
  rw [hshared, UInt64.toNat_ofNat']
  omega

theorem keyBytes_packed (h : (leaf.keyBytes previous).length < 2 ^ 64) :
    (leaf.packed previous).keyBytes previous = leaf.keyBytes previous := by
  have hsuffix : (leaf.packed previous).suffix =
      (leaf.keyBytes previous).drop (Bytes.sharedLength previous (leaf.keyBytes previous)) := rfl
  rw [keyBytes, toNat_shared_packed h, hsuffix, Bytes.take_sharedLength, List.take_append_drop]

theorem packed_eq_self_iff (h : (leaf.keyBytes previous).length < 2 ^ 64)
    (hshared : leaf.shared.toNat ≤ previous.length) :
    leaf.packed previous = leaf ↔ leaf.shared.toNat =
      Bytes.sharedLength previous (leaf.keyBytes previous) := by
  constructor
  · intro heq
    rw [← toNat_shared_packed h, heq]
  · intro heq
    have hsuffix : (leaf.keyBytes previous).drop leaf.shared.toNat = leaf.suffix := by
      rw [keyBytes]
      exact List.drop_left' (List.length_take_of_le hshared)
    obtain ⟨shared, suffix, value, right⟩ := leaf
    simp only [packed, mk.injEq, and_true]
    dsimp only at heq hsuffix
    rw [← heq]
    exact ⟨UInt64.ofNat_toNat, hsuffix⟩

end LeafRecord

namespace NodeRecord

variable {config : Config} {record : NodeRecord} {leaves : List LeafRecord} {texts : List String}
variable {previous : Bytes}

def Compressed (record : NodeRecord) : Prop :=
  ∀ p ∈ chain [] record.leaves, p.1.shared.toNat = Bytes.sharedLength p.2 (p.1.keyBytes p.2)

def packed (record : NodeRecord) : NodeRecord :=
  { record with leaves := (chain [] record.leaves).map fun p => p.1.packed p.2 }

theorem map_fst_chain : (chain previous leaves).map Prod.fst = leaves := by
  induction leaves generalizing previous with
  | nil => rfl
  | cons leaf leaves ih => rw [chain, List.map_cons, ih]

theorem chain_packed (h : ∀ p ∈ chain previous leaves, (p.1.keyBytes p.2).length < 2 ^ 64) :
    chain previous ((chain previous leaves).map fun p => p.1.packed p.2) =
      (chain previous leaves).map fun p => (p.1.packed p.2, p.2) := by
  induction leaves generalizing previous with
  | nil => rfl
  | cons leaf leaves ih =>
    rw [chain, List.forall_mem_cons] at h
    simp only [chain, List.map_cons, LeafRecord.keyBytes_packed h.1, ih h.2]

theorem packed_eq_self_iff (h : ∀ p ∈ chain [] record.leaves, (p.1.keyBytes p.2).length < 2 ^ 64)
    (hshared : ∀ p ∈ chain [] record.leaves, p.1.shared.toNat ≤ p.2.length) :
    record.packed = record ↔ record.Compressed := by
  have hleaves : record.packed = record ↔ record.packed.leaves =
      (chain [] record.leaves).map Prod.fst := by
    rw [map_fst_chain]
    obtain ⟨left, leaves⟩ := record
    simp [packed]
  rw [hleaves, packed, List.map_inj_left]
  exact forall₂_congr fun p hp => LeafRecord.packed_eq_self_iff (h p hp) (hshared p hp)

theorem packed_compressed (h : ∀ p ∈ chain [] record.leaves, (p.1.keyBytes p.2).length < 2 ^ 64) :
    record.packed.Compressed := by
  unfold Compressed packed
  dsimp only
  rw [chain_packed h, List.forall_mem_map]
  intro p hp
  rw [LeafRecord.toNat_shared_packed (h p hp), LeafRecord.keyBytes_packed (h p hp)]

theorem keyBytes_packed (h : ∀ p ∈ chain [] record.leaves, (p.1.keyBytes p.2).length < 2 ^ 64) :
    record.packed.keyBytes = record.keyBytes := by
  unfold keyBytes packed
  dsimp only
  rw [chain_packed h, List.map_map]
  exact List.map_congr_left fun p hp => LeafRecord.keyBytes_packed (h p hp)

theorem toEntries_packed : record.packed.toEntries texts = record.toEntries texts := by
  have hleaves : record.leaves = (chain [] record.leaves).map Prod.fst := map_fst_chain.symm
  have hpacked : record.packed.leaves = (chain [] record.leaves).map fun p => p.1.packed p.2 := rfl
  have hleft : record.packed.left = record.left := rfl
  rw [toEntries_eq, toEntries_eq, hpacked, hleft]
  nth_rewrite 2 [hleaves]
  rw [List.zip_map_left, List.zip_map_left, List.flatMap_map, List.flatMap_map]
  rfl

theorem Sound.length_lt {expected : Option Nat} (h : record.Sound config expected texts) :
    ∀ p ∈ chain [] record.leaves, (p.1.keyBytes p.2).length < 2 ^ 64 := by
  intro p hp
  have hmem : p.1.keyBytes p.2 ∈ record.keyBytes := List.mem_map_of_mem hp
  rw [← h.text, List.mem_map] at hmem
  obtain ⟨key, hkey, heq⟩ := hmem
  have hlength := Key.length_ofText_le (h.valid key hkey)
  rw [← heq]
  omega

theorem Sound.packed {expected : Option Nat} (h : record.Sound config expected texts) :
    record.packed.Sound config expected texts where
  shared := by
    unfold NodeRecord.packed
    dsimp only
    rw [chain_packed h.length_lt, List.forall_mem_map]
    intro p hp
    rw [LeafRecord.toNat_shared_packed (h.length_lt p hp)]
    exact Bytes.sharedLength_le_left _ _
  text := by rw [keyBytes_packed h.length_lt, h.text]
  valid := h.valid
  sorted := h.sorted
  layer := h.layer
  bottom := by
    intro hzero
    obtain ⟨hleft, hright⟩ := h.bottom hzero
    refine ⟨hleft, List.forall_mem_map.2 fun p hp => ?_⟩
    apply hright p.1
    rw [← @map_fst_chain record.leaves []]
    exact List.mem_map_of_mem hp

theorem toEntries_cons {leaf : LeafRecord} {key : String} :
    toEntries ⟨none, leaf :: leaves⟩ (key :: texts) =
      .leaf ⟨key, leaf.value⟩ :: (subtree leaf.right ++ toEntries ⟨none, leaves⟩ texts) := rfl

theorem isTree_head?_toEntries {α : Type} (f : Cid → α) :
    ∀ e ∈ ((toEntries ⟨none, leaves⟩ texts).map (Entry.map f)).head?, e.isTree = false := by
  cases leaves with
  | nil => nofun
  | cons leaf leaves =>
    cases texts with
    | nil => nofun
    | cons text texts =>
      rintro _ ⟨⟩
      rfl

namespace ofEntries

variable {previous : String} {l : Leaf} {es : List (Entry (Except Error Cid))}

theorem leafRecord_eq {leaf : LeafRecord} {key : String} (hvalid : Key.isValid key)
    (hkey : Bytes.ofText key = leaf.keyBytes (Bytes.ofText previous)) :
    leafRecord previous ⟨key, leaf.value⟩ leaf.right =
      .ok (leaf.packed (Bytes.ofText previous)) := by
  unfold leafRecord
  rw [if_pos hvalid]
  dsimp only
  rw [hkey]
  rfl

theorem leafRecords_leaf (h : ∀ e ∈ es.head?, e.isTree = false) :
    leafRecords previous (.leaf l :: es) = do
      let leaf ← leafRecord previous l none
      return leaf :: (← leafRecords l.key es) := by
  cases es with
  | nil => rfl
  | cons e es =>
    cases e with
    | leaf => rfl
    | tree => cases h _ rfl

theorem leafRecords_eq {texts : List String} {leaves : List LeafRecord}
    (hvalid : ∀ key ∈ texts, Key.isValid key)
    (htext : texts.map Bytes.ofText = (chain (Bytes.ofText previous) leaves).map fun p =>
      p.1.keyBytes p.2) :
    leafRecords previous ((toEntries ⟨none, leaves⟩ texts).map (Entry.map .ok)) =
      .ok ((chain (Bytes.ofText previous) leaves).map fun p => p.1.packed p.2) := by
  induction leaves generalizing previous texts with
  | nil =>
    rw [List.map_eq_nil_iff.1 htext]
    rfl
  | cons leaf leaves ih =>
    obtain ⟨key, rest, rfl, hkey, hrest⟩ := List.map_eq_cons_iff.1 htext
    rw [List.forall_mem_cons] at hvalid
    have hfirst := leafRecord_eq hvalid.1 hkey
    have hothers := @ih key rest hvalid.2 (by rw [hkey]; exact hrest)
    rw [hkey] at hothers
    rw [toEntries_cons, chain, List.map_cons, List.map_cons, List.map_append, map_subtree,
      Entry.map_leaf]
    cases hright : leaf.right with
    | none =>
      rw [hright] at hfirst
      rw [Option.toList_none, List.map_nil, List.nil_append,
        leafRecords_leaf (isTree_head?_toEntries _), hfirst, hothers]
      rfl
    | some address =>
      rw [hright] at hfirst
      rw [Option.toList_some, List.map_singleton, List.singleton_append]
      simp only [leafRecords, hfirst, hothers, bind, Except.bind]
      rfl

end ofEntries

theorem ofEntries_of_head? {es : List (Entry (Except Error Cid))}
    (h : ∀ e ∈ es.head?, e.isTree = false) :
    ofEntries es = do return { left := none, leaves := ← ofEntries.leafRecords "" es } := by
  cases es with
  | nil => rfl
  | cons e es =>
    cases e with
    | leaf => rfl
    | tree => cases h _ rfl

theorem Sound.ofEntries_toEntries {expected : Option Nat} (h : record.Sound config expected texts) :
    ofEntries ((record.toEntries texts).map (Entry.map .ok)) = .ok record.packed := by
  have hleaves :
      ofEntries.leafRecords "" ((toEntries ⟨none, record.leaves⟩ texts).map (Entry.map .ok)) =
        .ok ((chain [] record.leaves).map fun p => p.1.packed p.2) :=
    ofEntries.leafRecords_eq h.valid h.text
  obtain ⟨left, leaves⟩ := record
  cases left with
  | none =>
    rw [ofEntries_of_head? (isTree_head?_toEntries _), hleaves]
    rfl
  | some address =>
    have hentries : toEntries ⟨some address, leaves⟩ texts =
        .tree address :: toEntries ⟨none, leaves⟩ texts :=
      rfl
    rw [hentries, List.map_cons, Entry.map_tree]
    unfold ofEntries
    simp only [hleaves, bind, Except.bind]
    rfl

end NodeRecord

namespace NodeOf

variable {config : Config} {hint : Hint} {record : NodeRecord} {node : Node} {texts : List String}

theorem record_described (h : record.Sound config hint.layer? texts) :
    (described config hint record texts).record config = .ok record.packed := by
  rw [NodeOf.record, entryAddresses_eq_map, described, List.map_map, Entry.map_comp_map]
  exact h.ofEntries_toEntries

theorem described_packed :
    described config hint record.packed texts = described config hint record texts := by
  rw [described, described, NodeRecord.toEntries_packed]

theorem record_ofRecord (h : ofRecord config hint record = .ok node) :
    ∃ written, node.record config = .ok written ∧
    (written = record ↔ record.Compressed) ∧ written.Compressed ∧
    ofRecord config hint written = .ok node ∧
    ∀ (other : NodeRecord) (hint' : Hint) (node' : Node), ofRecord config hint' other = .ok node' →
      node'.entries = node.entries → other.Compressed → other = written := by
  obtain ⟨texts, hsound, rfl⟩ := ofRecord_iff_exists.1 h
  refine ⟨record.packed, record_described hsound,
    NodeRecord.packed_eq_self_iff hsound.length_lt hsound.shared,
    NodeRecord.packed_compressed hsound.length_lt, ?_, ?_⟩
  · rw [← described_packed]
    exact ofRecord_of_sound hsound.packed
  · -- Whatever the other record is, the same is written for its entries, and it has nothing more to
    -- share.
    intro other hint' node' hother hentries hcompressed
    obtain ⟨texts', hsound', rfl⟩ := ofRecord_iff_exists.1 hother
    have hrecord : (described config hint' other texts').record config =
        (described config hint record texts).record config := by
      rw [NodeOf.record, NodeOf.record, hentries]
    rw [record_described hsound, record_described hsound'] at hrecord
    rw [← Except.ok.inj hrecord]
    exact ((NodeRecord.packed_eq_self_iff hsound'.length_lt hsound'.shared).2 hcompressed).symm

theorem record_ofRecord_of_common_prefix :
    let config : Config := { hasher := .tail }
    let record : NodeRecord :=
      ⟨none, [⟨0, Bytes.ofText "a/c-1", Sample.high.value, some Sample.low.value⟩,
        ⟨2, Bytes.ofText "d-1", Sample.last.value, none⟩]⟩
    ∃ node, ofRecord config (.layer 1) record = .ok node ∧ node.record config = .ok record := by
  intro config record
  have hsound : record.Sound config (Hint.layer 1).layer? ["a/c-1", "a/d-1"] :=
    ⟨by decide, by decide, by decide, by decide, by decide, by decide⟩
  obtain ⟨written, hwritten, hiff, -⟩ := record_ofRecord (ofRecord_of_sound hsound)
  have hcompressed : record.Compressed := by
    unfold NodeRecord.Compressed
    decide
  rw [hiff.2 hcompressed] at hwritten
  exact ⟨_, ofRecord_of_sound hsound, hwritten⟩

end NodeOf

namespace Loose

/-!
A record whose second key is given in full, although it starts with the same bytes as the first.
-/

open Sample (low high)

def texts : List String := ["a/b", "a/d"]

def record : NodeRecord :=
  ⟨none, [⟨0, Bytes.ofText "a/b", low.value, none⟩, ⟨0, Bytes.ofText "a/d", high.value, none⟩]⟩

theorem sound : record.Sound {} none texts where
  shared := by decide
  text := by decide
  valid := by decide
  sorted := by decide
  layer := by decide +kernel
  bottom := fun _ => by decide

theorem not_compressed : ¬record.Compressed := by
  unfold NodeRecord.Compressed
  decide

/--
What is written for the node is another record, and that is accepted for it too.
-/
theorem accepted_but_not_written :
    ∃ node written, NodeOf.ofRecord {} (.ofLayer? none) record = .ok node ∧
    node.record {} = .ok written ∧ written ≠ record ∧
    NodeOf.ofRecord {} (.ofLayer? none) written = .ok node := by
  have hsound : record.Sound {} (Hint.ofLayer? none).layer? texts := sound
  refine ⟨_, record.packed, NodeOf.ofRecord_of_sound hsound, NodeOf.record_described hsound, ?_, ?_⟩
  · intro heq
    exact not_compressed ((NodeRecord.packed_eq_self_iff hsound.length_lt hsound.shared).1 heq)
  · rw [← NodeOf.described_packed]
    exact NodeOf.ofRecord_of_sound hsound.packed

end Loose

end MerkleSearch
