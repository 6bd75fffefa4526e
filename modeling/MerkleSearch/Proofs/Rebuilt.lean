import MerkleSearch.Proofs.Closed
import MerkleSearch.Proofs.Packed

/-!
This module contains which entries have a record, and what the record says of them. Nothing is asked
of the order of the keys, since a key is rebuilt from the one before it whichever way they compare.
The main statement is `NodeRecord.ofEntries_rebuilt`: the keys and the pointers of the record are
those of the entries, and where the entries are those of a node, that node is read of it.
-/

namespace MerkleSearch

variable {config : Config} {es : List NodeEntry}

theorem Entry.map_injective {α β : Type} {f : α → β} (h : Function.Injective f) :
    Function.Injective (map f) := by
  rintro (a | l) (b | l') heq
  · exact congrArg tree (h (tree.inj heq))
  · cases heq
  · cases heq
  · exact congrArg leaf (leaf.inj heq)

namespace NodeRecord

variable {record : NodeRecord} {cs : List (Entry Cid)}

structure Tells (record : NodeRecord) (previous : Bytes) (cs : List (Entry Cid)) : Prop where
  shared : ∀ p ∈ chain previous record.leaves, p.1.shared.toNat ≤ p.2.length
  text : (Entry.leaves cs).map (Bytes.ofText ·.key) = (chain previous record.leaves).map fun p =>
    p.1.keyBytes p.2
  valid : ∀ l ∈ Entry.leaves cs, Key.isValid l.key
  entries : record.toEntries ((Entry.leaves cs).map (·.key)) = cs

namespace ofEntries

variable {previous : String} {l : Leaf} {right : Option Cid} {leaf : LeafRecord}
variable {leaves : List LeafRecord}

theorem of_leafRecord_ok (h : leafRecord previous l right = .ok leaf) :
    Key.isValid l.key ∧ leaf.shared.toNat ≤ (Bytes.ofText previous).length ∧
      leaf.keyBytes (Bytes.ofText previous) = Bytes.ofText l.key ∧ leaf.value = l.value ∧
      leaf.right = right := by
  have hvalid : Key.isValid l.key := by
    unfold leafRecord at h
    split at h
    · assumption
    · cases h
  -- The leaf record is that of the full key, once it shares as much as it can.
  let full : LeafRecord := ⟨0, Bytes.ofText l.key, l.value, right⟩
  have hkey : full.keyBytes (Bytes.ofText previous) = Bytes.ofText l.key := rfl
  have hlength : (full.keyBytes (Bytes.ofText previous)).length < 2 ^ 64 := by
    have := Key.length_ofText_le hvalid
    rw [hkey]
    omega
  have hpacked : leafRecord previous l right = .ok (full.packed (Bytes.ofText previous)) :=
    leafRecord_eq hvalid hkey.symm
  rw [h] at hpacked
  cases hpacked
  refine ⟨hvalid, ?_, ?_, rfl, rfl⟩
  · rw [LeafRecord.toNat_shared_packed hlength]
    exact Bytes.sharedLength_le_left _ _
  · rw [LeafRecord.keyBytes_packed hlength, hkey]

end ofEntries

theorem Tells.cons {previous : String} {l : Leaf} {right : Option Cid} {leaf : LeafRecord}
    {leaves : List LeafRecord} (h : ofEntries.leafRecord previous l right = .ok leaf)
    (hrest : Tells ⟨none, leaves⟩ (Bytes.ofText l.key) cs) :
    Tells ⟨none, leaf :: leaves⟩ (Bytes.ofText previous) (.leaf l :: (subtree right ++ cs)) := by
  obtain ⟨hvalid, hshared, hkey, hvalue, hright⟩ := ofEntries.of_leafRecord_ok h
  have hleaves : Entry.leaves (.leaf l :: (subtree right ++ cs)) = l :: Entry.leaves cs := by
    rw [Entry.leaves_leaf, Entry.leaves_append, leaves_subtree, List.nil_append]
  constructor
  · simp only [chain, hkey, List.forall_mem_cons]
    exact ⟨hshared, hrest.shared⟩
  · rw [hleaves]
    simp only [chain, hkey, List.map_cons, hrest.text]
  · rw [hleaves]
    exact List.forall_mem_cons.2 ⟨hvalid, hrest.valid⟩
  · rw [hleaves, List.map_cons, toEntries_cons, hvalue, hright, hrest.entries]

theorem ofEntries.exists_tells {es : List (Entry (Except Error Cid))} {previous : String}
    {leaves : List LeafRecord} (h : leafRecords previous es = .ok leaves) :
    ∃ cs : List (Entry Cid), es = cs.map (Entry.map .ok) ∧
      Tells ⟨none, leaves⟩ (Bytes.ofText previous) cs := by
  fun_induction leafRecords previous es generalizing leaves with
  | case1 =>
    cases h
    exact ⟨[], rfl, List.forall_mem_nil _, rfl, List.forall_mem_nil _, rfl⟩
  | case2 => cases h
  | case3 previous l address rest ih =>
    obtain ⟨right, haddress, h⟩ := exists_of_bind_eq_ok h
    obtain ⟨leaf, hleaf, h⟩ := exists_of_bind_eq_ok h
    obtain ⟨others, hothers, h⟩ := exists_of_bind_eq_ok h
    cases h
    cases haddress
    obtain ⟨cs, rfl, hcs⟩ := ih hothers
    exact ⟨_, rfl, .cons hleaf hcs⟩
  | case4 previous l rest hrest ih =>
    obtain ⟨leaf, hleaf, h⟩ := exists_of_bind_eq_ok h
    obtain ⟨others, hothers, h⟩ := exists_of_bind_eq_ok h
    cases h
    obtain ⟨cs, rfl, hcs⟩ := ih hothers
    exact ⟨_, rfl, .cons hleaf hcs⟩

theorem exists_tells {es : List (Entry (Except Error Cid))} (h : ofEntries es = .ok record) :
    ∃ cs : List (Entry Cid), es = cs.map (Entry.map .ok) ∧ record.Tells [] cs := by
  unfold ofEntries at h
  split at h
  · next address rest =>
    obtain ⟨left, haddress, h⟩ := exists_of_bind_eq_ok h
    obtain ⟨leaves, hleaves, h⟩ := exists_of_bind_eq_ok h
    cases h
    cases haddress
    obtain ⟨cs, rfl, hcs⟩ := ofEntries.exists_tells hleaves
    exact ⟨.tree left :: cs, rfl, hcs.shared, hcs.text, hcs.valid,
      congrArg (Entry.tree left :: ·) hcs.entries⟩
  · obtain ⟨leaves, hleaves, h⟩ := exists_of_bind_eq_ok h
    cases h
    exact ofEntries.exists_tells hleaves

theorem eq_none_of_pointers (h : ∀ c, c ∉ record.pointers) :
    record.left = none ∧ ∀ leaf ∈ record.leaves, leaf.right = none := by
  simp only [pointers, List.mem_append, Option.mem_toList, List.mem_filterMap, not_or, not_exists,
    not_and] at h
  refine ⟨Option.eq_none_iff_forall_ne_some.2 fun c hc => (h c).1 hc, fun leaf hleaf => ?_⟩
  exact Option.eq_none_iff_forall_ne_some.2 fun c hc => (h c).2 leaf hleaf hc

theorem Tells.sound {layer : Nat} (h : record.Tells [] cs)
    (hsorted : (Entry.leaves cs).Pairwise (·.key < ·.key))
    (hlayer : ∀ l ∈ Entry.leaves cs, config.layerOf l.key = layer)
    (hbottom : layer = 0 → ∀ c, .tree c ∉ cs) :
    record.Sound config (some layer) ((Entry.leaves cs).map (·.key)) where
  shared := h.shared
  text := by rw [List.map_map]; exact h.text
  valid := List.forall_mem_map.2 h.valid
  sorted := List.pairwise_map.2 hsorted
  layer := List.forall_mem_map.2 fun l hl => congrArg some (hlayer l hl).symm
  bottom := by
    intro hzero
    have hlength := congrArg List.length h.text
    rw [List.length_map, List.length_map, ← List.length_map Prod.fst, map_fst_chain] at hlength
    apply eq_none_of_pointers
    intro c hc
    rw [mem_pointers_iff ((List.length_map _).trans hlength), h.entries] at hc
    exact hbottom (Option.some.inj hzero) c hc

theorem Tells.isChain_apart (h : record.Tells [] cs) : cs.IsChain Entry.Apart := by
  rw [← h.entries]
  exact toEntries_apart

theorem exists_ofEntries_iff
    (haddress : ∀ t, .tree t ∈ es → ∃ address, t.address config = .ok address) :
    (∃ record, ofEntries (entryAddresses config es) = .ok record) ↔
      es.IsChain Entry.Apart ∧ ∀ l ∈ Entry.leaves es, Key.isValid l.key := by
  have hleaves : Entry.leaves (entryAddresses config es) = Entry.leaves es := by
    rw [entryAddresses_eq_map, Entry.leaves_map]
  have hapart : (entryAddresses config es).IsChain Entry.Apart ↔ es.IsChain Entry.Apart := by
    rw [entryAddresses_eq_map, Entry.isChain_apart_map]
  constructor
  · rintro ⟨record, h⟩
    obtain ⟨cs, hcs, htells⟩ := exists_tells h
    rw [← hapart, ← hleaves, hcs, Entry.isChain_apart_map, Entry.leaves_map]
    exact ⟨htells.isChain_apart, htells.valid⟩
  · rintro ⟨hchain, hvalid⟩
    apply exists_ofEntries (hapart.2 hchain)
    · intro x hx
      rw [entryAddresses_eq_map, List.mem_map] at hx
      obtain ⟨_ | _, ht, heq⟩ := hx <;> cases heq
      exact haddress _ ht
    · rw [hleaves]
      exact hvalid

theorem ofEntries_rebuilt (config : Config) (es : List NodeEntry)
    (haddress : ∀ t, .tree t ∈ es → ∃ address, t.address config = .ok address) :
    ((∃ record, ofEntries (entryAddresses config es) = .ok record) ↔
      es.IsChain Entry.Apart ∧ ∀ l ∈ Entry.leaves es, Key.isValid l.key) ∧
    ∀ record, ofEntries (entryAddresses config es) = .ok record → ∃ pointers : List (Entry Cid),
      entryAddresses config es = pointers.map (Entry.map .ok) ∧
      (∀ p ∈ chain [] record.leaves, p.1.shared.toNat ≤ p.2.length) ∧
      record.keyBytes = (Entry.leaves es).map (Bytes.ofText ·.key) ∧
      record.toEntries ((Entry.leaves es).map (·.key)) = pointers ∧
      ∀ layer, (Entry.leaves es).Pairwise (·.key < ·.key) →
        (∀ l ∈ Entry.leaves es, config.layerOf l.key = layer) →
        (layer = 0 → ∀ t, .tree t ∉ es) → NodeOf.ofRecord config (.layer layer) record = .ok {
          entries := pointers.map (Entry.map (.unresolved · (.layer (layer - 1))))
          layer := some layer } := by
  refine ⟨exists_ofEntries_iff haddress, fun record h => ?_⟩
  obtain ⟨cs, hcs, htells⟩ := exists_tells h
  have hleaves : Entry.leaves es = Entry.leaves cs := by
    have := congrArg Entry.leaves hcs
    rwa [entryAddresses_eq_map, Entry.leaves_map, Entry.leaves_map] at this
  rw [hleaves]
  refine ⟨cs, hcs, htells.shared, htells.text.symm, htells.entries,
    fun layer hsorted hlayer hbottom => ?_⟩
  have hsound : record.Sound config (Hint.layer layer).layer? ((Entry.leaves cs).map (·.key)) := by
    apply htells.sound hsorted hlayer
    intro hzero c hc
    have hmem : .tree (.ok c) ∈ entryAddresses config es := by
      rw [hcs]
      exact List.mem_map_of_mem hc
    rw [entryAddresses_eq_map, List.mem_map] at hmem
    obtain ⟨e, he, heq⟩ := hmem
    cases e with
    | tree t => exact hbottom hzero t he
    | leaf l => cases heq
  rw [NodeOf.ofRecord_of_sound hsound, NodeOf.described, htells.entries]
  rfl

theorem ofEntries_rebuilt_of_two_leaves :
    let config : Config := { hasher := .tail }
    let es : List NodeEntry := [.tree (.unresolved Sample.low.value (.layer 0)), .leaf Sample.high,
      .tree (.unresolved Sample.high.value (.layer 0)), .leaf ⟨"a/d-1", Sample.low.value⟩]
    ∃ record, ofEntries (entryAddresses config es) = .ok record ∧
      record.keyBytes = [Bytes.ofText "a/c-1", Bytes.ofText "a/d-1"] ∧
      NodeOf.ofRecord config (.layer 1) record = .ok { entries := es, layer := some 1 } := by
  intro config es
  have haddress : ∀ t, .tree t ∈ es → ∃ address, t.address config = .ok address := by
    intro t ht
    simp only [es, List.mem_cons, Entry.tree.injEq, reduceCtorEq, List.not_mem_nil, or_false,
      false_or] at ht
    rcases ht with rfl | rfl <;> exact ⟨_, rfl⟩
  obtain ⟨hiff, hrebuilt⟩ := ofEntries_rebuilt config es haddress
  obtain ⟨record, hrecord⟩ := hiff.2 ⟨by simp [es, Entry.Apart, Entry.isTree], by decide⟩
  obtain ⟨pointers, hpointers, -, hkeys, -, hread⟩ := hrebuilt record hrecord
  have hes : pointers = [.tree Sample.low.value, .leaf Sample.high, .tree Sample.high.value,
      .leaf ⟨"a/d-1", Sample.low.value⟩] := by
    have hinjective : Function.Injective (Entry.map (Except.ok : Cid → Except Error Cid)) :=
      Entry.map_injective fun _ _ => Except.ok.inj
    exact List.map_injective_iff.2 hinjective hpointers.symm
  refine ⟨record, hrecord, hkeys, ?_⟩
  have hbottom : 1 = 0 → ∀ t, .tree t ∉ es := fun h => absurd h Nat.one_ne_zero
  rw [hread 1 (by decide) (by decide) hbottom, hes]
  rfl

end NodeRecord

end MerkleSearch
