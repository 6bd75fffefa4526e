import Mathlib.Data.List.Chain
import MerkleSearch.Node.Record
import MerkleSearch.Proofs.Leaves
import MerkleSearch.Proofs.Settles

/-!
This module contains the way from the entries of a node to its record and back. The main statement
is `NodeOf.ofStored_ofEntries`: of what was written, the same entries are read.
-/

namespace MerkleSearch

namespace Bytes

theorem sharedLength_le_left (as bs : Bytes) : sharedLength as bs ≤ as.length := by
  fun_induction sharedLength as bs <;> simp_all

theorem sharedLength_le_right (as bs : Bytes) : sharedLength as bs ≤ bs.length := by
  fun_induction sharedLength as bs <;> simp_all

theorem take_sharedLength (as bs : Bytes) :
    as.take (sharedLength as bs) = bs.take (sharedLength as bs) := by
  fun_induction sharedLength as bs <;> simp_all

end Bytes

theorem Key.length_ofText_le {key : String} (h : Key.isValid key) :
    (Bytes.ofText key).length ≤ 1024 := by
  have hlength : (Bytes.ofText key).length = key.utf8ByteSize := Array.length_toList
  rw [hlength]
  unfold Key.isValid at h
  dsimp only at h
  split at h
  · simp at h
  · simp only [Bool.and_eq_true, decide_eq_true_eq] at h
    exact h.1.1

namespace Entry

variable {α β γ : Type}

def map (f : α → β) : Entry α → Entry β
  | .tree t => .tree (f t)
  | .leaf l => .leaf l

def Apart (a b : Entry α) : Prop := ¬(a.isTree ∧ b.isTree)

@[simp]
theorem map_tree (f : α → β) (t : α) : (Entry.tree t).map f = .tree (f t) := rfl

@[simp]
theorem map_leaf (f : α → β) (l : Leaf) : (Entry.leaf l).map f = .leaf l := rfl

@[simp]
theorem leaf?_map (f : α → β) (e : Entry α) : (e.map f).leaf? = e.leaf? := by
  cases e <;> rfl

@[simp]
theorem isTree_map (f : α → β) (e : Entry α) : (e.map f).isTree = e.isTree := by
  cases e <;> rfl

@[simp]
theorem map_map (f : α → β) (g : β → γ) (e : Entry α) : (e.map f).map g = e.map (g ∘ f) := by
  cases e <;> rfl

@[simp]
theorem apart_map (f : α → β) (a b : Entry α) : Apart (a.map f) (b.map f) ↔ Apart a b := by
  unfold Apart
  rw [isTree_map, isTree_map]

def leaves (es : List (Entry α)) : List Leaf := es.filterMap leaf?

@[simp]
theorem leaves_nil : leaves ([] : List (Entry α)) = [] := rfl

@[simp]
theorem leaves_leaf (l : Leaf) (es : List (Entry α)) : leaves (.leaf l :: es) = l :: leaves es :=
  rfl

@[simp]
theorem leaves_tree (t : α) (es : List (Entry α)) : leaves (.tree t :: es) = leaves es := rfl

@[simp]
theorem leaves_append (as bs : List (Entry α)) : leaves (as ++ bs) = leaves as ++ leaves bs :=
  List.filterMap_append

@[simp]
theorem leaves_map (f : α → β) (es : List (Entry α)) : leaves (es.map (map f)) = leaves es := by
  simp only [leaves, List.filterMap_map]
  congr 1
  funext e
  exact leaf?_map f e

theorem isTree_head?_of_isChain {t : α} {es : List (Entry α)}
    (h : (.tree t :: es : List (Entry α)).IsChain Apart) :
    ∀ e ∈ es.head?, e.isTree = false := by
  intro e he
  rw [Bool.eq_false_iff]
  intro htree
  exact (List.isChain_cons.1 h).1 e he ⟨rfl, htree⟩

theorem isTree_head?_of_ne {es : List (Entry α)} (h : ∀ t rest, es = .tree t :: rest → False) :
    ∀ e ∈ es.head?, e.isTree = false := by
  intro e he
  obtain ⟨rest, rfl⟩ := List.head?_eq_some_iff.1 he
  cases e with
  | tree t => exact (h t rest rfl).elim
  | leaf => rfl

end Entry

theorem LeafRecord.of_key_ok {leaf : LeafRecord} {key : String} {previous : Option String}
    (h : leaf.key previous = .ok key) :
    Key.isValid key ∧ ∀ p ∈ previous, p < key := by
  unfold LeafRecord.key at h
  dsimp only at h
  split at h
  · obtain ⟨_, hthrow, -⟩ := exists_of_bind_eq_ok h
    cases hthrow
  · split at h
    · split at h
      · obtain ⟨_, hthrow, -⟩ := exists_of_bind_eq_ok h
        cases hthrow
      · next hvalid =>
        split at h
        · next last =>
          split at h
          · obtain ⟨_, hthrow, -⟩ := exists_of_bind_eq_ok h
            cases hthrow
          · next hlt =>
            cases h
            refine ⟨by simpa using hvalid, ?_⟩
            rintro _ ⟨⟩
            exact not_le.1 hlt
        · cases h
          exact ⟨by simpa using hvalid, nofun⟩
    · cases h

theorem NodeRecord.of_keys_ok {records : List LeafRecord} {previous : Option String}
    {keys : List String} (h : NodeRecord.keys previous records = .ok keys) :
    keys.length = records.length ∧ (∀ k ∈ keys, Key.isValid k) ∧ keys.Pairwise (· < ·) ∧
      ∀ p ∈ previous, ∀ k ∈ keys, p < k := by
  induction records generalizing previous keys with
  | nil =>
    cases h
    exact ⟨rfl, nofun, .nil, fun _ _ => nofun⟩
  | cons leaf records ih =>
    unfold NodeRecord.keys at h
    obtain ⟨key, hkey, h⟩ := exists_of_bind_eq_ok h
    obtain ⟨rest, hrest, h⟩ := exists_of_bind_eq_ok h
    cases h
    obtain ⟨hvalid, hlt⟩ := LeafRecord.of_key_ok hkey
    obtain ⟨hlength, hvalids, hsorted, hbound⟩ := ih hrest
    have hfirst := hbound key rfl
    refine ⟨congrArg (· + 1) hlength, ?_, .cons hfirst hsorted, ?_⟩
    · exact List.forall_mem_cons.2 ⟨hvalid, hvalids⟩
    · intro p hp
      exact List.forall_mem_cons.2 ⟨hlt p hp, fun k hk => (hlt p hp).trans (hfirst k hk)⟩

namespace NodeRecord

variable {previous : String} {previous? : Option String}

theorem ofEntries.leafRecord_ok {l : Leaf} {right : Option Cid} {record : LeafRecord}
    (h : ofEntries.leafRecord previous l right = .ok record)
    (hprevious : previous?.getD "" = previous) (hlt : ∀ p ∈ previous?, p < l.key) :
    record.key previous? = .ok l.key ∧ record.value = l.value ∧ record.right = right := by
  unfold ofEntries.leafRecord at h
  split at h
  · next hvalid =>
    cases h
    refine ⟨?_, rfl, rfl⟩
    have hshared :
        (UInt64.ofNat (Bytes.sharedLength (Bytes.ofText previous) (Bytes.ofText l.key))).toNat =
          Bytes.sharedLength (Bytes.ofText previous) (Bytes.ofText l.key) := by
      have := Bytes.sharedLength_le_right (Bytes.ofText previous) (Bytes.ofText l.key)
      have := Key.length_ofText_le hvalid
      rw [UInt64.toNat_ofNat']
      omega
    have hknown := Bytes.sharedLength_le_left (Bytes.ofText previous) (Bytes.ofText l.key)
    have hjoin :
        (Bytes.ofText previous).take
          (Bytes.sharedLength (Bytes.ofText previous) (Bytes.ofText l.key)) ++
          (Bytes.ofText l.key).drop
          (Bytes.sharedLength (Bytes.ofText previous) (Bytes.ofText l.key)) =
          Bytes.ofText l.key := by
      rw [Bytes.take_sharedLength, List.take_append_drop]
    unfold LeafRecord.key
    simp only [hprevious, hshared, Nat.not_lt.2 hknown, if_false, hjoin, Bytes.text?_ofText, hvalid]
    cases previous? with
    | none => rfl
    | some p =>
      simp only [(hlt p rfl).not_ge, if_false]
      rfl
  · cases h

theorem ofEntries.leafRecords_ok {es : List (Entry (Except Error Cid))} {records : List LeafRecord}
    (h : ofEntries.leafRecords previous es = .ok records) (hprevious : previous?.getD "" = previous)
    (hsorted : (Entry.leaves es).Pairwise (·.key < ·.key))
    (hlt : ∀ p ∈ previous?, ∀ l ∈ Entry.leaves es, p < l.key) :
    ∃ cs : List (Entry Cid), es = cs.map (Entry.map .ok) ∧
      keys previous? records = .ok ((Entry.leaves cs).map (·.key)) ∧
      toEntries ⟨none, records⟩ ((Entry.leaves cs).map (·.key)) = cs ∧
      hasSubtrees ⟨none, records⟩ = cs.any Entry.isTree := by
  fun_induction ofEntries.leafRecords previous es generalizing previous? records with
  | case1 =>
    cases h
    exact ⟨[], rfl, rfl, rfl, rfl⟩
  | case2 => cases h
  | case3 previous l address rest ih =>
    obtain ⟨right, haddress, h⟩ := exists_of_bind_eq_ok h
    obtain ⟨record, hrecord, h⟩ := exists_of_bind_eq_ok h
    obtain ⟨records', hrecords, h⟩ := exists_of_bind_eq_ok h
    cases h
    cases haddress
    simp only [Entry.leaves_leaf, Entry.leaves_tree, List.mem_cons, forall_eq_or_imp,
      List.pairwise_cons] at hsorted hlt
    obtain ⟨hkey, hvalue, hright⟩ := leafRecord_ok hrecord hprevious fun p hp => (hlt p hp).1
    obtain ⟨cs, rfl, hkeys, hentries, hsubtrees⟩ := @ih (some l.key) records' hrecords rfl hsorted.2
      (by rintro _ ⟨⟩; exact hsorted.1)
    refine ⟨.leaf l :: .tree right :: cs, rfl, ?_, ?_, ?_⟩
    · unfold keys
      rw [hkey]
      simp only [bind, Except.bind, hkeys]
      rfl
    · simp_all [toEntries]
    · simp_all [hasSubtrees, Entry.isTree]
  | case4 previous l rest hrest ih =>
    obtain ⟨record, hrecord, h⟩ := exists_of_bind_eq_ok h
    obtain ⟨records', hrecords, h⟩ := exists_of_bind_eq_ok h
    cases h
    simp only [Entry.leaves_leaf, List.mem_cons, forall_eq_or_imp,
      List.pairwise_cons] at hsorted hlt
    obtain ⟨hkey, hvalue, hright⟩ := leafRecord_ok hrecord hprevious fun p hp => (hlt p hp).1
    obtain ⟨cs, rfl, hkeys, hentries, hsubtrees⟩ := @ih (some l.key) records' hrecords rfl hsorted.2
      (by rintro _ ⟨⟩; exact hsorted.1)
    refine ⟨.leaf l :: cs, rfl, ?_, ?_, ?_⟩
    · unfold keys
      rw [hkey]
      simp only [bind, Except.bind, hkeys]
      rfl
    · simp_all [toEntries]
    · simp_all [hasSubtrees, Entry.isTree]

theorem ofEntries_ok {es : List (Entry (Except Error Cid))} {record : NodeRecord}
    (h : ofEntries es = .ok record) (hsorted : (Entry.leaves es).Pairwise (·.key < ·.key)) :
    ∃ cs : List (Entry Cid), es = cs.map (Entry.map .ok) ∧
      keys none record.leaves = .ok ((Entry.leaves cs).map (·.key)) ∧
      record.toEntries ((Entry.leaves cs).map (·.key)) = cs ∧
      record.hasSubtrees = cs.any Entry.isTree := by
  unfold ofEntries at h
  split at h
  · next address rest =>
    obtain ⟨left, haddress, h⟩ := exists_of_bind_eq_ok h
    obtain ⟨records, hrecords, h⟩ := exists_of_bind_eq_ok h
    cases h
    cases haddress
    obtain ⟨cs, rfl, hkeys, hentries, hsubtrees⟩ :=
      @ofEntries.leafRecords_ok "" none _ _ hrecords rfl hsorted nofun
    refine ⟨.tree left :: cs, rfl, hkeys, ?_, ?_⟩
    · simp_all [toEntries]
    · simp_all [hasSubtrees, Entry.isTree]
  · obtain ⟨records, hrecords, h⟩ := exists_of_bind_eq_ok h
    cases h
    exact @ofEntries.leafRecords_ok "" none _ _ hrecords rfl hsorted nofun

theorem ofEntries.exists_leafRecord {l : Leaf} {right : Option Cid} (hvalid : Key.isValid l.key) :
    ∃ record, leafRecord previous l right = .ok record := by
  rw [leafRecord, if_pos hvalid]
  exact ⟨_, rfl⟩

theorem ofEntries.exists_leafRecords {es : List (Entry (Except Error Cid))}
    (hes : es.IsChain Entry.Apart) (hhead : ∀ e ∈ es.head?, e.isTree = false)
    (haddress : ∀ x, .tree x ∈ es → ∃ address, x = .ok address)
    (hvalid : ∀ l ∈ Entry.leaves es, Key.isValid l.key) :
    ∃ records, leafRecords previous es = .ok records := by
  fun_induction leafRecords previous es with
  | case1 => exact ⟨[], rfl⟩
  | case2 => cases hhead _ rfl
  | case3 previous l address rest ih =>
    rw [Entry.leaves_leaf, Entry.leaves_tree, List.forall_mem_cons] at hvalid
    obtain ⟨right, rfl⟩ := haddress address (by simp)
    have hrest := Entry.isTree_head?_of_isChain hes.tail
    obtain ⟨records, hrecords⟩ :=
      ih hes.tail.tail hrest (fun x hx => haddress x (by simp [hx])) hvalid.2
    obtain ⟨record, hrecord⟩ := @exists_leafRecord previous l (some right) hvalid.1
    refine ⟨record :: records, ?_⟩
    simp only [bind, Except.bind, hrecord, hrecords]
    rfl
  | case4 previous l rest hnot ih =>
    rw [Entry.leaves_leaf, List.forall_mem_cons] at hvalid
    have hrest := Entry.isTree_head?_of_ne hnot
    obtain ⟨records, hrecords⟩ := ih hes.tail hrest (fun x hx => haddress x (by simp [hx])) hvalid.2
    obtain ⟨record, hrecord⟩ := @exists_leafRecord previous l none hvalid.1
    refine ⟨record :: records, ?_⟩
    simp only [bind, Except.bind, hrecord, hrecords]
    rfl

theorem exists_ofEntries {es : List (Entry (Except Error Cid))} (hes : es.IsChain Entry.Apart)
    (haddress : ∀ x, .tree x ∈ es → ∃ address, x = .ok address)
    (hvalid : ∀ l ∈ Entry.leaves es, Key.isValid l.key) : ∃ record, ofEntries es = .ok record := by
  unfold ofEntries
  split
  · next x rest =>
    obtain ⟨left, rfl⟩ := haddress x List.mem_cons_self
    obtain ⟨records, hrecords⟩ := @ofEntries.exists_leafRecords "" rest hes.tail
      (Entry.isTree_head?_of_isChain hes) (fun x hx =>
        haddress x (List.mem_cons_of_mem _ hx)) hvalid
    refine ⟨⟨some left, records⟩, ?_⟩
    simp only [bind, Except.bind, hrecords]
    rfl
  · next hnot =>
    obtain ⟨records, hrecords⟩ :=
      @ofEntries.exists_leafRecords "" es hes (Entry.isTree_head?_of_ne hnot) haddress hvalid
    refine ⟨⟨none, records⟩, ?_⟩
    rw [hrecords]
    rfl

theorem ofEntries_inj {es es' : List (Entry (Except Error Cid))} {record : NodeRecord}
    (h : ofEntries es = .ok record) (h' : ofEntries es' = .ok record)
    (hsorted : (Entry.leaves es).Pairwise (·.key < ·.key))
    (hsorted' : (Entry.leaves es').Pairwise (·.key < ·.key)) : es = es' := by
  obtain ⟨cs, rfl, hkeys, hentries, -⟩ := ofEntries_ok h hsorted
  obtain ⟨cs', rfl, hkeys', hentries', -⟩ := ofEntries_ok h' hsorted'
  rw [hkeys] at hkeys'
  rw [Except.ok.inj hkeys', hentries'] at hentries
  rw [hentries]

def subtree (address : Option Cid) : List (Entry Cid) := (address.map Entry.tree).toList

theorem toEntries_eq {record : NodeRecord} {keys : List String} :
    record.toEntries keys = subtree record.left ++ (record.leaves.zip keys).flatMap fun p =>
      .leaf ⟨p.2, p.1.value⟩ :: subtree p.1.right :=
  rfl

theorem layerOf_ok {config : Config} {layer : Nat} {layer? : Option Nat} {keys : List String}
    (hkeys : ∀ key ∈ keys, config.layerOf key = layer)
    (hlayer : layer? = none ∨ layer? = some layer) :
    layerOf config layer? keys = .ok (if keys = [] then layer? else some layer) := by
  induction keys generalizing layer? with
  | nil => rfl
  | cons key keys ih =>
    simp only [List.mem_cons, forall_eq_or_imp] at hkeys
    have := ih hkeys.2 (.inr rfl)
    unfold layerOf
    rcases hlayer with rfl | rfl <;> simp [hkeys.1, this]

end NodeRecord

namespace NodeOf

/--
What is known of the layer of a node with the given leaves, all of them on `layer`, that was reached
with a hint.
-/
def knownLayer (hint : Hint) (layer : Nat) (ls : List Leaf) : Option Nat :=
  if ls = [] then hint.layer? else some layer

theorem ofStored_ok {config : Config} {address : Cid} {hint : Hint} {layer : Option Nat}
    {keys : List String} {record : NodeRecord}
    (hkeys : NodeRecord.keys none record.leaves = .ok keys)
    (hlayer : NodeRecord.layerOf config hint.layer? keys = .ok layer)
    (hzero : layer = some 0 → record.hasSubtrees = false) :
    ofStored config address hint record = .ok {
      entries := (record.toEntries keys).map (Entry.map (.unresolved · (hint.below layer)))
      layer
      address := some address } := by
  have hguard : (layer = some 0 && record.hasSubtrees) = false := by
    rw [Bool.and_eq_false_imp]
    simpa using hzero
  unfold ofStored ofRecord
  simp only [hkeys, hlayer, bind, Except.bind, hguard, Bool.false_eq_true, if_false, pure,
    Except.pure, Except.ok.injEq, NodeOf.mk.injEq, and_true]
  apply List.map_congr_left
  intro e _
  cases e <;> rfl

theorem ofStored_ofEntries {config : Config} {address : Cid} {hint : Hint} {layer : Nat}
    {es : List (Entry (Except Error Cid))} {record : NodeRecord}
    (h : NodeRecord.ofEntries es = .ok record)
    (hsorted : (Entry.leaves es).Pairwise (·.key < ·.key))
    (hlayer : ∀ l ∈ Entry.leaves es, config.layerOf l.key = layer)
    (hhint : hint.layer? = none ∨ hint.layer? = some layer)
    (hzero : ∀ e ∈ es, e.isTree → knownLayer hint layer (Entry.leaves es) ≠ some 0) :
    ∃ cs : List (Entry Cid), es = cs.map (Entry.map .ok) ∧
      ofStored config address hint record = .ok {
        entries :=
          cs.map (Entry.map (.unresolved · (hint.below (knownLayer hint layer (Entry.leaves es)))))
        layer := knownLayer hint layer (Entry.leaves es)
        address := some address } := by
  obtain ⟨cs, rfl, hkeys, hentries, hsubtrees⟩ := NodeRecord.ofEntries_ok h hsorted
  refine ⟨cs, rfl, ?_⟩
  simp only [Entry.leaves_map] at hlayer hzero ⊢
  have hknown : NodeRecord.layerOf config hint.layer? ((Entry.leaves cs).map (·.key)) =
      .ok (knownLayer hint layer (Entry.leaves cs)) := by
    rw [NodeRecord.layerOf_ok _ hhint]
    · simp [knownLayer]
    · simpa using hlayer
  rw [ofStored_ok hkeys hknown, hentries]
  intro hlayerZero
  rw [hsubtrees, List.any_eq_false]
  intro e he htree
  exact hzero (e.map .ok) (List.mem_map_of_mem he) (by simpa using htree) hlayerZero

end NodeOf

end MerkleSearch
