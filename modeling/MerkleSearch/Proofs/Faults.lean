import MerkleSearch.Proofs.Resolve

/-!
This module contains what can go wrong when a node is fetched. Apart from the end of a descent of
unknown depth, it is the store or the block that is at fault, and never how the nodes of a tree go
together.
-/

namespace MerkleSearch

theorem of_bind_eq_error {ε α β : Type} {x : Except ε α} {f : α → Except ε β} {e : ε}
    (h : x >>= f = .error e) :
    x = .error e ∨ ∃ a, x = .ok a ∧ f a = .error e := by
  cases x with
  | error e' =>
    cases h
    exact .inl rfl
  | ok a => exact .inr ⟨a, rfl, h⟩

theorem of_run_bind_eq_error {α β : Type} {x : ExceptT Error Id α} {f : α → ExceptT Error Id β}
    {e : Error} (h : (x >>= f).run = .error e) :
    x.run = .error e ∨ ∃ a, x.run = .ok a ∧ (f a).run = .error e := by
  cases hx : x.run with
  | error e' =>
    rw [show x = MonadExcept.throw e' from hx] at h
    cases h
    exact .inl rfl
  | ok a =>
    rw [show x = Pure.pure a from hx] at h
    exact .inr ⟨a, rfl, h⟩

inductive Defect.InRecord : Defect → Prop
  | sharedTooLong (shared : UInt64) : InRecord (.sharedTooLong shared)
  | keyNotText : InRecord .keyNotText
  | invalidKey (key : String) : InRecord (.invalidKey key)
  | keysOutOfOrder (key next : String) : InRecord (.keysOutOfOrder key next)
  | keyOnOtherLayer (key : String) (keyLayer layer : Nat) :
    InRecord (.keyOnOtherLayer key keyLayer layer)
  | subtreeOnLayerZero : InRecord .subtreeOnLayerZero

inductive Error.InFetch : Error → Prop
  | missingBlock (address : Cid) : InFetch (.missingBlock address)
  | storageUnavailable (reason : String) : InFetch (.storageUnavailable reason)
  | addressMismatch (address computed : Cid) :
    InFetch (.malformedNode (.addressMismatch address computed))
  | codec (fault : CodecFault) : InFetch (.ofCodec fault)
  | record {defect : Defect} (h : defect.InRecord) : InFetch (.malformedNode defect)

variable {config : Config} {store : Blockstore Id} {address : Cid} {hint : Hint}
variable {record : NodeRecord} {defect : Defect} {t : Subtree} {e : Error}

theorem Error.InFetch.of_malformedNode (h : (malformedNode defect).InFetch) :
    defect = .undecodable ∨ (∃ address computed, defect = .addressMismatch address computed) ∨
      defect.InRecord := by
  generalize heq : malformedNode defect = e at h
  cases h with
  | missingBlock => cases heq
  | storageUnavailable => cases heq
  | addressMismatch address computed =>
    cases heq
    exact .inr (.inl ⟨address, computed, rfl⟩)
  | codec fault =>
    cases fault with
    | encoding => cases heq
    | undecodable =>
      cases heq
      exact .inl rfl
  | record h =>
    cases heq
    exact .inr (.inr h)

theorem LeafRecord.inRecord_of_key_error {leaf : LeafRecord} {previous : Option String}
    (h : leaf.key previous = .error defect) : defect.InRecord := by
  unfold key at h
  dsimp only at h
  split at h
  · cases h
    exact .sharedTooLong _
  · split at h
    · split at h
      · cases h
        exact .invalidKey _
      · split at h
        · split at h
          · cases h
            exact .keysOutOfOrder _ _
          · cases h
        · cases h
    · cases h
      exact .keyNotText

namespace NodeRecord

theorem inRecord_of_keys_error {previous : Option String} {leaves : List LeafRecord}
    (h : keys previous leaves = .error defect) : defect.InRecord := by
  induction leaves generalizing previous with
  | nil => cases h
  | cons leaf leaves ih =>
    unfold keys at h
    rcases of_bind_eq_error h with h | ⟨key, -, h⟩
    · exact LeafRecord.inRecord_of_key_error h
    · rcases of_bind_eq_error h with h | ⟨_, -, h⟩
      · exact ih h
      · cases h

theorem inRecord_of_layerOf_error {layer : Option Nat} {keys : List String}
    (h : layerOf config layer keys = .error defect) : defect.InRecord := by
  induction keys generalizing layer with
  | nil => cases h
  | cons key keys ih =>
    unfold layerOf at h
    dsimp only at h
    split at h
    · split at h
      · cases h
        exact .keyOnOtherLayer _ _ _
      · exact ih h
    · exact ih h

end NodeRecord

theorem NodeOf.inRecord_of_ofStored_error
    (h : ofStored config address hint record = .error defect) :
    defect.InRecord := by
  unfold ofStored at h
  rcases of_bind_eq_error h with h | ⟨_, -, h⟩
  · unfold ofRecord at h
    rcases of_bind_eq_error h with h | ⟨keys, -, h⟩
    · exact NodeRecord.inRecord_of_keys_error h
    · rcases of_bind_eq_error h with h | ⟨layer, -, h⟩
      · exact NodeRecord.inRecord_of_layerOf_error h
      · split at h
        · cases h
          exact .subtreeOnLayerZero
        · cases h
  · cases h

theorem Blockstore.inFetch_of_read_error (h : (store.read address).run = .error e) : e.InFetch := by
  unfold read ask at h
  generalize store.get? address = answer at h
  cases answer with
  | error outage =>
    cases h
    exact .storageUnavailable _
  | ok found =>
    cases found with
    | none =>
      cases h
      exact .missingBlock _
    | some bytes => cases h

theorem Subtree.inFetch_of_resolve_error (h : (t.resolve store config).run = .error e) :
    e.InFetch ∨ e = .malformedNode .endlessDescent ∧
    ∃ address, t = .unresolved address (.unknown 0) := by
  cases t with
  | resolved node => cases h
  | unresolved address hint =>
    unfold resolve at h
    dsimp only at h
    split at h
    · next hhint =>
      cases h
      rw [hhint]
      exact .inr ⟨rfl, address, rfl⟩
    · apply Or.inl
      rcases of_run_bind_eq_error h with h | ⟨bytes, -, h⟩
      · exact Blockstore.inFetch_of_read_error h
      rcases of_run_bind_eq_error h with h | ⟨computed, -, h⟩
      · obtain ⟨fault, -, rfl⟩ := mapError_eq_error.1 h
        exact .codec fault
      split at h
      · cases h
        exact .addressMismatch _ _
      rcases of_run_bind_eq_error h with h | ⟨record, -, h⟩
      · obtain ⟨fault, -, rfl⟩ := mapError_eq_error.1 h
        exact .codec fault
      split at h
      · cases h
      · next hdefect =>
        cases h
        exact .record (NodeOf.inRecord_of_ofStored_error hdefect)

end MerkleSearch
