import MerkleSearch.Proofs.Holds

/-!
This module contains what is read of a subtree that holds a list of leaves. As long as the store
does not answer with a block of another content, the node that comes back holds the same leaves; its
subtrees are as good as those of the node that was written.
-/

namespace MerkleSearch

theorem exists_of_run_bind_eq_ok {α β : Type} {x : ExceptT Error Id α}
    {f : α → ExceptT Error Id β} {b : β} (h : (x >>= f).run = .ok b) :
    ∃ a, x.run = .ok a ∧ (f a).run = .ok b := by
  cases hx : x.run with
  | error e =>
    rw [show x = MonadExcept.throw e from hx] at h
    cases h
  | ok a =>
    rw [show x = Pure.pure a from hx] at h
    exact ⟨a, rfl, h⟩

theorem liftM_ok {m : Type → Type} [Monad m] {α : Type} (a : α) :
    (liftM (Except.ok a : Except Error α) : ExceptT Error m α) = pure a :=
  rfl

variable {config : Config} {layer height : Nat} {ls ts : List Leaf} {archive : Archive config}
variable {store : Blockstore Id} {t : Subtree} {address : Cid} {hint : Hint}

namespace Subtree

theorem resolve_unresolved {n : { node : Node // (unresolved address hint).Covers node }}
    (h : ((unresolved address hint).resolve store config).run = .ok n) :
    hint ≠ .unknown 0 ∧ ∃ bytes record, (store.get? address).run = .ok (some bytes) ∧
      config.codec.address bytes = .ok address ∧ config.codec.decode bytes = .ok record ∧
      NodeOf.ofStored config address hint record = .ok n.val := by
  unfold resolve at h
  dsimp only at h
  split at h
  · cases h
  · next hhint =>
    obtain ⟨bytes, hread, h⟩ := exists_of_run_bind_eq_ok h
    obtain ⟨computed, haddress, h⟩ := exists_of_run_bind_eq_ok h
    split at h
    · obtain ⟨_, hthrow, _⟩ := exists_of_run_bind_eq_ok h
      cases hthrow
    · next hcomputed =>
      cases not_not.1 hcomputed
      obtain ⟨record, hdecode, h⟩ := exists_of_run_bind_eq_ok h
      refine ⟨hhint, bytes, record, Blockstore.run_read.1 hread, mapError_eq_ok.1 haddress,
        mapError_eq_ok.1 hdecode, ?_⟩
      split at h
      · next node hnode =>
        cases h
        exact hnode
      · cases h

theorem address_of_resolve {n : { node : Node // t.Covers node }}
    (hn : (t.resolve store config).run = .ok n) :
    (resolved n.val).address config = t.address config := by
  cases t with
  | resolved node =>
    cases hn
    rfl
  | unresolved address hint =>
    obtain ⟨-, bytes, record, -, -, -, hstored⟩ := resolve_unresolved hn
    obtain ⟨node, hnode, h⟩ := exists_of_bind_eq_ok hstored
    have haddress : n.val.address = some address := by rw [← Except.ok.inj h]
    rw [address_resolved_some haddress]
    rfl

theorem resolve_of_get? {bytes : Bytes} {record : NodeRecord} (hhint : hint ≠ .unknown 0)
    (hget : (store.get? address).run = .ok (some bytes))
    (haddress : config.codec.address bytes = .ok address)
    (hdecode : config.codec.decode bytes = .ok record) :
    (∀ node, NodeOf.ofStored config address hint record = .ok node →
      ∃ covers, ((unresolved address hint).resolve store config).run = .ok ⟨node, covers⟩) ∧
    ∀ defect, NodeOf.ofStored config address hint record = .error defect →
      ((unresolved address hint).resolve store config).run = .error (.malformedNode defect) := by
  have hread : store.read address = pure bytes := Blockstore.run_read.2 hget
  unfold resolve
  dsimp only
  rw [dif_neg hhint, hread, pure_bind, mapError_eq_ok.2 haddress, liftM_ok, pure_bind,
    if_neg (not_not.2 rfl), mapError_eq_ok.2 hdecode, liftM_ok, pure_bind]
  split
  · next node hnode =>
    constructor
    · intro found hfound
      cases hnode.symm.trans hfound
      exact ⟨covers_ofStored hhint hnode, rfl⟩
    · intro defect herror
      cases hnode.symm.trans herror
  · next defect herror =>
    constructor
    · intro node hnode
      cases herror.symm.trans hnode
    · intro found hfound
      cases herror.symm.trans hfound
      rfl

theorem exists_resolve_unresolved {bytes : Bytes} {record : NodeRecord} {node : Node}
    (hhint : hint ≠ .unknown 0) (hget : (store.get? address).run = .ok (some bytes))
    (haddress : config.codec.address bytes = .ok address)
    (hdecode : config.codec.decode bytes = .ok record)
    (hnode : NodeOf.ofStored config address hint record = .ok node) :
    ∃ covers, ((unresolved address hint).resolve store config).run = .ok ⟨node, covers⟩ :=
  (resolve_of_get? hhint hget haddress hdecode).1 node hnode

inductive Readable (store : Blockstore Id) (config : Config) : Subtree → Prop
  | intro {t : Subtree} (n : { node : Node // t.Covers node })
    (h : (t.resolve store config).run = .ok n)
    (below : ∀ c, .tree c ∈ n.val.entries → Readable store config c) : Readable store config t

theorem Readable.child (h : t.Readable store config) {n : { node : Node // t.Covers node }}
    (hn : (t.resolve store config).run = .ok n) {c : Subtree} (hc : .tree c ∈ n.val.entries) :
    c.Readable store config := by
  obtain ⟨n', hn', below⟩ := h
  rw [hn] at hn'
  cases hn'
  exact below c hc

def AllReadable (store : Blockstore Id) (config : Config) (es : List NodeEntry) : Prop :=
  ∀ c, .tree c ∈ es → c.Readable store config

theorem readable_resolved {node : Node} (h : AllReadable store config node.entries) :
    (resolved node).Readable store config :=
  .intro ⟨node, covers_resolved node⟩ rfl h

end Subtree

theorem Hint.Fits.layer?_eq (h : hint.Fits config layer ls) :
    hint.layer? = none ∨ hint.layer? = some layer := by
  rcases h with rfl | h
  · exact .inr rfl
  · exact .inl h.1

theorem Hint.Fits.ne_unknown_zero (h : hint.Fits config layer ls) : hint ≠ .unknown 0 := by
  rcases h with rfl | ⟨-, hne, -⟩
  · exact nofun
  · exact hne

namespace Archive

theorem agrees_of_blocks
    (h : ∀ address bytes, (store.get? address).run = .ok (some bytes) → archive.blocks bytes) :
    archive.Agrees store :=
  fun address bytes block hget hblock haddress =>
    archive.injective bytes block (h address bytes hget) hblock haddress

theorem Has.exists_block (h : archive.Has (layer + 1) ls) :
    ∃ record block,
      NodeRecord.ofEntries (entryAddresses config (canonicalNode config layer ls).entries) =
        .ok record ∧
      config.codec.decode block.bytes = .ok record ∧ archive.blocks block.bytes ∧
      config.codec.address block.bytes = .ok block.address ∧
      canonicalBlock config layer ls = .ok block := by
  obtain ⟨⟨block, hblock, hmem⟩, -⟩ := h
  obtain ⟨record, hrecord, hencoded⟩ := exists_of_bind_eq_ok hblock
  obtain ⟨hencode, haddress⟩ := NodeCodec.block_eq_ok.1 hencoded
  exact ⟨record, block, hrecord, archive.decode record _ hmem hencode, hmem, haddress, hblock⟩

theorem Agrees.decode_eq (hstore : archive.Agrees store) (h : archive.Has (layer + 1) ls)
    {bytes : Bytes} (hget : (store.get? address).run = .ok (some bytes))
    (haddress : config.codec.address bytes = .ok address)
    (hcanonical : (canonical config (layer + 1) ls).address config = .ok address) :
    ∃ record,
      NodeRecord.ofEntries (entryAddresses config (canonicalNode config layer ls).entries) =
        .ok record ∧
      config.codec.decode bytes = .ok record := by
  obtain ⟨record, block, hrecord, hdecode, hmem, hwritten, hblock⟩ := h.exists_block
  rw [address_canonical, hblock] at hcanonical
  cases hcanonical
  have : bytes = block.bytes := hstore _ _ _ hget hmem ⟨_, haddress, hwritten⟩
  rw [this]
  exact ⟨record, hrecord, hdecode⟩

end Archive

theorem Archive.Has.layer_le (h : archive.Has (layer + 1) ls) :
    ∀ l ∈ ls, config.layerOf l.key ≤ layer := by
  induction layer generalizing ls with
  | zero =>
    intro l hl
    rcases Leaves.mem_groups config 0 hl with ⟨_, hlayer⟩ | ⟨ts, hts, _⟩
    · exact hlayer.le
    · exact (h.2 ts hts).elim
  | succ layer ih =>
    intro l hl
    rcases Leaves.mem_groups config (layer + 1) hl with ⟨_, hlayer⟩ | ⟨ts, hts, hl⟩
    · exact hlayer.le
    · exact (ih (h.2 ts hts) l hl).trans (Nat.le_succ layer)

theorem Subtree.Holds.layer_le (h : t.Holds archive (layer + 1) ls) :
    ∀ l ∈ ls, config.layerOf l.key ≤ layer := by
  match t, h with
  | .resolved node, h => exact h.spells.layer_le
  | .unresolved address hint, h => exact h.2.1.layer_le

theorem entryAddresses_canonicalNode :
    entryAddresses config (canonicalNode config layer ls).entries =
      (Leaves.groups config layer ls).map (Entry.map fun ts =>
        (canonical config layer ts).address config) := by
  rw [entryAddresses_eq_map, canonicalNode, List.map_map, Entry.map_comp_map]
  rfl

theorem Hint.Fits.knownLayer_eq (h : hint.Fits config layer ls)
    (hle : ∀ l ∈ ls, config.layerOf l.key ≤ layer) :
    NodeOf.knownLayer hint layer (Entry.leaves (Leaves.groups config layer ls)) = some layer ∨
      NodeOf.knownLayer hint layer (Entry.leaves (Leaves.groups config layer ls)) = none ∧ ls = [] ∧
      layer = 0 := by
  unfold NodeOf.knownLayer
  split
  · next hnil =>
    rcases h with rfl | ⟨hnone, -, ⟨hls, hzero⟩ | ⟨l, hl, hlayer⟩⟩
    · exact .inl rfl
    · exact .inr ⟨hnone, hls, hzero⟩
    · rw [(Leaves.spells_groups hle).leaves_eq, List.filter_eq_nil_iff] at hnil
      simpa [hlayer] using hnil l hl
  · exact .inl rfl

theorem Archive.Has.unresolved (h : archive.Has (layer + 1) ls)
    (hhint : hint.Fits config layer ls) (hts : .tree ts ∈ Leaves.groups config layer ls)
    (haddress : (canonical config layer ts).address config = .ok address) :
    Subtree.Holds archive layer
      (.unresolved address
        (hint.below (NodeOf.knownLayer hint layer (Entry.leaves (Leaves.groups config layer ls)))))
      ts := by
  have hhas := h.2 ts hts
  cases layer with
  | zero => exact hhas.elim
  | succ layer =>
    refine ⟨haddress, hhas, ?_⟩
    rcases hhint.knownLayer_eq h.layer_le with hknown | ⟨_, _, hzero⟩
    · rw [hknown]
      exact .inl rfl
    · cases hzero

theorem Hint.Fits.knownLayer_ne_zero (h : hint.Fits config layer ls)
    (hle : ∀ l ∈ ls, config.layerOf l.key ≤ layer)
    (hts : .tree ts ∈ Leaves.groups config layer ls) :
    NodeOf.knownLayer hint layer (Entry.leaves (Leaves.groups config layer ls)) ≠ some 0 := by
  obtain ⟨_, rfl, hne, hlow, -⟩ := (Leaves.spells_groups hle).of_tree_mem hts
  obtain ⟨l, hl⟩ := List.exists_mem_of_ne_nil _ hne
  intro hzero
  rcases h.knownLayer_eq hle with hknown | ⟨hknown, -⟩
  · rw [hknown, Option.some.injEq] at hzero
    exact Nat.not_lt_zero _ (hzero ▸ hlow l hl)
  · rw [hknown] at hzero
    cases hzero

theorem Archive.Has.ofStored (h : archive.Has (layer + 1) ls) (hls : Listing ls)
    (hhint : hint.Fits config layer ls) {record : NodeRecord}
    (hrecord : NodeRecord.ofEntries
      (entryAddresses config (canonicalNode config layer ls).entries) = .ok record) :
    ∃ cs : List (Entry Cid),
      (Leaves.groups config layer ls).map (Entry.map fun ts =>
        (canonical config layer ts).address config) = cs.map (Entry.map .ok) ∧
      NodeOf.ofStored config address hint record = .ok {
        entries := cs.map (Entry.map (.unresolved ·
          (hint.below
            (NodeOf.knownLayer hint layer (Entry.leaves (Leaves.groups config layer ls))))))
        layer := NodeOf.knownLayer hint layer (Entry.leaves (Leaves.groups config layer ls))
        address := some address } := by
  rw [entryAddresses_canonicalNode] at hrecord
  have hleaves := (Leaves.spells_groups h.layer_le).leaves_eq
  have hstored := @NodeOf.ofStored_ofEntries config address hint layer _ _ hrecord
  rw [Entry.leaves_map] at hstored
  apply hstored
  · rw [hleaves]
    exact hls.sorted.sublist List.filter_sublist
  · rw [hleaves]
    simp
  · exact hhint.layer?_eq
  · intro e he htree
    obtain ⟨_ | _, hts, rfl⟩ := List.mem_map.1 he
    · exact hhint.knownLayer_ne_zero h.layer_le hts
    · cases htree

theorem Subtree.Holds.of_resolve (h : t.Holds archive (layer + 1) ls) (hls : Listing ls)
    (hstore : archive.Agrees store) {n : { node : Node // t.Covers node }}
    (hn : (t.resolve store config).run = .ok n) :
    n.val.Holds archive (Subtree.Holds archive layer) layer ls := by
  match t, h with
  | .resolved node, h =>
    unfold resolve at hn
    cases hn
    exact h
  | .unresolved address hint, ⟨haddress, hhas, hhint⟩ =>
    obtain ⟨-, bytes, record, hget, hbytes, hdecode, hnode⟩ := resolve_unresolved hn
    obtain ⟨_, hrecord, hwritten⟩ := hstore.decode_eq hhas hget hbytes haddress
    rw [hdecode] at hwritten
    cases hwritten
    obtain ⟨cs, hcs, hstored⟩ := hhas.ofStored hls hhint hrecord
    rw [hnode] at hstored
    rw [Except.ok.inj hstored]
    refine ⟨?_, ?_, rfl, ?_, ?_⟩
    · rcases hhint.knownLayer_eq hhas.layer_le with hknown | ⟨hknown, rfl, rfl⟩
      · exact .inl hknown
      · exact .inr ⟨hknown, rfl, hhas⟩
    · rintro _ ⟨⟩
      exact ⟨haddress, hhas⟩
    · rw [Entry.isChain_apart_map, ← Entry.isChain_apart_map Except.ok, ← hcs,
        Entry.isChain_apart_map]
      exact Leaves.groups_apart
    · have hsubtrees := Entry.forall₂_of_map_eq hcs.symm fun c ts heq _ hts =>
        hhas.unresolved hhint hts heq.symm
      apply (Leaves.spells_groups hhas.layer_le).of_forall₂
      · exact List.forall₂_map_left_iff.2 (hsubtrees.imp fun _ _ => Entry.Rel.map_left)
      · rintro t _ ts ht rfl - -
        exact ht

theorem Subtree.Holds.resolve (h : t.Holds archive (layer + 1) ls) (hls : Listing ls)
    (hstore : archive.Agrees store) :
    Returns (t.Readable store config) (t.resolve store config) fun n =>
      n.val.Holds archive (Subtree.Holds archive layer) layer ls ∧
        (t.Readable store config → ∀ c, .tree c ∈ n.val.entries → c.Readable store config) := by
  unfold Returns Settles
  split
  · next n hn => exact ⟨h.of_resolve hls hstore hn, fun hreadable c => hreadable.child hn⟩
  · next e he =>
    apply Or.inr
    rintro ⟨n, hn, -⟩
    rw [he] at hn
    cases hn

theorem Subtree.Holds.exists_resolve (h : t.Holds archive (layer + 1) ls) (hls : Listing ls)
    (hget : ∀ block, canonicalBlock config layer ls = .ok block →
      (store.get? block.address).run = .ok (some block.bytes)) :
    ∃ n, (t.resolve store config).run = .ok n := by
  match t, h with
  | .resolved node, _ => exact ⟨⟨node, covers_resolved node⟩, rfl⟩
  | .unresolved address hint, ⟨haddress, hhas, hhint⟩ =>
    obtain ⟨record, block, hrecord, hdecode, -, hwritten, hblock⟩ := hhas.exists_block
    rw [address_canonical, hblock] at haddress
    cases haddress
    obtain ⟨cs, -, hstored⟩ := hhas.ofStored hls hhint hrecord
    obtain ⟨covers, hn⟩ :=
      exists_resolve_unresolved hhint.ne_unknown_zero (hget _ hblock) hwritten hdecode hstored
    exact ⟨_, hn⟩

theorem NodeOf.Holds.entries_eq_nil {node : Node}
    (h : node.Holds archive (Subtree.Holds archive 0) 0 ls) (hleaves : node.leaves = []) :
    node.entries = [] := by
  rw [List.eq_nil_iff_forall_not_mem]
  intro e he
  cases e with
  | tree t =>
    obtain ⟨_, ht, -⟩ := h.spells.of_tree_mem he
    exact ht
  | leaf l =>
    have hmem : l ∈ node.leaves := List.mem_filterMap.2 ⟨_, he, rfl⟩
    rw [hleaves] at hmem
    cases hmem

theorem NodeOf.Holds.layerOf {node : Node}
    (h : node.Holds archive (Subtree.Holds archive layer) layer ls) (covers : t.Covers node) :
    t.layerOf store config node covers = pure layer := by
  unfold Subtree.layerOf Subtree.layer?
  split
  · next hlayer =>
    rcases h.layer_eq with hsome | ⟨hnone, -⟩
    · rw [hlayer, Option.some.injEq] at hsome
      rw [hsome]
      rfl
    · rw [hlayer] at hnone
      cases hnone
  · next l ls hlayer hleaves =>
    have hmem : l ∈ node.leaves := by
      rw [hleaves]
      exact List.mem_cons_self
    rw [(h.mem_leaves.1 hmem).2]
    rfl
  · next hlayer hleaves =>
    rcases h.layer_eq with hsome | ⟨-, rfl, -⟩
    · rw [hlayer] at hsome
      cases hsome
    · have hentries := h.entries_eq_nil hleaves
      obtain ⟨es, _, _, _⟩ := node
      cases hentries
      rfl

end MerkleSearch
