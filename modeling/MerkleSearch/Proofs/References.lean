import MerkleSearch.Proofs.Blocks
import MerkleSearch.Proofs.Visits

/-!
This module contains what the difference of two trees says about what they refer to: the addresses
of their nodes and the values of their leaves, which may be the same. An address that only one of
the trees refers to comes up in the comparison on one side only, so that no note about it is ever
taken back.
-/

namespace MerkleSearch

variable {config : Config} {archive : Archive config} {ls : List Leaf}
variable {us vs ps qs : List (Entry Extent)} {layer : Nat} {address : Cid} {l : Leaf}
variable {block : Block} {e : Extent}

namespace Extent

def Refers (config : Config) (us : List (Entry Extent)) (address : Cid) : Prop :=
  Names config us address ∨ ∃ l ∈ content us, l.value = address

theorem names_append :
    Names config (us ++ vs) address ↔ Names config us address ∨ Names config vs address := by
  simp only [Names, nodes_append, List.mem_append, or_and_right, exists_or]

theorem names_tree (h : canonicalBlock config layer ls = .ok block) :
    Names config (.tree ⟨layer + 1, ls⟩ :: us) address ↔
      block.address = address ∨ Names config (entries config ⟨layer + 1, ls⟩ ++ us) address := by
  constructor
  · rintro ⟨e, he, other, hother, rfl⟩
    rw [nodes_tree, List.mem_cons] at he
    rcases he with rfl | he
    · cases h.symm.trans hother
      exact .inl rfl
    · exact .inr ⟨e, he, other, hother, rfl⟩
  · rintro (rfl | hinner)
    · exact .head h
    · exact hinner.tail

theorem refers_nil : ¬Refers config [] address := by
  simp [Refers, Names]

theorem refers_append :
    Refers config (us ++ vs) address ↔ Refers config us address ∨ Refers config vs address := by
  simp only [Refers, names_append, content_append, List.mem_append, or_and_right, exists_or]
  exact or_or_or_comm

theorem refers_leaf :
    Refers config (.leaf l :: us) address ↔ l.value = address ∨ Refers config us address := by
  simp only [Refers, Names.leaf_iff, content_leaf, List.mem_cons, exists_eq_or_imp]
  tauto

theorem refers_tree (h : canonicalBlock config layer ls = .ok block) :
    Refers config (.tree ⟨layer + 1, ls⟩ :: us) address ↔
      block.address = address ∨ Refers config (entries config ⟨layer + 1, ls⟩ ++ us) address := by
  rw [Refers, Refers, names_tree h, content_enter, or_assoc]

theorem refers_skip (h : ¬Refers config (.tree e :: vs) address) :
    Refers config (.tree e :: us) address ↔ Refers config us address := by
  rw [← List.singleton_append, refers_append] at h ⊢
  simp [not_or.1 h]

end Extent

namespace Diff

variable {d d' : Diff} {p : Prop} {key : String} {prev value gone : Cid}

theorem mem_newCids : address ∈ d.newCids ↔ address ∈ d.newValues ∨ address ∈ d.newBlocks := by
  rw [newCids, BlockMap.addresses, Std.TreeSet.mem_insertMany_list, Std.TreeMap.contains_keys]
  rfl

/--
An address that has been noted as new, if `p`, and never as gone.
-/
structure Gained (d : Diff) (address : Cid) (p : Prop) : Prop where
  new : address ∈ d.newCids ↔ p
  removed : address ∉ d.removed

/--
An address that has been noted as gone, if `p`, and never as new.
-/
structure Lost (d : Diff) (address : Cid) (p : Prop) : Prop where
  new : address ∉ d.newCids
  removed : address ∈ d.removed ↔ p

namespace Gained

theorem empty : ({} : Diff).Gained address False := by
  constructor <;> simp [mem_newCids]

theorem of_iff {q : Prop} (h : d.Gained address p) (hiff : p ↔ q) : d.Gained address q :=
  ⟨h.new.trans hiff, h.removed⟩

theorem addLeaf (h : d.Gained address p) :
    (d.addLeaf l).Gained address (l.value = address ∨ p) := by
  have hnew := h.new
  rw [mem_newCids] at hnew
  unfold Diff.addLeaf
  dsimp only
  split
  · next hmem =>
    have hne : l.value ≠ address := fun heq => h.removed (heq ▸ hmem)
    constructor
    · simp [mem_newCids, hnew, hne]
    · exact fun hgone => h.removed (Std.TreeSet.mem_of_mem_erase hgone)
  · refine ⟨?_, h.removed⟩
    simp [mem_newCids, or_assoc, hnew]

theorem deleteLeaf (h : d.Gained address p) (hne : l.value ≠ address) :
    (d.deleteLeaf l).Gained address p := by
  have hnew := h.new
  rw [mem_newCids] at hnew
  unfold Diff.deleteLeaf
  dsimp only
  split
  · refine ⟨?_, h.removed⟩
    simp [mem_newCids, hne, hnew]
  · refine ⟨h.new, ?_⟩
    simp [hne, h.removed]

theorem updateLeaf (h : d.Gained address p) (hne : prev ≠ address) :
    (d.updateLeaf key prev value).Gained address (value = address ∨ p) := by
  have hnew := h.new
  rw [mem_newCids] at hnew
  unfold Diff.updateLeaf
  split
  · next heq =>
    rw [← heq]
    exact h.of_iff (by simp [hne])
  · constructor
    · simp [mem_newCids, or_assoc, hnew]
    · simp [hne, h.removed]

theorem addNode (h : d.Gained address p) :
    (d.addNode block).Gained address (block.address = address ∨ p) := by
  have hnew := h.new
  rw [mem_newCids] at hnew
  unfold Diff.addNode
  split
  · next hmem =>
    have hne : block.address ≠ address := fun heq => h.removed (heq ▸ hmem)
    constructor
    · simp [mem_newCids, hnew, hne]
    · exact fun hgone => h.removed (Std.TreeSet.mem_of_mem_erase hgone)
  · refine ⟨?_, h.removed⟩
    simp [mem_newCids, or_left_comm, hnew]

theorem deleteNode (h : d.Gained address p) (hne : gone ≠ address) :
    (d.deleteNode gone).Gained address p := by
  have hnew := h.new
  rw [mem_newCids] at hnew
  unfold Diff.deleteNode
  split
  · refine ⟨?_, h.removed⟩
    simp [mem_newCids, hne, hnew]
  · refine ⟨h.new, ?_⟩
    simp [hne, h.removed]

end Gained

namespace Lost

theorem empty : ({} : Diff).Lost address False := by
  constructor <;> simp [mem_newCids]

theorem of_iff {q : Prop} (h : d.Lost address p) (hiff : p ↔ q) : d.Lost address q :=
  ⟨h.new, h.removed.trans hiff⟩

theorem addLeaf (h : d.Lost address p) (hne : l.value ≠ address) :
    (d.addLeaf l).Lost address p := by
  have hnew := h.new
  rw [mem_newCids] at hnew
  unfold Diff.addLeaf
  dsimp only
  split
  · refine ⟨h.new, ?_⟩
    simp [hne, h.removed]
  · refine ⟨?_, h.removed⟩
    simpa [mem_newCids, hne] using hnew

theorem deleteLeaf (h : d.Lost address p) :
    (d.deleteLeaf l).Lost address (l.value = address ∨ p) := by
  have hnew := h.new
  rw [mem_newCids, not_or] at hnew
  unfold Diff.deleteLeaf
  dsimp only
  split
  · next hmem =>
    have hne : l.value ≠ address := fun heq => hnew.1 (heq ▸ hmem)
    constructor
    · simp [mem_newCids, hnew]
    · simp [hne, h.removed]
  · refine ⟨h.new, ?_⟩
    simp [h.removed]

theorem updateLeaf (h : d.Lost address p) (hne : value ≠ address) :
    (d.updateLeaf key prev value).Lost address (prev = address ∨ p) := by
  have hnew := h.new
  rw [mem_newCids, not_or] at hnew
  unfold Diff.updateLeaf
  split
  · next heq =>
    rw [heq]
    exact h.of_iff (by simp [hne])
  · constructor
    · simp [mem_newCids, hne, hnew]
    · simp [h.removed]

theorem addNode (h : d.Lost address p) (hne : block.address ≠ address) :
    (d.addNode block).Lost address p := by
  have hnew := h.new
  rw [mem_newCids] at hnew
  unfold Diff.addNode
  split
  · refine ⟨h.new, ?_⟩
    simp [hne, h.removed]
  · refine ⟨?_, h.removed⟩
    simpa [mem_newCids, hne] using hnew

theorem deleteNode (h : d.Lost address p) :
    (d.deleteNode gone).Lost address (gone = address ∨ p) := by
  have hnew := h.new
  rw [mem_newCids, not_or] at hnew
  unfold Diff.deleteNode
  split
  · next hmem =>
    have hne : gone ≠ address := fun heq => hnew.2 (heq ▸ hmem)
    constructor
    · simp [mem_newCids, hnew]
    · simp [hne, h.removed]
  · refine ⟨h.new, ?_⟩
    simp [h.removed]

end Lost

theorem Compared.gained (h : Compared config ps qs d d') (hps : ¬Extent.Refers config ps address)
    (hd : d.Gained address p) : d'.Gained address (Extent.Refers config qs address ∨ p) := by
  induction h generalizing p with
  | done => exact hd.of_iff (by simp [Extent.refers_nil])
  | newLeaf _ _ ih =>
    apply (ih hps hd.addLeaf).of_iff
    rw [Extent.refers_leaf, or_left_comm, or_assoc]
  | goneLeaf _ _ ih =>
    rw [Extent.refers_leaf, not_or] at hps
    exact ih hps.2 (hd.deleteLeaf hps.1)
  | sameKey _ _ ih =>
    rw [Extent.refers_leaf, not_or] at hps
    apply (ih hps.2 (hd.updateLeaf hps.1)).of_iff
    rw [Extent.refers_leaf, or_left_comm, or_assoc]
  | newNode hblock _ ih =>
    apply (ih hps hd.addNode).of_iff
    rw [Extent.refers_tree hblock, or_left_comm, or_assoc]
  | goneNode hblock _ ih =>
    rw [Extent.refers_tree hblock, not_or] at hps
    exact ih hps.2 (hd.deleteNode hps.1)
  | skip _ ih =>
    rw [Extent.refers_skip hps]
    rw [← List.singleton_append, Extent.refers_append, not_or] at hps
    exact ih hps.2 hd

theorem Compared.lost (h : Compared config ps qs d d') (hqs : ¬Extent.Refers config qs address)
    (hd : d.Lost address p) : d'.Lost address (Extent.Refers config ps address ∨ p) := by
  induction h generalizing p with
  | done => exact hd.of_iff (by simp [Extent.refers_nil])
  | newLeaf _ _ ih =>
    rw [Extent.refers_leaf, not_or] at hqs
    exact ih hqs.2 (hd.addLeaf hqs.1)
  | goneLeaf _ _ ih =>
    apply (ih hqs hd.deleteLeaf).of_iff
    rw [Extent.refers_leaf, or_left_comm, or_assoc]
  | sameKey _ _ ih =>
    rw [Extent.refers_leaf, not_or] at hqs
    apply (ih hqs.2 (hd.updateLeaf hqs.1)).of_iff
    rw [Extent.refers_leaf, or_left_comm, or_assoc]
  | newNode hblock _ ih =>
    rw [Extent.refers_tree hblock, not_or] at hqs
    exact ih hqs.2 (hd.addNode hqs.1)
  | goneNode hblock _ ih =>
    apply (ih hqs hd.deleteNode).of_iff
    rw [Extent.refers_tree hblock, or_left_comm, or_assoc]
  | skip _ ih =>
    rw [Extent.refers_skip hqs]
    rw [← List.singleton_append, Extent.refers_append, not_or] at hqs
    exact ih hqs.2 hd

end Diff

variable {store prevStore : Blockstore Id} {t : Subtree} {tree curr prev : Tree}
variable {es vs : List NodeEntry}

def Entry.References (store : Blockstore Id) (config : Config) (address : Cid) : NodeEntry → Prop
  | .leaf l => l.value = address
  | .tree t => (∃ node, t.Reaches store config node ∧ node.addressIn config = .ok address) ∨
    ∃ l, t.Contains store config l ∧ l.value = address

def Tree.References (store : Blockstore Id) (tree : Tree) (address : Cid) : Prop :=
  tree.HasPointer store address ∨ tree.HasValue store address

theorem Entry.references_tree {n : { node : Node // t.Covers node }}
    (hn : (t.resolve store config).run = .ok n) :
    (Entry.tree t).References store config address ↔
      n.val.addressIn config = .ok address ∨ ∃ e ∈ n.val.entries,
        e.References store config address := by
  simp only [References, Subtree.reaches_iff hn, Subtree.contains_iff hn]
  constructor
  · rintro (⟨node, rfl | ⟨c, hc, hnode⟩, haddress⟩ | ⟨l, hl | ⟨c, hc, hl⟩, rfl⟩)
    · exact .inl haddress
    · exact .inr ⟨.tree c, hc, .inl ⟨node, hnode, haddress⟩⟩
    · exact .inr ⟨.leaf l, hl, rfl⟩
    · exact .inr ⟨.tree c, hc, .inr ⟨l, hl, rfl⟩⟩
  · rintro (haddress | ⟨e, he, href⟩)
    · exact .inl ⟨_, .inl rfl, haddress⟩
    · cases e with
      | leaf l => exact .inr ⟨l, .inl he, href⟩
      | tree c =>
        rcases href with ⟨node, hnode, haddress⟩ | ⟨l, hl, heq⟩
        · exact .inl ⟨node, .inr ⟨c, he, hnode⟩, haddress⟩
        · exact .inr ⟨l, .inr ⟨c, he, hl⟩, heq⟩

theorem Walked.exists_cids {cids : CidSet} (h : Walked store config es vs)
    (haddress : ∀ t node, .tree t ∈ es → t.Reaches store config node →
      ∃ address, node.addressIn config = .ok address) :
    ∃ found, (complete (Pending.visit store config .fail ⟨es⟩ cids fun e cids => do
        match e with
        | .tree t => return .yield (cids.insert (← t.address config))
        | .leaf l => return .yield (cids.insert l.value))).run = .ok found ∧
      ∀ address, address ∈ found ↔ address ∈ cids ∨ ∃ e ∈ es,
        e.References store config address := by
  induction h generalizing cids with
  | nil =>
    refine ⟨cids, ?_, by simp⟩
    rw [complete_visit_nil]
    rfl
  | @leaf l es vs _ ih =>
    obtain ⟨found, hrun, hfound⟩ :=
      @ih (cids.insert l.value) fun t node ht => haddress t node (List.mem_cons_of_mem _ ht)
    refine ⟨found, ?_, ?_⟩
    · rw [complete_visit_leaf, pure_bind]
      exact hrun
    · intro address
      simp [hfound, Entry.References, or_left_comm, or_assoc]
  | @tree t es vs n hn _ ih =>
    have hresolve : t.resolve store config = pure n := hn
    obtain ⟨own, hown⟩ := haddress t n.val List.mem_cons_self (.here hn)
    obtain ⟨found, hrun, hfound⟩ := @ih (cids.insert own) (by
      intro c node hc hnode
      rcases List.mem_append.1 hc with hc | hc
      · exact haddress t node List.mem_cons_self (.deeper hn hc hnode)
      · exact haddress c node (List.mem_cons_of_mem _ hc) hnode)
    refine ⟨found, ?_, ?_⟩
    · rw [complete_visit_tree, hresolve, pure_bind]
      have hown : (Subtree.resolved n.val).address config = .ok own := hown
      dsimp only
      rw [hown]
      exact hrun
    · intro address
      simp only [hfound, Std.TreeSet.mem_insert, Std.LawfulEqCmp.compare_eq_iff_eq, List.mem_append,
        List.mem_cons, or_and_right, exists_or, exists_eq_left, Entry.references_tree hn, hown,
        Except.ok.injEq]
      rw [or_assoc, or_left_comm, or_assoc]

namespace Tree

namespace Spans

theorem hasValue_iff (h : tree.Spans archive store layer ls) :
    tree.HasValue store address ↔ ∃ l ∈ ls, l.value = address := by
  constructor
  · unfold HasValue
    rw [h.config_eq]
    rintro ⟨l, ⟨node, hnode, hl⟩, heq⟩
    obtain ⟨n, us, hus, -, hheld⟩ := h.root.holds.of_reaches h.listing h.agrees hnode
    have hsub := (Extent.of_mem_spread h.written.layer_lt hus).2.1
    exact ⟨l, hsub.subset (hheld.mem_leaves.1 hl).1, heq⟩
  · rintro ⟨l, hl, rfl⟩
    exact h.hasValue hl

theorem references_iff (h : tree.Spans archive store layer ls) :
    tree.References store address ↔ Extent.Refers config [.tree ⟨layer + 1, ls⟩] address := by
  rw [References, h.hasPointer_iff, h.hasValue_iff, Extent.Refers, Extent.content_singleton]

theorem exists_cids (h : tree.Spans archive store layer ls) :
    ∃ cids, (tree.cids store).run = .ok cids ∧ ∀ address,
      address ∈ cids ↔ tree.References store address := by
  obtain ⟨root, rootConfig⟩ := tree
  cases h.config_eq
  have hroot := h.root
  obtain ⟨vs, hvs, -⟩ := hroot.holds.exists_walked h.listing h.agrees hroot.readable
  obtain ⟨cids, hrun, hcids⟩ := @Walked.exists_cids _ _ _ _ ∅ hvs (by
    intro t node ht hnode
    cases List.mem_singleton.1 ht
    obtain ⟨n, us, hus, -, hheld⟩ := hroot.holds.of_reaches h.listing h.agrees hnode
    obtain ⟨block, hblock⟩ := (h.written.of_mem_spread hus).exists_block
    have hcanonical : canonicalBlock rootConfig n us = .ok block := hblock
    rw [hheld.addressIn_eq, address_canonical, hcanonical]
    exact ⟨_, rfl⟩)
  refine ⟨cids, hrun, ?_⟩
  intro address
  rw [hcids]
  simp [Tree.References, HasPointer, HasValue, Entry.References]

end Spans

theorem Built.diff_references (hcurr : curr.Built archive) (hstore : archive.Agrees store)
    (hcovers : archive.Covers curr) (hreadable : curr.Readable store) :
    (∀ prev prevStore, prev.Built archive → archive.Agrees prevStore → archive.Covers prev →
      prev.Readable prevStore → ∃ d, (curr.diff store prev prevStore).run = .ok d ∧
        (∀ address, curr.References store address → ¬prev.References prevStore address →
          address ∈ d.newCids) ∧
        ∀ address, prev.References prevStore address → ¬curr.References store address →
          address ∈ d.removed) ∧
    ∃ d cids, (curr.contents store).run = .ok d ∧ (curr.cids store).run = .ok cids ∧
      (∀ address, address ∈ d.newCids ↔ curr.References store address) ∧
      ∀ address, address ∈ cids ↔ curr.References store address := by
  obtain ⟨layer, ls, hls⟩ := hcurr.exists_spans hstore hcovers hreadable
  constructor
  · intro prev prevStore hprev hprevStore hprevCovers hprevReadable
    obtain ⟨layer', ls', hls'⟩ := hprev.exists_spans hprevStore hprevCovers hprevReadable
    obtain ⟨d, hrun, hcompared⟩ := hls.diff hls'
    refine ⟨d, hrun, ?_, ?_⟩
    · intro address hnew hnot
      rw [hls'.references_iff] at hnot
      exact (hcompared.gained hnot .empty).new.2 (.inl (hls.references_iff.1 hnew))
    · intro address hold hnot
      rw [hls.references_iff] at hnot
      exact (hcompared.lost hnot .empty).removed.2 (.inl (hls'.references_iff.1 hold))
  · obtain ⟨d, hrun, hcompared⟩ := hls.contents
    obtain ⟨cids, hcids, hmem⟩ := hls.exists_cids
    refine ⟨d, cids, hrun, hcids, ?_, hmem⟩
    intro address
    rw [(hcompared.gained Extent.refers_nil .empty).new, or_false, hls.references_iff]

theorem Built.diff_references_of_revised :
    let store := Blockstore.snapshot Sample.shelf
    let stored := Tree.load (Sample.pointer 2) Sample.config
    (∃ d, (Sample.revised.diff store stored store).run = .ok d ∧
      Sample.pointer 3 ∈ d.newCids ∧ Sample.newer.value ∈ d.newCids ∧
      Sample.pointer 2 ∈ d.removed ∧ Sample.high.value ∈ d.removed) ∧
    ∃ d cids, (Sample.revised.contents store).run = .ok d ∧
      (Sample.revised.cids store).run = .ok cids ∧
      Sample.pointer 1 ∈ d.newCids ∧ Sample.pointer 1 ∈ cids := by
  intro store stored
  have hrevised : ∀ address, Sample.revised.References (.snapshot Sample.shelf) address ↔
      (address = Sample.pointer 3 ∨ address = Sample.pointer 1) ∨
        (Sample.newer.value = address ∨ Sample.last.value = address) ∨ Sample.low.value = address :=
    fun address => or_congr Sample.hasPointer_revised_iff Sample.hasValue_revised_iff
  have hstored : ∀ address, (Tree.load (Sample.pointer 2) Sample.config).References
      (.snapshot Sample.shelf) address ↔
      (address = Sample.pointer 2 ∨ address = Sample.pointer 1) ∨
        Sample.high.value = address ∨ Sample.low.value = address :=
    fun address => or_congr Sample.hasPointer_load_iff Sample.hasValue_load_iff
  obtain ⟨hdiff, dc, cids, hcontents, hcids, hall, hmem⟩ := Built.diff_references
    Sample.built_revised Sample.agrees_shelf Sample.covers_revised Sample.readable_revised
  obtain ⟨d, hd, hnew, hgone⟩ :=
    hdiff _ _ Sample.built_load Sample.agrees_shelf Sample.covers_load Sample.readable_shelf
  simp only [hrevised, hstored] at hnew hgone hall hmem
  refine ⟨⟨d, hd, hnew _ ?_ ?_, hnew _ ?_ ?_, hgone _ ?_ ?_, hgone _ ?_ ?_⟩, dc, cids, hcontents,
    hcids, (hall _).2 ?_, (hmem _).2 ?_⟩ <;> decide

end Tree

end MerkleSearch
