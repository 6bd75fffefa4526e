import MerkleSearch.Proofs.Built
import MerkleSearch.Proofs.Coupling
import MerkleSearch.Proofs.Written

/-!
This module contains stores that have all that their blocks point to. A tree is written bottom up,
and nothing is looked for below a node that the store has, so what has been written can be read back
only because the store has been closed in this way all along. The main statements are that saving
keeps it closed, and that whatever a closed store has of a tree can be read from its address down.
-/

namespace MerkleSearch

variable {config : Config} {archive : Archive config} {layer height : Nat} {ls : List Leaf}
variable {address : Cid} {hint : Hint} {bytes : Bytes} {record : NodeRecord}
variable {blocks blocks' new : BlockMap} {t : Subtree}

namespace NodeRecord

def pointers (record : NodeRecord) : List Cid :=
  record.left.toList ++ record.leaves.filterMap (·.right)

theorem mem_subtree_iff {c : Cid} {pointer : Option Cid} :
    .tree c ∈ subtree pointer ↔ pointer = some c := by
  cases pointer <;> simp [subtree, eq_comm]

theorem mem_pointers_iff {keys : List String} (hlength : keys.length = record.leaves.length)
    {c : Cid} :
    c ∈ record.pointers ↔ .tree c ∈ record.toEntries keys := by
  have hmem : ∀ leaf, leaf ∈ record.leaves ↔ ∃ p ∈ record.leaves.zip keys, p.1 = leaf := by
    intro leaf
    conv_lhs => rw [← List.map_fst_zip hlength.ge]
    exact List.mem_map
  rw [pointers, toEntries_eq, List.mem_append, List.mem_append, mem_subtree_iff, Option.mem_toList]
  simp [hmem, mem_subtree_iff]

theorem mem_pointers_of_ofEntries {es : List (Entry (Except Error Cid))}
    (h : ofEntries es = .ok record) (hsorted : (Entry.leaves es).Pairwise (·.key < ·.key))
    {c : Cid} :
    c ∈ record.pointers ↔ .tree (.ok c) ∈ es := by
  obtain ⟨cs, rfl, hkeys, hentries, -⟩ := ofEntries_ok h hsorted
  rw [mem_pointers_iff (of_keys_ok hkeys).1, hentries, List.mem_map]
  constructor
  · exact fun hc => ⟨_, hc, rfl⟩
  · rintro ⟨_ | _, hc, heq⟩ <;> cases heq
    exact hc

end NodeRecord

structure Archive.Closed (archive : Archive config) (blocks : BlockMap) : Prop where
  block : ∀ (address : Cid) (bytes : Bytes), blocks[address]? = some bytes →
    archive.blocks bytes ∧ config.codec.address bytes = .ok address
  pointers : ∀ (address : Cid) (bytes : Bytes), blocks[address]? = some bytes → ∃ record,
     config.codec.decode bytes = .ok record ∧ ∀ c ∈ record.pointers, c ∈ blocks

namespace BlockMap

theorem exists_of_mem (h : address ∈ blocks) : ∃ bytes, blocks[address]? = some bytes :=
  ⟨blocks[address], Std.TreeMap.getElem?_eq_some_getElem h⟩

theorem mem_of_getElem? (h : blocks[address]? = some bytes) : address ∈ blocks := by
  rw [Std.TreeMap.mem_iff_isSome_getElem?, h]
  rfl

theorem getElem?_addAll : (blocks.addAll new)[address]? = new[address]?.or blocks[address]? := by
  unfold addAll
  cases hnew : new[address]? with
  | some bytes =>
    have hmem : (address, bytes) ∈ new.toList := Std.TreeMap.mem_toList_iff_getElem?_eq_some.2 hnew
    exact Std.TreeMap.getElem?_insertMany_list_of_mem (Std.ReflCmp.compare_self)
      Std.TreeMap.distinct_keys_toList hmem
  | none =>
    rw [Option.none_or]
    apply Std.TreeMap.getElem?_insertMany_list_of_contains_eq_false
    rw [Std.TreeMap.map_fst_toList_eq_keys, Std.TreeMap.contains_keys,
      Std.TreeMap.contains_eq_isSome_getElem?, hnew]
    rfl

theorem getElem?_addAll_insert {other : Cid} : (blocks.addAll (new.insert address bytes))[other]? =
    if address = other then some bytes else (blocks.addAll new)[other]? := by
  rw [getElem?_addAll, getElem?_addAll, Std.TreeMap.getElem?_insert]
  simp only [Std.LawfulEqCmp.compare_eq_iff_eq]
  split <;> rfl

theorem mem_addAll : address ∈ blocks.addAll new ↔ address ∈ new ∨ address ∈ blocks := by
  simp only [Std.TreeMap.mem_iff_isSome_getElem?, getElem?_addAll, Option.isSome_or,
    Bool.or_eq_true]

theorem mem_addAll_insert {other : Cid} :
    address ∈ blocks.addAll (new.insert other bytes) ↔ address = other ∨
      address ∈ blocks.addAll new := by
  rw [mem_addAll, mem_addAll, Std.TreeMap.mem_insert, Std.LawfulEqCmp.compare_eq_iff_eq, or_assoc,
    eq_comm]

end BlockMap

theorem Archive.Has.sorted (h : archive.Has (layer + 1) ls) (hls : Listing ls) :
    (Entry.leaves (entryAddresses config (canonicalNode config layer ls).entries)).Pairwise (·.key <
      ·.key) := by
  rw [entryAddresses_canonicalNode, Entry.leaves_map, (Leaves.spells_groups h.layer_le).leaves_eq]
  exact hls.sorted.sublist List.filter_sublist

namespace Archive.Closed

theorem empty : archive.Closed {} := by
  constructor <;> exact fun _ _ h => by simp at h

theorem agrees (h : archive.Closed blocks) : archive.Agrees (.snapshot blocks) :=
  agrees_of_blocks fun address bytes hget => (h.block address bytes (Except.ok.inj hget)).1

theorem insert (h : archive.Closed (blocks.addAll new)) (hblock : archive.blocks bytes)
    (haddress : config.codec.address bytes = .ok address)
    (hdecode : config.codec.decode bytes = .ok record)
    (hpointers : ∀ c ∈ record.pointers, c ∈ blocks.addAll new) :
    archive.Closed (blocks.addAll (new.insert address bytes)) := by
  constructor
  · intro a b hb
    rw [BlockMap.getElem?_addAll_insert] at hb
    split at hb
    · next heq =>
      cases hb
      exact ⟨hblock, heq ▸ haddress⟩
    · exact h.block a b hb
  · intro a b hb
    rw [BlockMap.getElem?_addAll_insert] at hb
    split at hb
    · cases hb
      exact ⟨record, hdecode, fun c hc => BlockMap.mem_addAll_insert.2 (.inr (hpointers c hc))⟩
    · obtain ⟨found, hfound, hmem⟩ := h.pointers a b hb
      exact ⟨found, hfound, fun c hc => BlockMap.mem_addAll_insert.2 (.inr (hmem c hc))⟩

theorem getElem?_of_addAll (h : archive.Closed blocks) (h' : archive.Closed (blocks.addAll new))
    (hget : blocks[address]? = some bytes) : (blocks.addAll new)[address]? = some bytes := by
  obtain ⟨found, hfound⟩ :=
    BlockMap.exists_of_mem (BlockMap.mem_addAll.2 (.inr (BlockMap.mem_of_getElem? hget)))
  obtain ⟨hblock, haddress⟩ := h.block _ _ hget
  obtain ⟨hblock', haddress'⟩ := h'.block _ _ hfound
  rw [hfound, archive.injective found bytes hblock' hblock ⟨_, haddress', haddress⟩]

theorem readable (h : archive.Closed blocks)
    (hholds : (Subtree.unresolved address hint).Holds archive height ls) (hls : Listing ls)
    (hmem : address ∈ blocks) :
    (Subtree.unresolved address hint).Readable (.snapshot blocks) config := by
  induction height generalizing address hint ls with
  | zero => exact hholds.elim
  | succ layer ih =>
    obtain ⟨haddress, hhas, hhint⟩ := hholds
    obtain ⟨bytes, hget⟩ := BlockMap.exists_of_mem hmem
    have hrun := Blockstore.run_get?_snapshot_eq hget
    have hbytes := (h.block _ _ hget).2
    obtain ⟨record, hrecord, hdecode⟩ := h.agrees.decode_eq hhas hrun hbytes haddress
    obtain ⟨cs, hcs, hstored⟩ := hhas.ofStored hls hhint hrecord
    obtain ⟨covers, hn⟩ :=
      Subtree.exists_resolve_unresolved hhint.ne_unknown_zero hrun hbytes hdecode hstored
    refine .intro _ hn ?_
    intro c hc
    obtain ⟨a | _, ha, heq⟩ := List.mem_map.1 hc <;> cases heq
    -- The subtree is one of those that the record points to.
    have hpointer : .tree (.ok a) ∈
        entryAddresses config (canonicalNode config layer ls).entries := by
      rw [entryAddresses_canonicalNode, hcs]
      exact List.mem_map_of_mem ha
    obtain ⟨found, hfound, hpointers⟩ := h.pointers _ _ hget
    cases hfound.symm.trans hdecode
    have hmem :=
      hpointers a ((NodeRecord.mem_pointers_of_ofEntries hrecord (hhas.sorted hls)).2 hpointer)
    rw [entryAddresses_canonicalNode, List.mem_map] at hpointer
    obtain ⟨ts | _, hts, heq⟩ := hpointer
    · rw [Entry.map_tree, Entry.tree.injEq] at heq
      obtain ⟨_, rfl, -, -, hsub⟩ := (Leaves.spells_groups hhas.layer_le).of_tree_mem hts
      exact ih (hhas.unresolved hhint hts heq) (hls.sublist hsub) hmem
    · cases heq

end Archive.Closed

theorem Subtree.Readable.mono (h : t.Readable (.snapshot blocks) config)
    (hget : ∀ (a : Cid) (b : Bytes), blocks[a]? = some b → blocks'[a]? = some b) :
    t.Readable (.snapshot blocks') config := by
  induction h with
  | @intro t n hn _ ih =>
    match t, n, hn, ih with
    | .resolved node, _, rfl, ih => exact readable_resolved ih
    | .unresolved address hint, n, hn, ih =>
      obtain ⟨hhint, bytes, record, hrun, haddress, hdecode, hstored⟩ := resolve_unresolved hn
      have hrun := Blockstore.run_get?_snapshot_eq (hget _ _ (Except.ok.inj hrun))
      obtain ⟨covers, hn⟩ := exists_resolve_unresolved hhint hrun haddress hdecode hstored
      exact .intro _ hn ih

theorem Subtree.Readable.mem (h : (unresolved address hint).Readable (.snapshot blocks) config) :
    address ∈ blocks := by
  obtain ⟨n, hn, -⟩ := h
  obtain ⟨-, bytes, -, hrun, -⟩ := resolve_unresolved hn
  exact BlockMap.mem_of_getElem? (Except.ok.inj hrun)

/--
Whatever has been gathered before, as long as that makes the store as stated: with what is gathered
from the subtree it is so too, and has the address of the subtree.
-/
def Subtree.Gathers (P : BlockMap → Prop) (config : Config) (blocks : BlockMap)
    (t : Subtree) : Prop :=
  ∀ new : BlockMap, P (blocks.addAll new) → ∃ address new',
    (t.unstored (.snapshot blocks) config new).run = .ok (address, new') ∧ t.address config =
      .ok address ∧ P (blocks.addAll new') ∧ (∀ c ∈ new, c ∈ new') ∧ address ∈ blocks.addAll new'

def Extent.Joins (P : BlockMap → Prop) (config : Config) (blocks : BlockMap) (e : Extent) : Prop :=
  ∀ (new : BlockMap) (block : Block), e.block config = .ok block → P (blocks.addAll new) →
    (∀ u, .tree u ∈ e.entries config →
      ∀ b, u.block config = .ok b → b.address ∈ blocks.addAll new) →
    P (blocks.addAll (new.insert block.address block.bytes))

theorem exists_unstoredEntries {P : BlockMap → Prop} {es : List NodeEntry}
    (hes : ∀ c, .tree c ∈ es → c.Gathers P config blocks) (hnew : P (blocks.addAll new)) :
    ∃ new', (unstoredEntries (.snapshot blocks) config es new).run = .ok new' ∧
      P (blocks.addAll new') ∧
      (∀ c ∈ new, c ∈ new') ∧
      ∀ c, .tree c ∈ es → ∃ address, c.address config = .ok address ∧
        address ∈ blocks.addAll new' := by
  induction es generalizing new with
  | nil => exact ⟨new, rfl, hnew, fun _ => id, nofun⟩
  | cons e es ih =>
    cases e with
    | leaf l =>
      obtain ⟨new', hrun, hclosed, hsub, haddress⟩ :=
        ih (fun c hc => hes c (List.mem_cons_of_mem _ hc)) hnew
      refine ⟨new', ?_, hclosed, hsub, ?_⟩
      · rw [unstoredEntries]
        exact hrun
      · exact fun c hc => haddress c (by simpa using hc)
    | tree t =>
      obtain ⟨address, mid, hrun, haddress, hclosed, hsub, hmem⟩ :=
        hes t List.mem_cons_self new hnew
      obtain ⟨new', hrun', hclosed', hsub', haddress'⟩ :=
        ih (fun c hc => hes c (List.mem_cons_of_mem _ hc)) hclosed
      have hrun : t.unstored (.snapshot blocks) config new = pure (address, mid) := hrun
      refine ⟨new', ?_, hclosed', fun c hc => hsub' c (hsub c hc), ?_⟩
      · rw [unstoredEntries, hrun, pure_bind]
        exact hrun'
      · intro c hc
        rcases List.mem_cons.1 hc with heq | hc
        · cases heq
          refine ⟨address, haddress, BlockMap.mem_addAll.2 ?_⟩
          exact (BlockMap.mem_addAll.1 hmem).imp_left (hsub' address)
        · exact haddress' c hc

namespace Subtree

theorem run_unstored_of_mem {node : Node} (haddress : node.addressIn config = .ok address)
    (hknown : address ∈ new ∨ address ∈ blocks) :
    ((resolved node).unstored (.snapshot blocks) config new).run = .ok (address, new) := by
  obtain ⟨es, layer, known, serial⟩ := node
  rw [Subtree.unstored, haddress]
  show (if new.contains address then _ else _ : ExceptT Error Id (Cid × BlockMap)).run = _
  split
  · rfl
  · next hnew =>
    have hstored : blocks.contains address := hknown.resolve_left hnew
    show (if blocks.contains address then _ else _ : ExceptT Error Id (Cid × BlockMap)).run = _
    rw [if_pos hstored]
    rfl

theorem run_unstored_of_not_mem {node : Node} {block : Block} {below : BlockMap}
    (haddress : node.addressIn config = .ok address)
    (hunknown : ¬(address ∈ new ∨ address ∈ blocks))
    (hbelow : (unstoredEntries (.snapshot blocks) config node.entries new).run = .ok below)
    (hblock : node.block config = .ok block) :
    ((resolved node).unstored (.snapshot blocks) config new).run =
      .ok (address, below.insert block.address block.bytes) := by
  obtain ⟨es, layer, known, serial⟩ := node
  have hnew : ¬new.contains address := (not_or.1 hunknown).1
  have hstored : ¬blocks.contains address := (not_or.1 hunknown).2
  have hbelow : unstoredEntries (.snapshot blocks) config es new = pure below := hbelow
  rw [Subtree.unstored, haddress]
  show (if new.contains address then _ else _ : ExceptT Error Id (Cid × BlockMap)).run = _
  rw [if_neg hnew]
  show (if blocks.contains address then _ else _ : ExceptT Error Id (Cid × BlockMap)).run = _
  rw [if_neg hstored, hbelow, pure_bind, hblock]
  rfl

end Subtree

theorem Subtree.Holds.gathers {P : BlockMap → Prop} (h : t.Holds archive height ls)
    (hwritten : Extent.Written archive ⟨height, ls⟩)
    (hreadable : t.Readable (.snapshot blocks) config)
    (hjoins : ∀ e ∈ Extent.spread config height ls, e.Joins P config blocks) :
    t.Gathers P config blocks := by
  induction height generalizing t ls with
  | zero => exact h.elim
  | succ layer ih =>
    intro new hnew
    match t, h, hreadable with
    | .unresolved address hint, h, hreadable =>
      exact ⟨address, new, rfl, rfl, hnew, fun _ => id, BlockMap.mem_addAll.2 (.inr hreadable.mem)⟩
    | .resolved ⟨es, nodeLayer, known, serial⟩, h, hreadable =>
      have hnode :
          NodeOf.Holds archive (Subtree.Holds archive layer) layer
            ⟨es, nodeLayer, known, serial⟩ ls :=
        h
      obtain ⟨block, hblock⟩ := hwritten.exists_block
      have haddress := h.address_eq.trans (hwritten.address_eq hblock)
      have hes : ∀ c, .tree c ∈ es → c.Gathers P config blocks := by
        intro c hc
        obtain ⟨ts, hts, -, hholds⟩ := hnode.exists_group hc
        exact ih hholds (hwritten.child hts) (hreadable.child rfl hc) fun e he =>
          hjoins e (Extent.mem_spread_succ hts he)
      obtain ⟨new', hbelow, hstated, hsub, hmem⟩ := exists_unstoredEntries hes hnew
      by_cases hknown : block.address ∈ new ∨ block.address ∈ blocks
      · have hrun := run_unstored_of_mem haddress hknown
        exact ⟨_, new, hrun, haddress, hnew, fun _ => id, BlockMap.mem_addAll.2 hknown⟩
      · have hnodeBlock : NodeOf.block config ⟨es, nodeLayer, known, serial⟩ = .ok block :=
          (hnode.block_eq fun _ _ => Subtree.Holds.address_eq).trans hblock
        have hrun := run_unstored_of_not_mem haddress hknown hbelow hnodeBlock
        refine ⟨_, _, hrun, haddress, hjoins _ hwritten.mem_spread new' block hblock hstated ?_, ?_,
          BlockMap.mem_addAll_insert.2 (.inl rfl)⟩
        · rintro ⟨_, ts⟩ hu b hb
          obtain ⟨rfl, hts⟩ := Extent.mem_entries_iff.1 hu
          obtain ⟨child, hchild, -, hholds⟩ := hnode.exists_subtree hts
          obtain ⟨found, hfound, hmem⟩ := hmem child hchild
          rw [hholds.address_eq, (hwritten.child hts).address_eq hb] at hfound
          cases hfound
          exact hmem
        · exact fun c hc => Std.TreeMap.mem_insert.2 (.inr (hsub c hc))

theorem Extent.Written.joins_closed {e : Extent} (h : e.Written archive) :
    e.Joins archive.Closed config blocks := by
  intro new block hblock hclosed hbelow
  obtain ⟨height, ls⟩ := e
  cases height with
  | zero => exact h.has.elim
  | succ layer =>
    obtain ⟨record, _, hrecord, hdecode, hbytes, haddress, hcanonical⟩ := h.has.exists_block
    cases hblock.symm.trans hcanonical
    apply hclosed.insert hbytes haddress hdecode
    intro c hc
    -- What the record points to are the addresses of the subtrees.
    rw [NodeRecord.mem_pointers_of_ofEntries hrecord (h.has.sorted h.listing),
      entryAddresses_canonicalNode, List.mem_map] at hc
    obtain ⟨ts | _, hts, heq⟩ := hc
    · rw [Entry.map_tree, Entry.tree.injEq] at heq
      obtain ⟨b, hb⟩ := (h.child hts).exists_block
      cases ((h.child hts).address_eq hb).symm.trans heq
      exact hbelow ⟨layer, ts⟩ (Extent.mem_entries_iff.2 ⟨rfl, hts⟩) b hb
    · cases heq

namespace Tree

variable {tree : Tree}

theorem run_unstored_inMemory :
    (tree.unstored .inMemory).run.run blocks =
      ((tree.unstored (.snapshot blocks)).run, blocks) := by
  have hcontains : ∀ address,
      (Coupling.reading blocks).rel (Blockstore.ask (Blockstore.inMemory.contains address))
      (Blockstore.ask ((Blockstore.snapshot blocks).contains address)) :=
    fun _ => rfl
  exact Coupling.Fetches.unstored hcontains tree.root {}

theorem run_save_inMemory : (tree.save .inMemory).run.run blocks =
    match (tree.unstored (.snapshot blocks)).run with
    | .ok (address, new) => (.ok address, blocks.addAll new)
    | .error e => (.error e, blocks) := by
  unfold save
  rw [ExceptT.run_bind, StateT.run_bind, run_unstored_inMemory]
  cases (tree.unstored (.snapshot blocks)).run <;> rfl

theorem unstored_of_mem (haddress : tree.address = .ok address) (hmem : address ∈ blocks) :
    (tree.unstored (.snapshot blocks)).run = .ok (address, {}) := by
  obtain ⟨root, config⟩ := tree
  match root with
  | .unresolved known hint =>
    cases haddress
    rfl
  | .resolved node => exact Subtree.run_unstored_of_mem haddress (.inr hmem)

end Tree

end MerkleSearch
