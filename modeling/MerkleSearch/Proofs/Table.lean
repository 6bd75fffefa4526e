import Mathlib
import MerkleSearch.Proofs.Built
import MerkleSearch.Proofs.Coupling
import MerkleSearch.Proofs.Equations
import MerkleSearch.Proofs.Reach

/-!
This module contains codecs that know no other records than those of a list. Their blocks make up an
archive, so nothing has to be assumed about the addresses of trees whose nodes have such records.
-/

namespace MerkleSearch

def NodeCodec.tableAddress (bytes : Bytes) : Cid :=
  .v1 Cid.raw ⟨0, bytes.take 64, List.length_take_le ..⟩

/--
Encodes a record as its place in the list.
-/
def NodeCodec.table (records : List NodeRecord) : NodeCodec where
  name := "table"
  encode record :=
    match records.idxOf? record with
    | some i => .ok (List.replicate i 0)
    | none => .error (.encoding "not in the table")
  decode bytes :=
    match records[bytes.length]? with
    | some record => .ok record
    | none => .error .undecodable
  address bytes := .ok (tableAddress bytes)

def Blockstore.empty : Blockstore Id where
  get? _ := return none
  contains _ := return false
  getMany addresses := return ({}, addresses)
  put _ _ := return ()
  putMany _ := return ()

theorem Archive.agrees_empty {config : Config} (archive : Archive config) : archive.Agrees .empty :=
  nofun

variable {records : List NodeRecord} {record : NodeRecord} {bytes : Bytes} {hasher : KeyHasher}

theorem NodeCodec.encode_table (h : (table records).encode record = .ok bytes) :
    records[bytes.length]? = some record ∧ bytes = List.replicate bytes.length 0 := by
  unfold table at h
  dsimp only at h
  split at h
  · next i hi =>
    cases h
    obtain ⟨hlt, heq, -⟩ := List.idxOf?_eq_some_iff.1 hi
    rw [List.length_replicate, List.getElem?_eq_getElem hlt, heq]
    exact ⟨rfl, rfl⟩
  · cases h

theorem NodeCodec.decode_table (h : records[bytes.length]? = some record) :
    (table records).decode bytes = .ok record := by
  unfold table
  dsimp only
  rw [h]

def Archive.table (records : List NodeRecord) (hasher : KeyHasher) (h : records.length ≤ 64) :
    Archive { codec := .table records, hasher } where
  blocks bytes := ∃ record, (NodeCodec.table records).encode record = .ok bytes
  decode record bytes _ hencode := NodeCodec.decode_table (NodeCodec.encode_table hencode).1
  injective := by
    rintro a b ⟨_, ha⟩ ⟨_, hb⟩ ⟨_, ⟨⟩, haddress⟩
    obtain ⟨hget, ha⟩ := NodeCodec.encode_table ha
    obtain ⟨hget', hb⟩ := NodeCodec.encode_table hb
    have hlength := (List.getElem?_eq_some_iff.1 hget).1
    have hlength' := (List.getElem?_eq_some_iff.1 hget').1
    injection Except.ok.inj haddress with _ hhash
    injection hhash with _ hdigest
    rw [List.take_of_length_le (by omega), List.take_of_length_le (by omega)] at hdigest
    exact hdigest.symm

theorem Archive.covers_table {h : records.length ≤ 64} {tree : Tree}
    (hrecords : ∀ node, .resolved node ∈ tree.root.inMemory → ∀ record,
      node.record { codec := .table records, hasher } = .ok record → record ∈ records) :
    (Archive.table records hasher h).Covers tree := by
  intro node hnode record hrecord
  have hmem := hrecords node hnode record hrecord
  cases hplace : records.idxOf? record with
  | none => exact absurd hmem (List.idxOf?_eq_none_iff.1 hplace)
  | some i =>
    have hencode : (NodeCodec.table records).encode record = .ok (List.replicate i 0) := by
      unfold NodeCodec.table
      dsimp only
      rw [hplace]
    exact ⟨⟨NodeCodec.tableAddress _, _⟩, NodeCodec.block_eq_ok.2 ⟨hencode, rfl⟩, record, hencode⟩

namespace Sample

/-!
A tree with a key on layer one and a key on layer zero to the left of it.
-/

def low : Leaf := ⟨"a/b", .v1 Cid.raw ⟨0, [1], by decide⟩⟩

def high : Leaf := ⟨"a/c-1", .v1 Cid.raw ⟨0, [2], by decide⟩⟩

def newer : Leaf := ⟨high.key, .v1 Cid.raw ⟨0, [7], by decide⟩⟩

def last : Leaf := ⟨"a/d-1", .v1 Cid.raw ⟨0, [3], by decide⟩⟩

def known : List NodeRecord := [
  ⟨none, []⟩,
  ⟨none, [⟨0, Bytes.ofText low.key, low.value, none⟩]⟩,
  ⟨some (.v1 Cid.raw ⟨0, [0], by decide⟩), [⟨0, Bytes.ofText high.key, high.value, none⟩]⟩,
  ⟨some (.v1 Cid.raw ⟨0, [0], by decide⟩), [⟨0, Bytes.ofText high.key, newer.value, none⟩,
    ⟨2, Bytes.ofText "d-1", last.value, none⟩]⟩]

def config : Config := { codec := .table known, hasher := .tail }

def archive : Archive config := .table known .tail (by decide)

def lowNode : Node := { entries := [.leaf low], layer := some 0 }

def highNode : Node := { entries := [.tree (.resolved lowNode), .leaf high], layer := some 1 }

def tree : Tree := ⟨.resolved highNode, config⟩

theorem add_low :
    ((Tree.empty config).add .empty low.key low.value).run = .ok ⟨.resolved lowNode, config⟩ := by
  cbv

theorem add_high :
    ((⟨.resolved lowNode, config⟩ : Tree).add .empty high.key high.value).run = .ok tree := by
  cbv

theorem add_high_first :
    ((Tree.empty config).add .empty high.key high.value).run =
      .ok ⟨.resolved { entries := [.leaf high], layer := some 1 }, config⟩ := by
  cbv

theorem add_low_last :
    ((⟨.resolved { entries := [.leaf high], layer := some 1 }, config⟩ : Tree).add .empty low.key
      low.value).run = .ok tree := by
  cbv

theorem built : tree.Built archive :=
  .edit (.add high.key high.value)
    (.edit (.add low.key low.value) .empty archive.agrees_empty add_low) archive.agrees_empty
    add_high

theorem get?_low : (tree.get? .empty low.key).run = .ok (some low.value) := by cbv

theorem readable : tree.Readable .empty := by
  apply Subtree.readable_resolved
  intro c hc
  have hlow : c = .resolved lowNode := by simpa [highNode] using hc
  rw [hlow]
  apply Subtree.readable_resolved
  exact fun c hc => nomatch hc

theorem covers : archive.Covers tree := by
  apply Archive.covers_table
  intro node hnode record hrecord
  have hmemory : tree.root.inMemory = [.resolved highNode, .resolved lowNode] := by cbv
  have hhigh : highNode.record config = .ok (known[2]) := by cbv
  have hlow : lowNode.record config = .ok (known[1]) := by cbv
  rw [hmemory, List.mem_cons, List.mem_singleton, Subtree.resolved.injEq,
    Subtree.resolved.injEq] at hnode
  rcases hnode with rfl | rfl
  · rw [← Except.ok.inj (hhigh.symm.trans hrecord)]
    exact List.getElem_mem _
  · rw [← Except.ok.inj (hlow.symm.trans hrecord)]
    exact List.getElem_mem _

/--
The address of the record at a place.
-/
def pointer (place : Nat) : Cid := NodeCodec.tableAddress (List.replicate place 0)

theorem save_tree : (tree.save .empty).run = .ok (pointer 2) := by cbv

theorem addressIn_high : highNode.addressIn config = .ok (pointer 2) := by cbv

theorem addressIn_low : lowNode.addressIn config = .ok (pointer 1) := by cbv

def shelf : BlockMap := (({} : BlockMap).insert (pointer 2) [0, 0]).insert (pointer 1) [0]

/--
The same, but with the block of the upper node in the place of the lower one.
-/
def forgedShelf : BlockMap := (({} : BlockMap).insert (pointer 2) [0, 0]).insert (pointer 1) [0, 0]

theorem archive_blocks {blocks : BlockMap} {bytes : Bytes} {address : Cid}
    (h : ∀ bytes, blocks[address]? = some bytes → bytes = [0] ∨ bytes = [0, 0] ∨ bytes = [0, 0, 0])
    (hget : ((Blockstore.snapshot blocks).get? address).run = .ok (some bytes)) :
    archive.blocks bytes := by
  rcases h bytes (Except.ok.inj hget) with rfl | rfl | rfl
  · exact ⟨known[1], by cbv⟩
  · exact ⟨known[2], by cbv⟩
  · exact ⟨known[3], by cbv⟩

theorem archive_blocks_of_shelf {bytes : Bytes} {address : Cid}
    (hget : ((Blockstore.snapshot shelf).get? address).run = .ok (some bytes)) :
    archive.blocks bytes := by
  apply archive_blocks _ hget
  intro bytes h
  simp only [shelf, Std.TreeMap.getElem?_insert] at h
  split_ifs at h <;> simp_all

theorem get?_shelf : shelf[pointer 2]? = some [0, 0] ∧ shelf[pointer 1]? = some [0] := by
  constructor <;> cbv

theorem agrees_shelf : archive.Agrees (.snapshot shelf) :=
  fun _ bytes block hget hblock =>
    archive.injective bytes block (archive_blocks_of_shelf hget) hblock

theorem archive_blocks_of_forgedShelf {bytes : Bytes} {address : Cid}
    (hget : ((Blockstore.snapshot forgedShelf).get? address).run = .ok (some bytes)) :
    archive.blocks bytes := by
  apply archive_blocks _ hget
  intro bytes h
  simp only [forgedShelf, Std.TreeMap.getElem?_insert] at h
  split_ifs at h <;> simp_all

/-!
The two nodes as they are read from a store.
-/

def storedHighNode : Node where
  entries := [.tree (.unresolved (pointer 1) (.layer 0)), .leaf high]
  layer := some 1
  address := some (pointer 2)

def storedLowNode : Node where
  entries := [.leaf low]
  layer := some 0
  address := some (pointer 1)

section

variable {store : Blockstore Id}

theorem exists_resolve_high (hget : (store.get? (pointer 2)).run = .ok (some [0, 0])) :
    ∃ covers, ((Tree.load (pointer 2) config).root.resolve store config).run =
      .ok ⟨storedHighNode, covers⟩ := by
  have hstored : NodeOf.ofStored config (pointer 2) (.ofLayer? none) (known[2]) =
      .ok storedHighNode := by
    cbv
  exact Subtree.exists_resolve_unresolved (by decide) hget rfl rfl hstored

theorem exists_resolve_low (hget : (store.get? (pointer 1)).run = .ok (some [0])) :
    ∃ covers, ((Subtree.unresolved (pointer 1) (.layer 0)).resolve store config).run =
      .ok ⟨storedLowNode, covers⟩ := by
  have hstored : NodeOf.ofStored config (pointer 1) (.layer 0) (known[1]) = .ok storedLowNode := by
    cbv
  exact Subtree.exists_resolve_unresolved (by decide) hget rfl rfl hstored

theorem readable_of_subtrees {t : Subtree} {n : { node : Node // t.Covers node }}
    (hn : (t.resolve store config).run = .ok n)
    (hsubtrees : n.val.subtrees = [.unresolved (pointer 1) (.layer 0)])
    (hlow : (store.get? (pointer 1)).run = .ok (some [0])) :
    t.Readable store config := by
  obtain ⟨_, hlow⟩ := exists_resolve_low hlow
  refine .intro _ hn fun c hc => ?_
  rw [← NodeOf.mem_subtrees, hsubtrees, List.mem_singleton] at hc
  rw [hc]
  exact .intro _ hlow (by simp [storedLowNode])

theorem readable_load (hhigh : (store.get? (pointer 2)).run = .ok (some [0, 0]))
    (hlow : (store.get? (pointer 1)).run = .ok (some [0])) :
    (Tree.load (pointer 2) config).Readable store := by
  obtain ⟨_, hhigh⟩ := exists_resolve_high hhigh
  exact readable_of_subtrees hhigh rfl hlow

theorem exists_resolve_high_shelf :
    ∃ covers, ((Tree.load (pointer 2) config).root.resolve (.snapshot shelf) config).run =
      .ok ⟨storedHighNode, covers⟩ :=
  exists_resolve_high (Blockstore.run_get?_snapshot_eq get?_shelf.1)

theorem exists_resolve_low_shelf :
    ∃ covers, ((Subtree.unresolved (pointer 1) (.layer 0)).resolve (.snapshot shelf) config).run =
      .ok ⟨storedLowNode, covers⟩ :=
  exists_resolve_low (Blockstore.run_get?_snapshot_eq get?_shelf.2)

theorem readable_shelf : (Tree.load (pointer 2) config).Readable (.snapshot shelf) :=
  readable_load (Blockstore.run_get?_snapshot_eq get?_shelf.1)
    (Blockstore.run_get?_snapshot_eq get?_shelf.2)

theorem get?_low_shelf {t : Subtree} {n : { node : Node // t.Covers node }}
    (hn : (t.resolve (.snapshot shelf) config).run = .ok n)
    (hfound : (n.val.gap low.key).found? low.key = none)
    (hsubtree : (n.val.gap low.key).subtree = some (.unresolved (pointer 1) (.layer 0))) :
    ((⟨t, config⟩ : Tree).get? (.snapshot shelf) low.key).run = .ok (some low.value) := by
  obtain ⟨_, hlow⟩ := exists_resolve_low_shelf
  have hvalid : Key.isValid low.key := by cbv
  have hlast : (storedLowNode.gap low.key).found? low.key = some (low, []) := by cbv
  calc
    _ = t.get? (.snapshot shelf) config low.key := Tree.get?_of_isValid hvalid
    _ = (Subtree.unresolved (pointer 1) (.layer 0)).get? (.snapshot shelf) config low.key :=
      Subtree.get?_of_subtree hn hfound hsubtree
    _ = pure (some low.value) := Subtree.get?_of_found hlow hlast

theorem get?_high_load (hget : (store.get? (pointer 2)).run = .ok (some [0, 0])) :
    ((Tree.load (pointer 2) config).get? store high.key).run = .ok (some high.value) := by
  obtain ⟨_, hn⟩ := exists_resolve_high hget
  have hvalid : Key.isValid high.key := by cbv
  have hfound : (storedHighNode.gap high.key).found? high.key = some (high, []) := by cbv
  exact (Tree.get?_of_isValid hvalid).trans (Subtree.get?_of_found hn hfound)

end

/-!
What the stored tree becomes when a key is added behind all others and the key on its upper layer
gets another value. What is on layer zero is not needed for that, so it is not fetched.
-/

def grownNode : Node where
  entries := [.tree (.unresolved (pointer 1) (.layer 0)), .leaf high, .leaf last]
  layer := some 1

def revisedNode : Node where
  entries := [.tree (.unresolved (pointer 1) (.layer 0)), .leaf newer, .leaf last]
  layer := some 1

def revised : Tree := ⟨.resolved revisedNode, config⟩

theorem built_load : (Tree.load (pointer 2) config).Built archive := .load built covers save_tree

theorem get?_last_load :
    ((Tree.load (pointer 2) config).get? (.snapshot shelf) last.key).run = .ok none := by
  obtain ⟨_, hn⟩ := exists_resolve_high_shelf
  have hvalid : Key.isValid last.key := by cbv
  have hfound : (storedHighNode.gap last.key).found? last.key = none := by cbv
  have hsubtree : (storedHighNode.gap last.key).subtree = none := by cbv
  exact (Tree.get?_of_isValid hvalid).trans (Subtree.get?_of_subtree_none hn hfound hsubtree)

theorem covers_load : archive.Covers (Tree.load (pointer 2) config) := by
  intro node hnode
  unfold Tree.load Subtree.inMemory at hnode
  cases hnode

theorem add_last {store : Blockstore Id} (hget : (store.get? (pointer 2)).run = .ok (some [0, 0])) :
    ((Tree.load (pointer 2) config).add store last.key last.value).run =
      .ok ⟨.resolved grownNode, config⟩ := by
  obtain ⟨covers, hn⟩ := exists_resolve_high hget
  have hresolve : (Tree.load (pointer 2) config).root.resolve store config =
      pure ⟨storedHighNode, covers⟩ :=
    hn
  have hvalid : Key.isValid last.key := by cbv
  have hlayer : config.layerOf last.key = 1 := by cbv
  have hgap : storedHighNode.gap last.key = ⟨storedHighNode.entries, none, []⟩ := by cbv
  have hlayer' : (Tree.load (pointer 2) config).root.layerOf store config storedHighNode covers =
      pure 1 := by
    unfold Subtree.layerOf Subtree.layer?
    rfl
  have hadd : (Tree.load (pointer 2) config).root.add store config last (config.layerOf last.key) =
      pure grownNode := by
    rw [Subtree.add_eq, hresolve, pure_bind, hlayer', pure_bind, if_pos hlayer, hgap]
    rfl
  unfold Tree.add
  rw [if_pos hvalid]
  show ((Tree.load (pointer 2) config).root.add store config last (config.layerOf last.key) >>=
    fun node => pure ((Tree.load (pointer 2) config).withRoot node)).run = _
  rw [hadd]
  rfl

theorem update_high {store : Blockstore Id} :
    ((⟨.resolved grownNode, config⟩ : Tree).update store newer.key newer.value).run =
      .ok revised := by
  cbv

theorem built_revised : revised.Built archive := by
  have hgrown := add_last (Blockstore.run_get?_snapshot_eq get?_shelf.1)
  exact .edit (.update newer.key newer.value)
    (.edit (.add last.key last.value) built_load agrees_shelf hgrown) agrees_shelf update_high

theorem covers_revised : archive.Covers revised := by
  apply Archive.covers_table
  intro node hnode record hrecord
  have hmemory : revised.root.inMemory = [.resolved revisedNode] := by cbv
  have hrevised : revisedNode.record config = .ok (known[3]) := by cbv
  rw [hmemory, List.mem_singleton, Subtree.resolved.injEq] at hnode
  rw [hnode] at hrecord
  rw [← Except.ok.inj (hrevised.symm.trans hrecord)]
  exact List.getElem_mem _

theorem readable_revised : revised.Readable (.snapshot shelf) :=
  readable_of_subtrees (n := ⟨revisedNode, Subtree.covers_resolved _⟩) rfl rfl
    (Blockstore.run_get?_snapshot_eq get?_shelf.2)

section

variable {t : Subtree} {n : { node : Node // t.Covers node }} {node : Node} {address value : Cid}
variable (hn : (t.resolve (.snapshot shelf) config).run = .ok n)
variable (hsubtrees : n.val.subtrees = [.unresolved (pointer 1) (.layer 0)])
include hn hsubtrees

theorem reaches_iff :
    t.Reaches (.snapshot shelf) config node ↔ node = n.val ∨ node = storedLowNode := by
  obtain ⟨_, hlow⟩ := exists_resolve_low_shelf
  have hentry : ∀ c, .tree c ∈ n.val.entries ↔ c = .unresolved (pointer 1) (.layer 0) := by
    intro c
    rw [← NodeOf.mem_subtrees, hsubtrees, List.mem_singleton]
  have hnone : ∀ c, .tree c ∉ storedLowNode.entries := by simp [storedLowNode]
  simp [Subtree.reaches_iff hn, hentry, Subtree.reaches_iff hlow, hnone]

theorem hasPointer_iff {own : Cid} (hown : n.val.addressIn config = .ok own) :
    (⟨t, config⟩ : Tree).HasPointer (.snapshot shelf) address ↔
      address = own ∨ address = pointer 1 := by
  have hlow : storedLowNode.addressIn config = .ok (pointer 1) := rfl
  simp [Tree.HasPointer, reaches_iff hn hsubtrees, or_and_right, exists_or, hown, hlow, eq_comm]

theorem hasValue_iff :
    (⟨t, config⟩ : Tree).HasValue (.snapshot shelf) value ↔
      (∃ l ∈ n.val.leaves, l.value = value) ∨ low.value = value := by
  have hlow : storedLowNode.leaves = [low] := rfl
  constructor
  · rintro ⟨l, ⟨node, hnode, hl⟩, heq⟩
    rcases (reaches_iff hn hsubtrees).1 hnode with rfl | rfl
    · exact .inl ⟨l, hl, heq⟩
    · rw [hlow, List.mem_singleton] at hl
      exact .inr (hl ▸ heq)
  · rintro (⟨l, hl, heq⟩ | heq)
    · exact ⟨l, ⟨n.val, (reaches_iff hn hsubtrees).2 (.inl rfl), hl⟩, heq⟩
    · refine ⟨low, ⟨storedLowNode, (reaches_iff hn hsubtrees).2 (.inr rfl), ?_⟩, heq⟩
      rw [hlow]
      exact List.mem_singleton_self low

end

theorem hasPointer_load_iff {address : Cid} :
    (Tree.load (pointer 2) config).HasPointer (.snapshot shelf) address ↔
      address = pointer 2 ∨ address = pointer 1 := by
  obtain ⟨_, hn⟩ := exists_resolve_high_shelf
  exact hasPointer_iff hn rfl rfl

theorem hasValue_load_iff {value : Cid} :
    (Tree.load (pointer 2) config).HasValue (.snapshot shelf) value ↔
      high.value = value ∨ low.value = value := by
  obtain ⟨_, hn⟩ := exists_resolve_high_shelf
  have hleaves : storedHighNode.leaves = [high] := rfl
  apply (hasValue_iff hn rfl).trans
  simp [hleaves]

theorem hasPointer_revised_iff {address : Cid} :
    revised.HasPointer (.snapshot shelf) address ↔ address = pointer 3 ∨ address = pointer 1 := by
  have hn : (revised.root.resolve (.snapshot shelf) config).run =
      .ok ⟨revisedNode, Subtree.covers_resolved revisedNode⟩ := rfl
  have hown : revisedNode.addressIn config = .ok (pointer 3) := by cbv
  exact hasPointer_iff hn rfl hown

theorem hasValue_revised_iff {value : Cid} :
    revised.HasValue (.snapshot shelf) value ↔
      (newer.value = value ∨ last.value = value) ∨ low.value = value := by
  have hn : (revised.root.resolve (.snapshot shelf) config).run =
      .ok ⟨revisedNode, Subtree.covers_resolved revisedNode⟩ := rfl
  have hleaves : revisedNode.leaves = [newer, last] := rfl
  apply (hasValue_iff hn rfl).trans
  simp [hleaves]

end Sample

end MerkleSearch
