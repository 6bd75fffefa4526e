import MerkleSearch.Proofs.Contents
import MerkleSearch.Proofs.Equations
import MerkleSearch.Proofs.Session

/-!
This module contains the way from the root of a tree to the place of a key. A look-up follows it,
and so do those who ask for the addresses or for the blocks of the nodes on it. The main statement
is that these blocks prove the look-up: with nothing else in the store, the key has the same value.
-/

namespace MerkleSearch

section

variable {config : Config} {archive : Archive config} {store store' : Blockstore Id}
variable {layer height : Nat} {ls : List Leaf} {t t' : Subtree} {key : String} {ns : List Node}
variable {value? : Option Cid} {blocks : BlockMap}

theorem exists_mem_of_forall₂ {α β : Type} {R : α → β → Prop} {as : List α} {bs : List β}
    (h : List.Forall₂ R as bs) {a : α} (ha : a ∈ as) :
    ∃ b ∈ bs, R a b := by
  induction h with
  | nil => cases ha
  | cons hR _ ih =>
    rcases List.mem_cons.1 ha with rfl | ha
    · exact ⟨_, List.mem_cons_self, hR⟩
    · obtain ⟨b, hb, hR⟩ := ih ha
      exact ⟨b, List.mem_cons_of_mem _ hb, hR⟩

namespace Subtree

theorem addPathBlocks_of_resolve {n : { node : Node // t.Covers node }}
    (hn : (t.resolve store config).run = .ok n) {block : Block}
    (hblock : n.val.block config = .ok block) :
    t.addPathBlocks store config key blocks = match (n.val.gap key).found? key,
      (n.val.gap key).subtree with
      | none, some c => c.addPathBlocks store config key (blocks.insert block.address block.bytes)
      | _, _ => (blocks.insert block.address block.bytes, .ok ()) := by
  rw [addPathBlocks]
  refine (congrArg (· >>= _) hn).trans ?_
  refine (pure_bind _ _).trans ?_
  dsimp only
  rw [hblock]
  dsimp only
  split
  · next hfound hsubtree => rw [hfound, hsubtree]
  · next hother =>
    split
    · next hfound hsubtree => exact (hother _ hfound hsubtree).elim
    · rfl

/--
A look-up of the key comes to these nodes, the root first, and to this value, if there is one.
-/
inductive Way (store : Blockstore Id) (config : Config)
    (key : String) : Subtree → List Node → Option Cid → Prop
  | found {t : Subtree} {n : { node : Node // t.Covers node }} {leaf : Leaf}
    {rest : List NodeEntry} (hn : (t.resolve store config).run = .ok n)
    (hfound : (n.val.gap key).found? key = some (leaf, rest)) :
    Way store config key t [n.val] (some leaf.value)
  | deeper {t c : Subtree} {n : { node : Node // t.Covers node }} {ns : List Node}
    {value? : Option Cid} (hn : (t.resolve store config).run = .ok n)
    (hfound : (n.val.gap key).found? key = none) (hsubtree : (n.val.gap key).subtree = some c)
    (h : Way store config key c ns value?) : Way store config key t (n.val :: ns) value?
  | missed {t : Subtree} {n : { node : Node // t.Covers node }}
    (hn : (t.resolve store config).run = .ok n) (hfound : (n.val.gap key).found? key = none)
    (hsubtree : (n.val.gap key).subtree = none) : Way store config key t [n.val] none

theorem Readable.exists_way (h : t.Readable store config) (key : String) :
    ∃ ns value?, t.Way store config key ns value? := by
  induction h with
  | @intro t n hn _ ih =>
    cases hfound : (n.val.gap key).found? key with
    | some found => exact ⟨_, _, .found hn hfound⟩
    | none =>
      cases hsubtree : (n.val.gap key).subtree with
      | none => exact ⟨_, _, .missed hn hfound hsubtree⟩
      | some c =>
        obtain ⟨ns, value?, hway⟩ := ih c (NodeOf.tree_mem_of_gap hsubtree)
        exact ⟨_, _, .deeper hn hfound hsubtree hway⟩

theorem Holds.exists_block_of_resolve {n : { node : Node // t.Covers node }}
    (h : t.Holds archive height ls) (hwritten : Extent.Written archive ⟨height, ls⟩)
    (hstore : archive.Agrees store) (hn : (t.resolve store config).run = .ok n) :
    ∃ block, Extent.block config ⟨height, ls⟩ = .ok block ∧
      n.val.addressIn config = .ok block.address ∧
      n.val.block config = .ok block := by
  cases height with
  | zero => exact h.elim
  | succ layer =>
    have hnode := h.of_resolve hwritten.listing hstore hn
    obtain ⟨block, hblock⟩ := hwritten.exists_block
    have hcanonical : canonicalBlock config layer ls = .ok block := hblock
    refine ⟨block, hblock, ?_, ?_⟩
    · rw [hnode.addressIn_eq, address_canonical, hcanonical]
      rfl
    · rw [hnode.block_eq_canonical, hcanonical]

theorem Holds.exists_resolve_of_block {n : { node : Node // t.Covers node }}
    (h : t.Holds archive height ls) (h' : t'.Holds archive height ls) (hls : Listing ls)
    (hstore : archive.Agrees store) (hstore' : archive.Agrees store')
    (hn : (t.resolve store config).run = .ok n)
    (hblock : ∀ block, n.val.block config = .ok block →
      (store'.get? block.address).run = .ok (some block.bytes)) :
    ∃ n', (t'.resolve store' config).run = .ok n' ∧
      List.Forall₂ (Entry.Rel fun c c' => ∃ ts layer, ts.Sublist ls ∧
      c.Holds archive layer ts ∧ c'.Holds archive layer ts) n.val.entries n'.val.entries := by
  cases height with
  | zero => exact h.elim
  | succ layer =>
    have hnode := h.of_resolve hls hstore hn
    rw [hnode.block_eq_canonical] at hblock
    obtain ⟨n', hn'⟩ := h'.exists_resolve hls hblock
    refine ⟨n', hn', ?_⟩
    apply Entry.forall₂_imp (hnode.pair (h'.of_resolve hls hstore' hn'))
    rintro c c' ⟨ts, hts, hc, hc'⟩ - -
    obtain ⟨_, rfl, -, -, hsub⟩ := (Leaves.spells_groups h.layer_le).of_tree_mem hts
    exact ⟨_, layer, hsub, hc, hc'⟩

namespace Way

theorem get?_run (h : t.Way store config key ns value?) :
    (t.get? store config key).run = .ok value? := by
  induction h with
  | found hn hfound =>
    rw [get?_of_found hn hfound]
    rfl
  | deeper hn hfound hsubtree _ ih =>
    rw [get?_of_subtree hn hfound hsubtree]
    exact ih
  | missed hn hfound hsubtree =>
    rw [get?_of_subtree_none hn hfound hsubtree]
    rfl

theorem path_run (h : t.Way store config key ns value?) {cs : List Cid}
    (hcs : List.Forall₂ (fun n c => n.addressIn config = .ok c) ns cs) :
    (t.path store config key).run = .ok (cs ++ value?.toList) := by
  induction h generalizing cs with
  | found hn hfound =>
    obtain ⟨c, _, hc, hnil, rfl⟩ := List.forall₂_cons_left_iff.1 hcs
    cases hnil
    rw [path_eq, show resolve store config _ = pure _ from hn, pure_bind, hc, hfound]
    rfl
  | deeper hn hfound hsubtree _ ih =>
    obtain ⟨c, rest, hc, hrest, rfl⟩ := List.forall₂_cons_left_iff.1 hcs
    rw [path_eq, show resolve store config _ = pure _ from hn, pure_bind, hc, hfound, hsubtree]
    dsimp only
    rw [show path store config key _ = pure _ from ih hrest]
    rfl
  | missed hn hfound hsubtree =>
    obtain ⟨c, _, hc, hnil, rfl⟩ := List.forall₂_cons_left_iff.1 hcs
    cases hnil
    rw [path_eq, show resolve store config _ = pure _ from hn, pure_bind, hc, hfound, hsubtree]
    rfl

theorem addPathBlocks_eq (h : t.Way store config key ns value?) {bs : List Block}
    (hbs : List.Forall₂ (fun n b => n.block config = .ok b) ns bs) (blocks : BlockMap) :
    t.addPathBlocks store config key blocks =
      (blocks.insertMany (bs.map fun b => (b.address, b.bytes)), .ok ()) := by
  induction h generalizing bs blocks with
  | found hn hfound =>
    obtain ⟨b, _, hb, hnil, rfl⟩ := List.forall₂_cons_left_iff.1 hbs
    cases hnil
    rw [addPathBlocks_of_resolve hn hb, hfound, List.map_singleton,
      Std.TreeMap.insertMany_list_singleton]
  | deeper hn hfound hsubtree _ ih =>
    obtain ⟨b, rest, hb, hrest, rfl⟩ := List.forall₂_cons_left_iff.1 hbs
    rw [addPathBlocks_of_resolve hn hb, hfound, hsubtree, List.map_cons,
      Std.TreeMap.insertMany_cons]
    exact ih hrest _
  | missed hn hfound hsubtree =>
    obtain ⟨b, _, hb, hnil, rfl⟩ := List.forall₂_cons_left_iff.1 hbs
    cases hnil
    rw [addPathBlocks_of_resolve hn hb, hfound, hsubtree, List.map_singleton,
      Std.TreeMap.insertMany_list_singleton]

theorem exists_blocks (h : t.Way store config key ns value?) (hholds : t.Holds archive height ls)
    (hwritten : Extent.Written archive ⟨height, ls⟩) (hstore : archive.Agrees store) :
    ∃ bs : List Block,
      List.Forall₂ (fun n b => n.addressIn config = .ok b.address ∧ n.block config = .ok b) ns bs ∧
      (bs.map (·.address)).Nodup ∧ ∀ b ∈ bs,
        ∃ e ∈ Extent.spread config height ls, e.block config = .ok b := by
  induction h generalizing height ls with
  | found hn =>
    obtain ⟨b, he, hb⟩ := hholds.exists_block_of_resolve hwritten hstore hn
    exact ⟨[b], .cons hb .nil, List.nodup_singleton _,
      List.forall_mem_singleton.2 ⟨_, hwritten.mem_spread, he⟩⟩
  | deeper hn hfound hsubtree _ ih =>
    obtain ⟨b, he, hb⟩ := hholds.exists_block_of_resolve hwritten hstore hn
    cases height with
    | zero => exact hholds.elim
    | succ layer =>
      have hnode := hholds.of_resolve hwritten.listing hstore hn
      obtain ⟨ts, hts, -, hc⟩ := hnode.exists_group (NodeOf.tree_mem_of_gap hsubtree)
      have hbelow := hwritten.child hts
      obtain ⟨bs, hbs, hnodup, hes⟩ := ih hc hbelow
      refine ⟨b :: bs, .cons hb hbs, ?_, ?_⟩
      · rw [List.map_cons, List.nodup_cons]
        refine ⟨?_, hnodup⟩
        -- Another node with this address would be on the same layer.
        intro hmem
        obtain ⟨b', hb', haddress⟩ := List.mem_map.1 hmem
        obtain ⟨e, hspread, hblock⟩ := hes b' hb'
        cases (hbelow.of_mem_spread hspread).eq_of_address_eq hwritten hblock he haddress
        exact Nat.not_succ_le_self layer (Extent.of_mem_spread hbelow.layer_lt hspread).1
      · rw [List.forall_mem_cons]
        refine ⟨⟨_, hwritten.mem_spread, he⟩, ?_⟩
        intro b' hb'
        obtain ⟨e, hspread, hblock⟩ := hes b' hb'
        exact ⟨e, Extent.mem_spread_succ hts hspread, hblock⟩
  | missed hn =>
    obtain ⟨b, he, hb⟩ := hholds.exists_block_of_resolve hwritten hstore hn
    exact ⟨[b], .cons hb .nil, List.nodup_singleton _,
      List.forall_mem_singleton.2 ⟨_, hwritten.mem_spread, he⟩⟩

theorem exists_way_of_blocks (h : t.Way store config key ns value?)
    (hholds : t.Holds archive height ls) (hholds' : t'.Holds archive height ls) (hls : Listing ls)
    (hstore : archive.Agrees store) (hstore' : archive.Agrees store')
    (hblocks : ∀ n ∈ ns, ∀ block, n.block config = .ok block →
      (store'.get? block.address).run = .ok (some block.bytes)) :
    ∃ ns', t'.Way store' config key ns' value? := by
  induction h generalizing t' height ls with
  | found hn hfound =>
    obtain ⟨n', hn', hrel⟩ :=
      hholds.exists_resolve_of_block hholds' hls hstore hstore' hn (hblocks _ List.mem_cons_self)
    obtain ⟨rest', hfound'⟩ := (Gap.rel_of key hrel).found?_some hfound
    exact ⟨_, .found hn' hfound'⟩
  | deeper hn hfound hsubtree _ ih =>
    obtain ⟨n', hn', hrel⟩ :=
      hholds.exists_resolve_of_block hholds' hls hstore hstore' hn (hblocks _ List.mem_cons_self)
    have hgap := Gap.rel_of key hrel
    obtain ⟨c', hsubtree', ts, layer, hsub, hc, hc'⟩ := hgap.subtree_some hsubtree
    obtain ⟨ns', hway⟩ :=
      ih hc hc' (hls.sublist hsub) fun n hmem => hblocks n (List.mem_cons_of_mem _ hmem)
    exact ⟨_, .deeper hn' (hgap.found?_none hfound) hsubtree' hway⟩
  | missed hn hfound hsubtree =>
    obtain ⟨n', hn', hrel⟩ :=
      hholds.exists_resolve_of_block hholds' hls hstore hstore' hn (hblocks _ List.mem_cons_self)
    have hgap := Gap.rel_of key hrel
    exact ⟨_, .missed hn' (hgap.found?_none hfound) (hgap.subtree_none hsubtree)⟩

end Way

end Subtree

namespace BlockMap

def ofBlocks (bs : List Block) : BlockMap :=
  ({} : BlockMap).insertMany (bs.map fun b => (b.address, b.bytes))

variable {bs : List Block} {address : Cid}

theorem mem_ofBlocks : address ∈ ofBlocks bs ↔ address ∈ bs.map (·.address) := by
  rw [ofBlocks, Std.TreeMap.mem_insertMany_list]
  simp

theorem getElem?_ofBlocks {block : Block} (hnodup : (bs.map (·.address)).Nodup)
    (hblock : block ∈ bs) :
    (ofBlocks bs)[block.address]? = some block.bytes := by
  apply Std.TreeMap.getElem?_insertMany_list_of_mem Std.ReflCmp.compare_self
  · rw [List.pairwise_map]
    simpa [List.Nodup, List.pairwise_map] using hnodup
  · exact List.mem_map_of_mem hblock

theorem exists_of_getElem?_ofBlocks {bytes : Bytes} (hnodup : (bs.map (·.address)).Nodup)
    (hget : (ofBlocks bs)[address]? = some bytes) : ∃ block ∈ bs, block.bytes = bytes := by
  obtain ⟨block, hblock, rfl⟩ := List.mem_map.1 (mem_ofBlocks.1 (mem_of_getElem? hget))
  rw [getElem?_ofBlocks hnodup hblock] at hget
  exact ⟨block, hblock, Option.some.inj hget⟩

end BlockMap

namespace Tree

variable {tree : Tree}

theorem Spans.exists_proof (h : tree.Spans archive store layer ls) (key : String) :
    ∃ nodes value? blocks root, (tree.path store key).run = .ok (nodes ++ value?.toList) ∧
      tree.addPathBlocks store {} key = (blocks, .ok ()) ∧ nodes.Nodup ∧
      (∀ address, address ∈ blocks ↔ address ∈ nodes) ∧ (tree.get? store key).run = .ok value? ∧
      tree.address = .ok root ∧ ((Tree.load root tree.config).get? (.snapshot blocks) key).run =
        .ok value? := by
  obtain ⟨t, rootConfig⟩ := tree
  cases h.config_eq
  have hholds := h.root.holds
  have hwritten := h.written
  obtain ⟨ns, value?, hway⟩ := h.root.readable.exists_way key
  obtain ⟨bs, hbs, hnodup, hes⟩ := hway.exists_blocks hholds hwritten h.agrees
  have hvalue : value? = Leaves.value? key ls :=
    (hholds.get? h.listing h.agrees).of_ok hway.get?_run
  obtain ⟨root, hroot, haddress⟩ := h.exists_address
  have hagrees : archive.Agrees (.snapshot (.ofBlocks bs)) := by
    apply Archive.agrees_of_blocks
    intro address bytes hget
    obtain ⟨block, hblock, rfl⟩ := BlockMap.exists_of_getElem?_ofBlocks hnodup (Except.ok.inj hget)
    obtain ⟨e, he, hwrites⟩ := hes block hblock
    exact (hwritten.of_mem_spread he).blocks hwrites
  have hloaded := hholds.unresolved h.tops hwritten.has haddress
  have hstored : ∀ n ∈ ns, ∀ block, n.block rootConfig = .ok block →
      ((Blockstore.snapshot (.ofBlocks bs)).get? block.address).run = .ok (some block.bytes) := by
    intro n hn block hblock
    obtain ⟨b, hb, -, hblock'⟩ := exists_mem_of_forall₂ hbs hn
    cases hblock.symm.trans hblock'
    exact Blockstore.run_get?_snapshot_eq (BlockMap.getElem?_ofBlocks hnodup hb)
  obtain ⟨ns', hway'⟩ := hway.exists_way_of_blocks hholds hloaded h.listing h.agrees hagrees hstored
  refine ⟨bs.map (·.address), value?, .ofBlocks bs, root.address, ?_, ?_, hnodup, ?_, ?_,
    haddress, ?_⟩
  · exact hway.path_run (List.forall₂_map_right_iff.2 (hbs.imp fun _ _ hboth => hboth.1))
  · exact hway.addPathBlocks_eq (hbs.imp fun _ _ hboth => hboth.2) {}
  · exact fun address => BlockMap.mem_ofBlocks
  · rw [h.get?_run, hvalue]
  · unfold Tree.get?
    split
    · exact hway'.get?_run
    · next hinvalid =>
      -- All keys of the tree are valid, so it has no value for this one either.
      rw [hvalue, Leaves.value?_eq_none.2]
      · rfl
      · rintro l hl rfl
        exact hinvalid (h.listing.valid l hl)

theorem Built.path_proves {hasher : KeyHasher} {encoded : Bytes → Prop}
    {hdistinct : ∀ a b, encoded a → encoded b →
      Cid.ofBlock Cid.dagCbor a = Cid.ofBlock Cid.dagCbor b → a = b}
    {hlength : ∀ bytes, encoded bytes → bytes.length < 2 ^ 64}
    (h : tree.Built (Archive.dagCbor hasher encoded hdistinct hlength))
    (hstore : (Archive.dagCbor hasher encoded hdistinct hlength).Agrees store)
    (hcovers : (Archive.dagCbor hasher encoded hdistinct hlength).Covers tree)
    (hreadable : tree.Readable store) (key : String) :
    ∃ nodes value? blocks root, (tree.path store key).run = .ok (nodes ++ value?.toList) ∧
      tree.addPathBlocks store {} key = (blocks, .ok ()) ∧ nodes.Nodup ∧
      (∀ address, address ∈ blocks ↔ address ∈ nodes) ∧ (tree.get? store key).run = .ok value? ∧
      tree.address = .ok root ∧
      ((Tree.load root (.dagCbor hasher)).get? (.snapshot blocks) key).run = .ok value? := by
  obtain ⟨layer, ls, hspans⟩ := h.exists_spans hstore hcovers hreadable
  have hproof := hspans.exists_proof key
  rwa [hspans.config_eq] at hproof

end Tree

end

namespace Versions

open Sample (low high)

def archive : Archive config :=
  .dagCbor .tail (· ∈ encoded) (fun _ _ ha hb => List.inj_on_of_nodup_map encoded_distinct.1 ha hb)
    encoded_distinct.2

def tree : Tree := ⟨.resolved highNode, config⟩

theorem agrees : archive.Agrees (.snapshot {}) := Archive.Closed.empty.agrees

theorem built : tree.Built archive := .edit _ (.edit _ .empty agrees add_low) agrees add_high

theorem covers_of_mem {t : Tree} (ht : t ∈ (Session.run config commands).trees) :
    archive.Covers t :=
  fun node hnode record hrecord => ⟨_, rfl, mem_encoded ⟨t, ht, node, record, hnode, hrecord, rfl⟩⟩

theorem covers : archive.Covers tree := by
  apply covers_of_mem
  rw [trees_run]
  simp [tree]

theorem readable {store : Blockstore Id} : tree.Readable store := by
  apply Subtree.readable_resolved
  intro c hc
  simp only [highNode, List.mem_cons, Entry.tree.injEq, reduceCtorEq, List.not_mem_nil,
    or_false] at hc
  rw [hc]
  exact Subtree.readable_resolved fun c hc => by simp [lowNode] at hc

theorem get?_low {store : Blockstore Id} :
    (tree.get? store low.key).run = .ok (some low.value) := by
  cbv

end Versions

theorem Tree.Built.path_proves_of_versions :
    ∃ nodes blocks root, (Versions.tree.path (.snapshot {}) Sample.low.key).run =
      .ok (nodes ++ [Sample.low.value]) ∧
      Versions.tree.addPathBlocks (.snapshot {}) {} Sample.low.key = (blocks, .ok ()) ∧
      (∀ address, address ∈ blocks ↔ address ∈ nodes) ∧ Versions.tree.address = .ok root ∧
      ((Tree.load root Versions.config).get? (.snapshot blocks) Sample.low.key).run =
        .ok (some Sample.low.value) := by
  obtain ⟨nodes, value?, blocks, root, hpath, hblocks, -, hmem, hget, hroot, hload⟩ :=
    Built.path_proves Versions.built Versions.agrees Versions.covers Versions.readable
      Sample.low.key
  cases hget.symm.trans Versions.get?_low
  exact ⟨nodes, blocks, root, hpath, hblocks, hmem, hroot, hload⟩

end MerkleSearch
