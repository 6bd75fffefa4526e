import MerkleSearch.Proofs.Contents
import MerkleSearch.Proofs.History
import MerkleSearch.Proofs.Session

/-!
This module contains what a saving adds to a store that may have other things in it as well. A
saving does not look below a node that the store has, so of each node the store has to have
everything or nothing. The main statement is that this is so again after the saving, and that the
tree can then be read from its address.
-/

namespace MerkleSearch

variable {config : Config} {archive : Archive config} {blocks : BlockMap} {layer height : Nat}
variable {ls : List Leaf} {e x root : Extent} {t : Subtree} {tree : Tree}

def Subtree.Saved (config : Config) (blocks : BlockMap) (t : Subtree) : Prop :=
  ∀ node, .resolved node ∈ t.inMemory → ∀ block, node.block config = .ok block →
    blocks[block.address]? = some block.bytes

/--
Whatever nodes of the tree the store has, it has with all that is below them.
-/
def BlockMap.KeepsWhole (blocks : BlockMap) (tree : Tree) : Prop :=
  ∀ t ∈ tree.root.inMemory, ∀ address, t.address tree.config = .ok address → address ∈ blocks →
    t.Saved tree.config blocks

namespace Extent

theorem spread_trans (he : e ∈ spread config height ls) (hx : x ∈ spread config e.height e.leaves) :
    x ∈ spread config height ls := by
  induction height generalizing ls with
  | zero => cases he
  | succ layer ih =>
    rw [spread_succ, List.mem_cons, mem_nodes_iff] at he
    rcases he with rfl | ⟨u, hu, he⟩
    · exact hx
    · obtain ⟨rfl, hts⟩ := mem_entries_iff.1 hu
      exact mem_spread_succ hts (ih he)

def Saved (config : Config) (blocks : BlockMap) (e : Extent) : Prop :=
  ∀ x ∈ spread config e.height e.leaves, ∀ block, x.block config = .ok block →
    blocks[block.address]? = some block.bytes

structure Kept (archive : Archive config) (root : Extent) (blocks : BlockMap) : Prop where
  agrees : archive.Agrees (.snapshot blocks)
  saved : ∀ e ∈ spread config root.height root.leaves,
    ∀ block, e.block config = .ok block → block.address ∈ blocks → e.Saved config blocks

theorem Kept.extends {new : BlockMap} {block : Block} (h : root.Kept archive (blocks.addAll new))
    (hwritten : e.Written archive) (he : e ∈ spread config root.height root.leaves)
    (hblock : e.block config = .ok block) :
    (blocks.addAll new).Extends (blocks.addAll (new.insert block.address block.bytes)) := by
  intro address bytes hget
  rw [BlockMap.getElem?_addAll_insert]
  split
  · next heq =>
    cases heq
    rw [← hget]
    exact (h.saved e he block hblock (BlockMap.mem_of_getElem? hget) e hwritten.mem_spread block
      hblock).symm
  · exact hget

theorem Written.joins_kept (hroot : root.Written archive)
    (he : e ∈ spread config root.height root.leaves) :
    e.Joins (root.Kept archive) config blocks := by
  intro new block hblock hkept hbelow
  have hwritten := hroot.of_mem_spread he
  have hextends := hkept.extends hwritten he hblock
  have hsaved : e.Saved config (blocks.addAll (new.insert block.address block.bytes)) := by
    intro x hx b hb
    obtain ⟨height, ls⟩ := e
    cases height with
    | zero => exact hwritten.has.elim
    | succ layer =>
      have hinner := hx
      rw [spread_succ, List.mem_cons, mem_nodes_iff] at hinner
      rcases hinner with rfl | ⟨u, hu, hinner⟩
      · cases hb.symm.trans hblock
        rw [BlockMap.getElem?_addAll_insert, if_pos rfl]
      · obtain ⟨rfl, hts⟩ := mem_entries_iff.1 hu
        have hchild := hwritten.child hts
        obtain ⟨b', hb'⟩ := hchild.exists_block
        have hspread := spread_trans he (mem_spread_succ hts hchild.mem_spread)
        exact hextends _ _ (hkept.saved u hspread b' hb' (hbelow u hu b' hb') x hinner b hb)
  constructor
  · intro address bytes known hget hknown heq
    have hget := Except.ok.inj hget
    rw [BlockMap.getElem?_addAll_insert] at hget
    split at hget
    · cases hget
      exact archive.injective _ _ (hwritten.blocks hblock) hknown heq
    · exact hkept.agrees address bytes known (congrArg Except.ok hget) hknown heq
  · intro x hx b hb hmem
    rw [BlockMap.mem_addAll_insert] at hmem
    rcases hmem with heq | hmem
    · cases (hroot.of_mem_spread hx).eq_of_address_eq hwritten hb hblock heq
      exact hsaved
    · exact fun y hy c hc => hextends _ _ (hkept.saved x hx b hb hmem y hy c hc)

end Extent

theorem canonical_mem_inMemory (he : e ∈ Extent.spread config height ls) :
    canonical config e.height e.leaves ∈ (canonical config height ls).inMemory := by
  induction height generalizing ls with
  | zero => cases he
  | succ layer ih =>
    have hcanonical : canonical config (layer + 1) ls = .resolved (canonicalNode config layer ls) :=
      rfl
    rw [hcanonical, Subtree.inMemory_resolved]
    rw [Extent.spread_succ, List.mem_cons, Extent.mem_nodes_iff] at he
    rcases he with rfl | ⟨u, hu, he⟩
    · exact List.mem_cons_self
    · obtain ⟨rfl, hts⟩ := Extent.mem_entries_iff.1 hu
      apply List.mem_cons_of_mem
      exact mem_entriesInMemory.2 ⟨_, List.mem_map_of_mem hts, ih he⟩

theorem BlockMap.KeepsWhole.kept (h : blocks.KeepsWhole ⟨canonical config (layer + 1) ls, config⟩)
    (hwritten : Extent.Written archive ⟨layer + 1, ls⟩)
    (hstore : archive.Agrees (.snapshot blocks)) :
    Extent.Kept archive ⟨layer + 1, ls⟩ blocks := by
  refine ⟨hstore, ?_⟩
  intro e he block hblock hmem x hx b hb
  have haddress := (hwritten.of_mem_spread he).address_eq hblock
  have hsaved := h _ (canonical_mem_inMemory he) block.address haddress hmem
  have hpos := (hwritten.of_mem_spread (Extent.spread_trans he hx)).height_pos
  obtain ⟨n, us⟩ := x
  cases n with
  | zero => exact absurd hpos (Nat.lt_irrefl 0)
  | succ n => exact hsaved (canonicalNode config n us) (canonical_mem_inMemory hx) b hb

theorem Subtree.Holds.exists_extent (h : t.Holds archive height ls) {u : Subtree}
    (hu : u ∈ t.inMemory) :
    ∃ e ∈ Extent.spread config height ls, u.Holds archive e.height e.leaves := by
  induction height generalizing t ls with
  | zero => exact h.elim
  | succ layer ih =>
    match t, h with
    | .unresolved _ _, _ => cases hu
    | .resolved node, h =>
      rw [inMemory_resolved, List.mem_cons, mem_entriesInMemory] at hu
      rcases hu with rfl | ⟨c, hc, hu⟩
      · refine ⟨⟨layer + 1, ls⟩, ?_, h⟩
        rw [Extent.spread_succ]
        exact List.mem_cons_self
      · have hnode : node.Holds archive (Subtree.Holds archive layer) layer ls := h
        obtain ⟨ts, hts, -, hholds⟩ := hnode.exists_group hc
        obtain ⟨e, he, hu⟩ := ih hholds hu
        exact ⟨e, Extent.mem_spread_succ hts he, hu⟩

namespace Archive.Closed

theorem saved (h : archive.Closed blocks) (he : e.Written archive) {block : Block}
    (hblock : e.block config = .ok block) (hmem : block.address ∈ blocks) :
    e.Saved config blocks := by
  obtain ⟨height, ls⟩ := e
  induction height generalizing ls block with
  | zero => exact he.has.elim
  | succ layer ih =>
    obtain ⟨record, _, hrecord, hdecode, hbytes, haddress, hcanonical⟩ := he.has.exists_block
    cases hblock.symm.trans hcanonical
    obtain ⟨found, hget⟩ := BlockMap.exists_of_mem hmem
    obtain ⟨hfound, heq⟩ := h.block _ _ hget
    cases archive.injective _ _ hfound hbytes ⟨_, heq, haddress⟩
    obtain ⟨_, hdecode', hpointers⟩ := h.pointers _ _ hget
    cases hdecode.symm.trans hdecode'
    intro x hx b hb
    rw [Extent.spread_succ, List.mem_cons, Extent.mem_nodes_iff] at hx
    rcases hx with rfl | ⟨u, hu, hx⟩
    · cases hb.symm.trans hblock
      exact hget
    · obtain ⟨rfl, hts⟩ := Extent.mem_entries_iff.1 hu
      have hchild := he.child hts
      obtain ⟨b', hb'⟩ := hchild.exists_block
      refine ih (hpointers _ ?_) _ hchild hb' x hx b hb
      rw [NodeRecord.mem_pointers_of_ofEntries hrecord (he.has.sorted he.listing),
        entryAddresses_canonicalNode, List.mem_map]
      exact ⟨_, hts, congrArg Entry.tree (hchild.address_eq hb')⟩

theorem keepsWhole (h : archive.Closed blocks) (hholds : tree.Holds archive ls)
    (hcovers : archive.Covers tree) :
    blocks.KeepsWhole tree := by
  obtain ⟨layer, htops, hroot⟩ := hholds.root
  cases hholds.config_eq
  have hwritten := Extent.Written.of_tops htops hholds.listing (hroot.has hholds.listing hcovers)
  intro t ht address haddress hmem node hnode block hblock
  obtain ⟨e, he, ht⟩ := hroot.exists_extent ht
  have hwritten := hwritten.of_mem_spread he
  obtain ⟨b, hb⟩ := hwritten.exists_block
  rw [ht.address_eq, hwritten.address_eq hb] at haddress
  cases haddress
  obtain ⟨⟨n, us⟩, hx, hnode⟩ := ht.exists_extent hnode
  cases n with
  | zero => exact hnode.elim
  | succ n =>
    have hnode : node.Holds archive (Subtree.Holds archive n) n us := hnode
    rw [hnode.block_eq_canonical] at hblock
    exact h.saved hwritten hb hmem _ hx block hblock

end Archive.Closed

theorem Subtree.Holds.readable_of_saved (h : t.Holds archive height ls)
    (hwritten : Extent.Written archive ⟨height, ls⟩) (hstore : archive.Agrees (.snapshot blocks))
    (hsaved : Extent.Saved config blocks ⟨height, ls⟩) :
    t.Readable (.snapshot blocks) config := by
  induction height generalizing t ls with
  | zero => exact h.elim
  | succ layer ih =>
    obtain ⟨n, hn⟩ := h.exists_resolve hwritten.listing fun block hblock =>
      Blockstore.run_get?_snapshot_eq (hsaved _ hwritten.mem_spread block hblock)
    refine .intro n hn ?_
    intro c hc
    obtain ⟨ts, hts, -, hholds⟩ := (h.of_resolve hwritten.listing hstore hn).exists_group hc
    exact ih hholds (hwritten.child hts) fun e he => hsaved e (Extent.mem_spread_succ hts he)

theorem Tree.Spans.save (h : tree.Spans archive (.snapshot blocks) layer ls)
    (hkept : Extent.Kept archive ⟨layer + 1, ls⟩ blocks) :
    ∃ address blocks', (tree.save .inMemory).run.run blocks = (.ok address, blocks') ∧
      tree.address = .ok address ∧
      archive.Agrees (.snapshot blocks') ∧
      (Tree.load address config).Readable (.snapshot blocks') := by
  obtain ⟨t, rootConfig⟩ := tree
  cases h.config_eq
  have hwritten := h.written
  have hgathers := h.root.holds.gathers hwritten h.root.readable fun e he => hwritten.joins_kept he
  obtain ⟨address, new, hrun, haddress, hkept', -, hmem⟩ := hgathers {} hkept
  have hrun : ((⟨t, rootConfig⟩ : Tree).unstored (.snapshot blocks)).run = .ok (address, new) :=
    hrun
  refine ⟨address, blocks.addAll new, ?_, haddress, hkept'.agrees, ?_⟩
  · rw [run_save_inMemory, hrun]
  · have hloaded := h.root.holds.unresolved h.tops hwritten.has haddress
    apply hloaded.readable_of_saved hwritten hkept'.agrees
    obtain ⟨block, hblock⟩ := hwritten.exists_block
    rw [h.root.holds.address_eq, hwritten.address_eq hblock] at haddress
    cases haddress
    exact hkept'.saved _ hwritten.mem_spread block hblock hmem

end MerkleSearch
