import MerkleSearch.Proofs.Blocks
import MerkleSearch.Proofs.Locality
import MerkleSearch.Proofs.Whole

/-!
This module contains what a saving writes to a store that has lost any of its nodes. Nothing is
looked for below a node that the store has, so what it lacks there is left out, and the saving
succeeds nevertheless. The main statement is that exactly those nodes in memory are written that
have nothing above them in the store.
-/

namespace MerkleSearch

section

variable {config : Config} {archive : Archive config} {blocks new new' mid : BlockMap}
variable {layer height : Nat} {ls : List Leaf} {t c : Subtree} {node top : Node} {address : Cid}
variable {block : Block} {us : List (Entry Extent)}

/--
The node is in memory, and the store has neither it nor any node on the way to it.
-/
inductive Subtree.Exposes (config : Config) (blocks : BlockMap) (node : Node) : Subtree → Prop
  | here {address : Cid} (haddress : node.addressIn config = .ok address)
    (hlost : address ∉ blocks) : Exposes config blocks node (.resolved node)
  | inside {top : Node} {c : Subtree} {address : Cid}
    (haddress : top.addressIn config = .ok address) (hlost : address ∉ blocks)
    (hc : .tree c ∈ top.entries) (h : Exposes config blocks node c) :
    Exposes config blocks node (.resolved top)

namespace Subtree

def ExposesBlock (config : Config) (blocks : BlockMap) (t : Subtree) (block : Block) : Prop :=
  ∃ node, t.Exposes config blocks node ∧ node.block config = .ok block

theorem Exposes.inMemory (h : t.Exposes config blocks node) : .resolved node ∈ t.inMemory := by
  induction h with
  | here => exact mem_inMemory_self node
  | inside _ _ hc _ ih => exact mem_inMemory_of_mem hc ih

theorem Exposes.lost (h : t.Exposes config blocks node) :
    ∃ address, node.addressIn config = .ok address ∧ address ∉ blocks := by
  induction h with
  | here haddress hlost => exact ⟨_, haddress, hlost⟩
  | inside _ _ _ _ ih => exact ih

theorem exposesBlock_resolved_iff (haddress : top.addressIn config = .ok address)
    (hlost : address ∉ blocks) {own : Block} (hown : top.block config = .ok own) :
    (resolved top).ExposesBlock config blocks block ↔
      (∃ c, .tree c ∈ top.entries ∧ c.ExposesBlock config blocks block) ∨ own = block := by
  constructor
  · rintro ⟨node, _ | ⟨-, -, hc, h⟩, hblock⟩
    · exact .inr (Except.ok.inj (hown.symm.trans hblock))
    · exact .inl ⟨_, hc, node, h, hblock⟩
  · rintro (⟨c, hc, node, h, hblock⟩ | rfl)
    · exact ⟨node, .inside haddress hlost hc h, hblock⟩
    · exact ⟨top, .here haddress hlost, hown⟩

theorem not_exposesBlock_of_mem (haddress : top.addressIn config = .ok address)
    (hmem : address ∈ blocks) :
    ¬(resolved top).ExposesBlock config blocks block := by
  rintro ⟨node, ⟨haddress', hlost⟩ | ⟨haddress', hlost, -, -⟩, -⟩ <;>
  · cases haddress.symm.trans haddress'
    exact hlost hmem

end Subtree

namespace BlockMap

def Gains (P : Block → Prop) (new new' : BlockMap) : Prop :=
  ∀ block : Block, new'[block.address]? = some block.bytes ↔
    new[block.address]? = some block.bytes ∨ P block

namespace Gains

variable {P Q : Block → Prop}

theorem refl (hP : ∀ block, ¬P block) : new.Gains P new :=
  fun block => (or_iff_left (hP block)).symm

theorem trans (h : new.Gains P mid) (h' : mid.Gains Q new') :
    new.Gains (fun block => P block ∨ Q block) new' := by
  intro block
  rw [h' block, h block, or_assoc]

theorem mono (h : new.Gains P new') (hP : ∀ block, P block ↔ Q block) : new.Gains Q new' := by
  intro block
  rw [h block, hP block]

theorem mem (h : new.Gains P new') (hmem : address ∈ new') :
    address ∈ new ∨ ∃ block, P block ∧ block.address = address := by
  obtain ⟨bytes, hget⟩ := exists_of_mem hmem
  rcases (h ⟨address, bytes⟩).1 hget with hget | hP
  · exact .inl (mem_of_getElem? hget)
  · exact .inr ⟨_, hP, rfl⟩

theorem insert (h : new.Gains P new') (hnot : block.address ∉ new') :
    new.Gains (fun other => P other ∨ block = other) (new'.insert block.address block.bytes) := by
  intro other
  rw [Std.TreeMap.getElem?_insert, ← or_assoc, ← h other]
  simp only [Std.LawfulEqCmp.compare_eq_iff_eq]
  by_cases heq : block.address = other.address
  · rw [if_pos heq, ← heq, Std.TreeMap.getElem?_eq_none hnot, Option.some.injEq]
    obtain ⟨a, bytes⟩ := block
    obtain ⟨b, bytes'⟩ := other
    simp [show a = b from heq]
  · rw [if_neg heq, or_iff_left]
    rintro rfl
    exact heq rfl

end Gains

end BlockMap

theorem Extent.names_singleton {e : Extent} :
    Names config [.tree e] address ↔
    ∃ x ∈ spread config e.height e.leaves,
      ∃ block, x.block config = .ok block ∧ block.address = address := by
  rw [Names, nodes_singleton]

/--
From the subtree exactly the exposed nodes are gathered, all of which are those of the extent, if
none of them has been gathered before.
-/
structure Subtree.Collects (config : Config) (blocks : BlockMap) (t : Subtree)
    (e : Extent) : Prop where
  named : ∀ block, t.ExposesBlock config blocks block → Extent.Names config [.tree e] block.address
  gathers : ∀ new : BlockMap, (∀ address, Extent.Names config [.tree e] address → address ∉ new) →
    ∃ address new', (t.unstored (.snapshot blocks) config new).run = .ok (address, new') ∧
      new.Gains (t.ExposesBlock config blocks) new'

theorem exists_unstoredEntries_gains {es : List NodeEntry} {us : List (Entry Extent)}
    (hes : List.Forall₂ (Entry.Rel (Subtree.Collects config blocks)) es us)
    (hwritten : ∀ e ∈ Extent.nodes config us, e.Written archive)
    (hnodup : (Extent.nodes config us).Nodup)
    (hnew : ∀ address, Extent.Names config us address → address ∉ new) :
    ∃ new', (unstoredEntries (.snapshot blocks) config es new).run = .ok new' ∧
      new.Gains (fun block => ∃ c, .tree c ∈ es ∧ c.ExposesBlock config blocks block) new' := by
  induction hes generalizing new with
  | nil => exact ⟨new, rfl, .refl (by simp)⟩
  | @cons _ _ es us hrel _ ih =>
    cases hrel with
    | leaf l =>
      obtain ⟨new', hrun, hgains⟩ := ih hwritten hnodup hnew
      refine ⟨new', ?_, hgains.mono (by simp)⟩
      rw [unstoredEntries]
      exact hrun
    | @tree c e hc =>
      rw [Extent.nodes_tree_cons] at hwritten hnodup
      obtain ⟨-, hnodup, hapart⟩ := List.nodup_append.1 hnodup
      have hfirst : ∀ address, Extent.Names config [.tree e] address → address ∉ new := by
        intro address hnames
        obtain ⟨x, hx, hblock⟩ := Extent.names_singleton.1 hnames
        exact hnew address ⟨x, List.mem_append_left _ hx, hblock⟩
      obtain ⟨address, mid, hrun, hgains⟩ := hc.gathers new hfirst
      -- What has been gathered from the first subtree is not in any of the others.
      have hmid : ∀ address, Extent.Names config us address → address ∉ mid := by
        rintro address ⟨y, hy, b, hb, rfl⟩ hmem
        rcases hgains.mem hmem with hmem | ⟨block, hblock, heq⟩
        · exact hnew _ ⟨y, List.mem_append_right _ hy, b, hb, rfl⟩ hmem
        · obtain ⟨x, hx, b', hb', heq'⟩ := Extent.names_singleton.1 (hc.named block hblock)
          have hx' := hwritten x (List.mem_append_left _ hx)
          have hy' := hwritten y (List.mem_append_right _ hy)
          exact hapart x hx y hy (hx'.eq_of_address_eq hy' hb' hb (heq'.trans heq))
      obtain ⟨new', hrun', hgains'⟩ :=
        ih (fun x hx => hwritten x (List.mem_append_right _ hx)) hnodup hmid
      have hrun : c.unstored (.snapshot blocks) config new = pure (address, mid) := hrun
      refine ⟨new', ?_, (hgains.trans hgains').mono fun block => by simp⟩
      rw [unstoredEntries, hrun, pure_bind]
      exact hrun'

theorem Subtree.Collects.names {es : List NodeEntry}
    (hes : List.Forall₂ (Entry.Rel (Subtree.Collects config blocks)) es us) (hc : .tree c ∈ es)
    (hblock : c.ExposesBlock config blocks block) :
    Extent.Names config us block.address := by
  obtain ⟨e, he, hcollects⟩ := Entry.exists_tree_of_forall₂_left hes hc
  obtain ⟨x, hx, hx'⟩ := Extent.names_singleton.1 (hcollects.named block hblock)
  exact ⟨x, Extent.mem_nodes_iff.2 ⟨e, he, hx⟩, hx'⟩

theorem entriesInMemory_sublist {es : List NodeEntry} {f : Subtree → Except Error Cid}
    {g : Extent → Except Error Cid}
    (hes : List.Forall₂ (Entry.Rel fun c e =>
      (c.inMemory.map f).Sublist ((Extent.spread config e.height e.leaves).map g)) es us) :
    ((entriesInMemory es).map f).Sublist ((Extent.nodes config us).map g) := by
  induction hes with
  | nil => exact .slnil
  | cons hrel _ ih =>
    cases hrel with
    | leaf l => exact ih
    | tree hc =>
      rw [entriesInMemory, Extent.nodes_tree_cons, List.map_append, List.map_append]
      exact hc.append ih

namespace Subtree.Holds

theorem exists_block (h : t.Holds archive height ls)
    (hwritten : Extent.Written archive ⟨height, ls⟩) (hnode : .resolved node ∈ t.inMemory) :
    ∃ block, node.block config = .ok block ∧
      node.addressIn config = .ok block.address ∧
      Extent.Names config [.tree ⟨height, ls⟩] block.address := by
  obtain ⟨⟨n, us⟩, he, hnode⟩ := h.exists_extent hnode
  have hinner := hwritten.of_mem_spread he
  obtain ⟨block, hblock⟩ := hinner.exists_block
  have haddress := hnode.address_eq.trans (hinner.address_eq hblock)
  cases n with
  | zero => exact hnode.elim
  | succ n =>
    have hnode : node.Holds archive (Subtree.Holds archive n) n us := hnode
    exact ⟨block, hnode.block_eq_canonical.trans hblock, haddress,
      Extent.names_singleton.2 ⟨_, he, block, hblock, rfl⟩⟩

theorem gathers_resolved (h : node.Holds archive (Subtree.Holds archive layer) layer ls)
    (hwritten : Extent.Written archive ⟨layer + 1, ls⟩) (hblock : node.block config = .ok block)
    (haddress : node.addressIn config = .ok block.address)
    (hes : List.Forall₂ (Entry.Rel (Subtree.Collects config blocks)) node.entries
      (Extent.entries config ⟨layer + 1, ls⟩))
    (hnew : ∀ address, Extent.Names config [.tree ⟨layer + 1, ls⟩] address → address ∉ new) :
    ∃ address new', ((Subtree.resolved node).unstored (.snapshot blocks) config new).run =
      .ok (address, new') ∧
      new.Gains ((Subtree.resolved node).ExposesBlock config blocks) new' := by
  by_cases hmem : block.address ∈ blocks
  · exact ⟨_, new, run_unstored_of_mem haddress (.inr hmem), .refl fun _ =>
      not_exposesBlock_of_mem haddress hmem⟩
  · have hspread : ∀ e ∈ Extent.nodes config (Extent.entries config ⟨layer + 1, ls⟩),
        e ∈ Extent.spread config (layer + 1) ls := by
      intro e he
      rw [Extent.spread_succ]
      exact List.mem_cons_of_mem _ he
    have hbelow : ∀ e ∈ Extent.nodes config (Extent.entries config ⟨layer + 1, ls⟩),
        e.Written archive :=
      fun e he => hwritten.of_mem_spread (hspread e he)
    have hnodup := hwritten.nodup_spread
    rw [Extent.spread_succ, List.nodup_cons] at hnodup
    obtain ⟨hown, hnodup⟩ := hnodup
    obtain ⟨new', hrun, hgains⟩ :=
      exists_unstoredEntries_gains hes hbelow hnodup fun address hnames => by
      obtain ⟨x, hx, hx'⟩ := hnames
      exact hnew address (Extent.names_singleton.2 ⟨x, hspread x hx, hx'⟩)
    have hcanonical : Extent.block config ⟨layer + 1, ls⟩ = .ok block :=
      h.block_eq_canonical.symm.trans hblock
    have hfresh : block.address ∉ new :=
      hnew _ (Extent.names_singleton.2 ⟨_, hwritten.mem_spread, block, hcanonical, rfl⟩)
    -- No node inside of the subtree has its address.
    have hnot : block.address ∉ new' := by
      intro hmem'
      rcases hgains.mem hmem' with hmem' | ⟨other, ⟨c, hc, hother⟩, heq⟩
      · exact hfresh hmem'
      · have hnames := Collects.names hes hc hother
        rw [heq] at hnames
        exact hown (hnames.mem hbelow hwritten hcanonical)
    have hunknown : ¬(block.address ∈ new ∨ block.address ∈ blocks) := not_or.2 ⟨hfresh, hmem⟩
    refine ⟨_, _, run_unstored_of_not_mem haddress hunknown hrun hblock,
      (hgains.insert hnot).mono fun other => ?_⟩
    exact (exposesBlock_resolved_iff haddress hmem hblock).symm

theorem collects (h : t.Holds archive height ls) (hwritten : Extent.Written archive ⟨height, ls⟩) :
    t.Collects config blocks ⟨height, ls⟩ := by
  induction height generalizing t ls with
  | zero => exact h.elim
  | succ layer ih =>
    constructor
    · rintro block ⟨node, hnode, hblock⟩
      obtain ⟨found, hfound, -, hnames⟩ := h.exists_block hwritten hnode.inMemory
      cases hfound.symm.trans hblock
      exact hnames
    · intro new hnew
      match t, h with
      | .unresolved address hint, _ => exact ⟨address, new, rfl, .refl nofun⟩
      | .resolved node, h =>
        have hnode : node.Holds archive (Subtree.Holds archive layer) layer ls := h
        obtain ⟨block, hblock, haddress, -⟩ := h.exists_block hwritten (mem_inMemory_self node)
        have hes := hnode.forall₂_entries fun c ts hc _ hts => ih hc (hwritten.child hts)
        exact gathers_resolved hnode hwritten hblock haddress hes hnew

theorem inMemory_sublist (h : t.Holds archive height ls) :
    (t.inMemory.map (·.address config)).Sublist ((Extent.spread config height ls).map fun e =>
      (canonical config e.height e.leaves).address config) := by
  induction height generalizing t ls with
  | zero => exact h.elim
  | succ layer ih =>
    match t, h with
    | .unresolved _ _, _ => exact List.nil_sublist _
    | .resolved node, h =>
      have hnode : node.Holds archive (Subtree.Holds archive layer) layer ls := h
      rw [inMemory_resolved, Extent.spread_succ, List.map_cons, List.map_cons, h.address_eq]
      exact (entriesInMemory_sublist (hnode.forall₂_entries fun c ts hc _ _ => ih hc)).cons_cons _

theorem eq_of_address_eq (h : t.Holds archive height ls)
    (hwritten : Extent.Written archive ⟨height, ls⟩) {u v : Subtree} (hu : u ∈ t.inMemory)
    (hv : v ∈ t.inMemory) (haddress : u.address config = v.address config) :
    u = v := by
  apply List.inj_on_of_nodup_map (h.inMemory_sublist.nodup ?_) hu hv haddress
  refine List.Nodup.map_on ?_ hwritten.nodup_spread
  intro x hx y hy heq
  have hx := hwritten.of_mem_spread hx
  have hy := hwritten.of_mem_spread hy
  obtain ⟨block, hblock⟩ := hx.exists_block
  obtain ⟨block', hblock'⟩ := hy.exists_block
  rw [hx.address_eq hblock, hy.address_eq hblock', Except.ok.injEq] at heq
  exact hx.eq_of_address_eq hy hblock hblock' heq

theorem exists_block_of_exposes (h : t.Holds archive height ls)
    (hwritten : Extent.Written archive ⟨height, ls⟩) (hnode : t.Exposes config blocks node) :
    ∃ block, node.block config = .ok block ∧
      node.addressIn config = .ok block.address ∧ block.address ∉ blocks := by
  obtain ⟨block, hblock, haddress, -⟩ := h.exists_block hwritten hnode.inMemory
  obtain ⟨address, haddress', hlost⟩ := hnode.lost
  cases haddress.symm.trans haddress'
  exact ⟨block, hblock, haddress, hlost⟩

theorem mem_iff_exposes (h : t.Holds archive height ls)
    (hwritten : Extent.Written archive ⟨height, ls⟩)
    (hgains : ({} : BlockMap).Gains (t.ExposesBlock config blocks) new)
    (hnode : .resolved node ∈ t.inMemory) (hblock : node.block config = .ok block) :
    block.address ∈ new ↔ t.Exposes config blocks node := by
  constructor
  · intro hmem
    obtain ⟨found, hfound, haddress, -⟩ := h.exists_block hwritten hnode
    cases hfound.symm.trans hblock
    obtain ⟨other, ⟨node', hnode', hother⟩, heq⟩ :=
      (hgains.mem hmem).resolve_left Std.TreeMap.not_mem_emptyc
    obtain ⟨found', hfound', haddress', -⟩ := h.exists_block_of_exposes hwritten hnode'
    cases hfound'.symm.trans hother
    rw [heq] at haddress'
    cases h.eq_of_address_eq hwritten hnode hnode'.inMemory (haddress.trans haddress'.symm)
    exact hnode'
  · exact fun hexposes =>
      BlockMap.mem_of_getElem? ((hgains block).2 (.inr ⟨node, hexposes, hblock⟩))

theorem exposes_of_lost (h : t.Holds archive height ls)
    (hwritten : Extent.Written archive ⟨height, ls⟩)
    (hwhole : ∀ u ∈ t.inMemory,
      ∀ address, u.address config = .ok address → address ∈ blocks → u.Saved config blocks)
    (hnode : .resolved node ∈ t.inMemory) (hblock : node.block config = .ok block)
    (hlost : block.address ∉ blocks) :
    t.Exposes config blocks node := by
  induction height generalizing t ls with
  | zero => exact h.elim
  | succ layer ih =>
    match t, h with
    | .unresolved _ _, _ => cases hnode
    | .resolved top, h =>
      have htop := mem_inMemory_self top
      obtain ⟨own, hown, haddress, -⟩ := h.exists_block hwritten htop
      have hgone : own.address ∉ blocks := fun hmem =>
        hlost (BlockMap.mem_of_getElem? (hwhole _ htop _ haddress hmem node hnode block hblock))
      rw [inMemory_resolved, List.mem_cons, mem_entriesInMemory] at hnode
      rcases hnode with heq | ⟨c, hc, hnode⟩
      · cases heq
        exact .here haddress hgone
      · have hholds : top.Holds archive (Subtree.Holds archive layer) layer ls := h
        obtain ⟨ts, hts, -, hchild⟩ := hholds.exists_group hc
        have hwhole := fun u hu => hwhole u (mem_inMemory_of_mem hc hu)
        exact .inside haddress hgone hc (ih hchild (hwritten.child hts) hwhole hnode)

end Subtree.Holds

namespace Tree

variable {tree : Tree}

theorem Built.unstored_exposed (h : tree.Built archive) (hcovers : archive.Covers tree)
    (blocks : BlockMap) :
    ∃ root new, (tree.unstored .inMemory).run.run blocks = (.ok (root, new), blocks) ∧
      tree.address = .ok root ∧
      (∀ block : Block, new[block.address]? = some block.bytes ↔
        ∃ node, tree.root.Exposes config blocks node ∧ node.block config = .ok block) ∧
      (∀ address ∈ new, address ∉ blocks) ∧
      (tree.save .inMemory).run.run blocks = (.ok root, blocks.addAll new) ∧
      (∀ node, .resolved node ∈ tree.root.inMemory → ∃ block, node.block config = .ok block ∧
        node.addressIn config = .ok block.address ∧
        (block.address ∈ blocks.addAll new ↔ block.address ∈ blocks ∨
          tree.root.Exposes config blocks node)) ∧
      (blocks.KeepsWhole tree → ∀ node, .resolved node ∈ tree.root.inMemory →
        ∃ address, node.addressIn config = .ok address ∧ address ∈ blocks.addAll new) := by
  obtain ⟨ls, hls⟩ := h.holds
  obtain ⟨layer, htops, hroot⟩ := hls.root
  cases hls.config_eq
  have hwritten := Extent.Written.of_tops htops hls.listing (hroot.has hls.listing hcovers)
  obtain ⟨root, new, hrun, hgains⟩ := (hroot.collects hwritten).gathers {} (by simp)
  have hrun : (tree.unstored (.snapshot blocks)).run = .ok (root, new) := hrun
  have hafter : ∀ node, .resolved node ∈ tree.root.inMemory →
      ∃ block, node.block tree.config = .ok block ∧ node.addressIn tree.config = .ok block.address ∧
      (block.address ∈ blocks.addAll new ↔ block.address ∈ blocks ∨
        tree.root.Exposes tree.config blocks node) := by
    intro node hnode
    obtain ⟨block, hblock, haddress, -⟩ := hroot.exists_block hwritten hnode
    refine ⟨block, hblock, haddress, ?_⟩
    rw [BlockMap.mem_addAll, or_comm, hroot.mem_iff_exposes hwritten hgains hnode hblock]
  refine ⟨root, new, ?_, Subtree.address_of_unstored hrun, ?_, ?_, ?_, hafter, ?_⟩
  · rw [run_unstored_inMemory, hrun]
  · intro block
    rw [hgains block, or_iff_right (by simp)]
    rfl
  · intro address hmem
    obtain ⟨block, ⟨node, hnode, hblock⟩, rfl⟩ :=
      (hgains.mem hmem).resolve_left Std.TreeMap.not_mem_emptyc
    obtain ⟨found, hfound, -, hlost⟩ := hroot.exists_block_of_exposes hwritten hnode
    cases hfound.symm.trans hblock
    exact hlost
  · rw [run_save_inMemory, hrun]
  · intro hwhole node hnode
    obtain ⟨block, hblock, haddress, hiff⟩ := hafter node hnode
    refine ⟨block.address, haddress, hiff.2 (or_iff_not_imp_left.2 fun hlost => ?_)⟩
    exact hroot.exposes_of_lost hwritten hwhole hnode hblock hlost

end Tree

end

namespace Sample

theorem run_unstored_upperShelf :
    (tree.unstored .inMemory).run.run upperShelf = (.ok (pointer 2, {}), upperShelf) := by
  rw [Tree.run_unstored_inMemory]
  exact congrArg (·, upperShelf) (Subtree.run_unstored_of_mem addressIn_high (.inr (by cbv)))

/--
The store is without the lower node, but to save the tree writes nothing, although it succeeds.
-/
theorem saved_without_low :
    tree.Built archive ∧ archive.Covers tree ∧
    (tree.unstored .inMemory).run.run upperShelf = (.ok (pointer 2, {}), upperShelf) ∧
    ((tree.save .inMemory).run.run upperShelf).1 = .ok (pointer 2) ∧
    (.resolved lowNode ∈ tree.root.inMemory ∧ lowNode.addressIn config = .ok (pointer 1) ∧
      pointer 1 ∉ ((tree.save .inMemory).run.run upperShelf).2) ∧
    ((Tree.load (pointer 2) config).leaves
      (.snapshot ((tree.save .inMemory).run.run upperShelf).2)).run =
      .error (.missingBlock (pointer 1)) := by
  have hmemory : tree.root.inMemory = [.resolved highNode, .resolved lowNode] := by cbv
  refine ⟨built, covers, run_unstored_upperShelf, by cbv, ⟨?_, addressIn_low, by decide⟩, by cbv⟩
  rw [hmemory]
  exact List.mem_cons_of_mem _ List.mem_cons_self

end Sample

theorem Tree.Built.unstored_exposed_of_empty :
    ∃ new, (Sample.tree.unstored .inMemory).run.run {} = (.ok (Sample.pointer 2, new), {}) ∧
    (new[Sample.pointer 2]? = some [0, 0] ∧ new[Sample.pointer 1]? = some [0]) ∧
    (Sample.tree.save .inMemory).run.run {} =
      (.ok (Sample.pointer 2), ({} : BlockMap).addAll new) := by
  obtain ⟨root, new, hrun, haddress, hnew, -, hsave, -⟩ :=
    unstored_exposed Sample.built Sample.covers {}
  have hroot : Sample.tree.address = .ok (Sample.pointer 2) := Sample.addressIn_high
  cases haddress.symm.trans hroot
  have hhigh : Sample.highNode.block Sample.config = .ok ⟨Sample.pointer 2, [0, 0]⟩ := by cbv
  have hlow : Sample.lowNode.block Sample.config = .ok ⟨Sample.pointer 1, [0]⟩ := by cbv
  refine ⟨new, hrun,
    ⟨(hnew ⟨_, _⟩).2 ⟨Sample.highNode, ?_, hhigh⟩, (hnew ⟨_, _⟩).2 ⟨Sample.lowNode, ?_, hlow⟩⟩,
    hsave⟩
  · exact .here Sample.addressIn_high (by simp)
  · exact .inside Sample.addressIn_high (by simp) List.mem_cons_self
      (.here Sample.addressIn_low (by simp))

end MerkleSearch
