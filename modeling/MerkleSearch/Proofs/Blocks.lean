import MerkleSearch.Proofs.Contents
import MerkleSearch.Proofs.Table

/-!
This module contains what the difference of two trees says about their nodes. A node that both trees
have is passed over in both, or it is noted as new and as gone. This happens in either order, and
the second note takes back the first.
-/

namespace MerkleSearch

variable {config : Config} {archive : Archive config} {ls : List Leaf} {ps qs : List (Entry Extent)}
variable {e x : Extent} {layer height : Nat}

namespace Extent

def Names (config : Config) (us : List (Entry Extent)) (address : Cid) : Prop :=
  ∃ e ∈ nodes config us, ∃ block, e.block config = .ok block ∧ block.address = address

namespace Names

variable {us : List (Entry Extent)} {address : Cid} {block : Block} {l : Leaf}

theorem head (h : canonicalBlock config layer ls = .ok block) :
    Names config (.tree ⟨layer + 1, ls⟩ :: us) block.address := by
  refine ⟨⟨layer + 1, ls⟩, ?_, block, h, rfl⟩
  rw [nodes_tree]
  exact List.mem_cons_self

theorem tail (h : Names config (entries config ⟨layer + 1, ls⟩ ++ us) address) :
    Names config (.tree ⟨layer + 1, ls⟩ :: us) address := by
  obtain ⟨e, he, hblock⟩ := h
  refine ⟨e, ?_, hblock⟩
  rw [nodes_tree]
  exact List.mem_cons_of_mem _ he

theorem skip (h : Names config us address) : Names config (.tree e :: us) address := by
  obtain ⟨x, hx, hblock⟩ := h
  exact ⟨x, List.mem_append_right _ hx, hblock⟩

theorem mem (h : Names config us block.address) (hus : ∀ e ∈ nodes config us, e.Written archive)
    (hx : x.Written archive) (hblock : x.block config = .ok block) :
    x ∈ nodes config us := by
  obtain ⟨e, he, other, hother, haddress⟩ := h
  rw [← (hus e he).eq_of_address_eq hx hother hblock haddress]
  exact he

@[simp]
theorem leaf_iff : Names config (.leaf l :: us) address ↔ Names config us address := Iff.rfl

end Names

end Extent

namespace Diff

variable {d d' : Diff} {block other : Block} {n : Int} {l : Leaf} {key : String}
variable {prev value address : Cid}

/--
How often a node has been noted as new, less how often as gone.
-/
structure Stands (d : Diff) (block : Block) (n : Int) : Prop where
  new : d.newBlocks[block.address]? = if n = 1 then some block.bytes else none
  removed : block.address ∈ d.removed ↔ n = -1
  removedBlocks : block.address ∈ d.removedBlocks ↔ n = -1

namespace Stands

theorem empty : ({} : Diff).Stands block 0 := by
  constructor <;> simp

theorem of_eq {m : Int} (h : d.Stands block n) (heq : n = m) : d.Stands block m := heq ▸ h

theorem addLeaf (h : d.Stands block n) (hvalue : l.value ≠ block.address) :
    (d.addLeaf l).Stands block n := by
  unfold Diff.addLeaf
  dsimp only
  split
  · refine ⟨h.new, ?_, h.removedBlocks⟩
    rw [← h.removed]
    simp [hvalue]
  · exact ⟨h.new, h.removed, h.removedBlocks⟩

theorem deleteLeaf (h : d.Stands block n) (hvalue : l.value ≠ block.address) :
    (d.deleteLeaf l).Stands block n := by
  unfold Diff.deleteLeaf
  dsimp only
  split
  · exact ⟨h.new, h.removed, h.removedBlocks⟩
  · refine ⟨h.new, ?_, h.removedBlocks⟩
    rw [← h.removed]
    simp [hvalue]

theorem updateLeaf (h : d.Stands block n) (hprev : prev ≠ block.address) :
    (d.updateLeaf key prev value).Stands block n := by
  unfold Diff.updateLeaf
  split
  · exact h
  · refine ⟨h.new, ?_, h.removedBlocks⟩
    rw [← h.removed]
    simp [hprev]

theorem addNode (h : d.Stands block n) (hlow : -1 ≤ n) (hhigh : n < 1) :
    (d.addNode block).Stands block (n + 1) := by
  unfold Diff.addNode
  rcases (by omega : n = -1 ∨ n = 0) with rfl | rfl
  · have hmem : d.removed.contains block.address := h.removed.2 rfl
    rw [if_pos hmem]
    refine ⟨h.new, ?_, ?_⟩ <;> simp
  · have hmem : ¬d.removed.contains block.address := fun hmem => nomatch h.removed.1 hmem
    rw [if_neg hmem]
    refine ⟨?_, h.removed.trans (by decide), h.removedBlocks.trans (by decide)⟩
    simp

theorem addNode_of_ne (h : d.Stands block n) (hne : other.address ≠ block.address) :
    (d.addNode other).Stands block n := by
  unfold Diff.addNode
  split
  · refine ⟨h.new, ?_, ?_⟩
    · rw [← h.removed]
      simp [hne]
    · rw [← h.removedBlocks]
      simp [hne]
  · refine ⟨?_, h.removed, h.removedBlocks⟩
    rw [← h.new]
    simp [Std.TreeMap.getElem?_insert, hne]

theorem deleteNode (h : d.Stands block n) (hlow : -1 < n) (hhigh : n ≤ 1) :
    (d.deleteNode block.address).Stands block (n - 1) := by
  unfold Diff.deleteNode
  rcases (by omega : n = 0 ∨ n = 1) with rfl | rfl
  · have hmem : ¬d.newBlocks.contains block.address := by
      have hnew := h.new
      rw [if_neg (by decide)] at hnew
      rw [Std.TreeMap.contains_eq_isSome_getElem?, hnew]
      exact nofun
    rw [if_neg hmem]
    refine ⟨h.new, ?_, ?_⟩ <;> simp
  · have hmem : d.newBlocks.contains block.address := by
      have hnew := h.new
      rw [if_pos rfl] at hnew
      rw [Std.TreeMap.contains_eq_isSome_getElem?, hnew]
      rfl
    rw [if_pos hmem]
    refine ⟨?_, h.removed.trans (by decide), h.removedBlocks.trans (by decide)⟩
    simp

theorem deleteNode_of_ne (h : d.Stands block n) (hne : other.address ≠ block.address) :
    (d.deleteNode other.address).Stands block n := by
  unfold Diff.deleteNode
  split
  · refine ⟨?_, h.removed, h.removedBlocks⟩
    rw [← h.new]
    simp [Std.TreeMap.getElem?_erase, hne]
  · refine ⟨h.new, ?_, ?_⟩
    · rw [← h.removed]
      simp [hne]
    · rw [← h.removedBlocks]
      simp [hne]

end Stands

@[simp]
theorem newBlocks_addLeaf : (d.addLeaf l).newBlocks = d.newBlocks := by
  unfold addLeaf
  dsimp only
  split <;> rfl

@[simp]
theorem removedBlocks_addLeaf : (d.addLeaf l).removedBlocks = d.removedBlocks := by
  unfold addLeaf
  dsimp only
  split <;> rfl

@[simp]
theorem newBlocks_deleteLeaf : (d.deleteLeaf l).newBlocks = d.newBlocks := by
  unfold deleteLeaf
  dsimp only
  split <;> rfl

@[simp]
theorem removedBlocks_deleteLeaf : (d.deleteLeaf l).removedBlocks = d.removedBlocks := by
  unfold deleteLeaf
  dsimp only
  split <;> rfl

@[simp]
theorem newBlocks_updateLeaf : (d.updateLeaf key prev value).newBlocks = d.newBlocks := by
  unfold updateLeaf
  split <;> rfl

@[simp]
theorem removedBlocks_updateLeaf :
    (d.updateLeaf key prev value).removedBlocks = d.removedBlocks := by
  unfold updateLeaf
  split <;> rfl

theorem of_mem_newBlocks_addNode (h : address ∈ (d.addNode block).newBlocks) :
    address = block.address ∨ address ∈ d.newBlocks := by
  unfold addNode at h
  split at h
  · exact .inr h
  · exact (Std.TreeMap.mem_insert.1 h).imp_left fun heq => (Std.LawfulEqOrd.eq_of_compare heq).symm

theorem of_mem_removedBlocks_addNode (h : address ∈ (d.addNode block).removedBlocks) :
    address ∈ d.removedBlocks := by
  unfold addNode at h
  split at h
  · exact Std.TreeSet.mem_of_mem_erase h
  · exact h

theorem of_mem_newBlocks_deleteNode {gone : Cid} (h : address ∈ (d.deleteNode gone).newBlocks) :
    address ∈ d.newBlocks := by
  unfold deleteNode at h
  split at h
  · exact Std.TreeMap.mem_of_mem_erase h
  · exact h

theorem of_mem_removedBlocks_deleteNode {gone : Cid}
    (h : address ∈ (d.deleteNode gone).removedBlocks) :
    address = gone ∨ address ∈ d.removedBlocks := by
  unfold deleteNode at h
  split at h
  · exact .inr h
  · exact (Std.TreeSet.mem_insert.1 h).imp_left fun heq => (Std.LawfulEqOrd.eq_of_compare heq).symm

theorem Compared.of_mem_newBlocks (h : Compared config ps qs d d')
    (haddress : address ∈ d'.newBlocks) :
    address ∈ d.newBlocks ∨ Extent.Names config qs address := by
  induction h with
  | done => exact .inl haddress
  | newLeaf _ _ ih => simpa using ih haddress
  | goneLeaf _ _ ih => simpa using ih haddress
  | sameKey _ _ ih => simpa using ih haddress
  | newNode hblock _ ih =>
    rcases ih haddress with hbefore | hnames
    · rcases of_mem_newBlocks_addNode hbefore with rfl | hbefore
      · exact .inr (.head hblock)
      · exact .inl hbefore
    · exact .inr hnames.tail
  | goneNode _ _ ih => exact (ih haddress).imp_left of_mem_newBlocks_deleteNode
  | skip _ ih => exact (ih haddress).imp_right .skip

theorem Compared.of_mem_removedBlocks (h : Compared config ps qs d d')
    (haddress : address ∈ d'.removedBlocks) :
    address ∈ d.removedBlocks ∨ Extent.Names config ps address := by
  induction h with
  | done => exact .inl haddress
  | newLeaf _ _ ih => simpa using ih haddress
  | goneLeaf _ _ ih => simpa using ih haddress
  | sameKey _ _ ih => simpa using ih haddress
  | newNode _ _ ih => exact (ih haddress).imp_left of_mem_removedBlocks_addNode
  | goneNode hblock _ ih =>
    rcases ih haddress with hbefore | hnames
    · rcases of_mem_removedBlocks_deleteNode hbefore with rfl | hbefore
      · exact .inr (.head hblock)
      · exact .inl hbefore
    · exact .inr hnames.tail
  | skip _ ih => exact (ih haddress).imp_right .skip

theorem Compared.stands (h : Compared config ps qs d d') (hx : x.Written archive)
    (hblock : x.block config = .ok block) (hps : ∀ e ∈ Extent.nodes config ps, e.Written archive)
    (hqs : ∀ e ∈ Extent.nodes config qs, e.Written archive)
    (hpvalues : ∀ l ∈ Extent.content ps, l.value ≠ block.address)
    (hqvalues : ∀ l ∈ Extent.content qs, l.value ≠ block.address) (hstands : d.Stands block n)
    (hhigh : n + (Extent.nodes config qs).count x ≤ 1)
    (hlow : -1 ≤ n - (Extent.nodes config ps).count x) :
    d'.Stands block (n + (Extent.nodes config qs).count x - (Extent.nodes config ps).count x) := by
  -- Every step counts for the node that it is about, and the others leave it as it is.
  induction h generalizing n with
  | done =>
    simpa using hstands
  | newLeaf _ _ ih =>
    rw [Extent.content_leaf, List.forall_mem_cons] at hqvalues
    rw [Extent.nodes_leaf] at hqs hhigh ⊢
    exact ih hps hqs hpvalues hqvalues.2 (hstands.addLeaf hqvalues.1) hhigh hlow
  | goneLeaf _ _ ih =>
    rw [Extent.content_leaf, List.forall_mem_cons] at hpvalues
    rw [Extent.nodes_leaf] at hps hlow ⊢
    exact ih hps hqs hpvalues.2 hqvalues (hstands.deleteLeaf hpvalues.1) hhigh hlow
  | sameKey _ _ ih =>
    rw [Extent.content_leaf, List.forall_mem_cons] at hpvalues hqvalues
    rw [Extent.nodes_leaf] at hps hqs hlow hhigh ⊢
    rw [Extent.nodes_leaf]
    exact ih hps hqs hpvalues.2 hqvalues.2 (hstands.updateLeaf hpvalues.1) hhigh hlow
  | @newNode layer ls other ps qs _ _ hother _ ih =>
    rw [Extent.nodes_tree, List.forall_mem_cons] at hqs
    rw [Extent.nodes_tree] at hhigh ⊢
    rw [← @Extent.content_enter config] at hqvalues
    by_cases heq : ⟨layer + 1, ls⟩ = x
    · cases heq
      rw [List.count_cons_self] at hhigh ⊢
      cases hother.symm.trans hblock
      have hstands := hstands.addNode (by omega) (by omega)
      exact (ih hps hqs.2 hpvalues hqvalues hstands (by omega) (by omega)).of_eq (by omega)
    · rw [List.count_cons_of_ne heq] at hhigh ⊢
      have hne : other.address ≠ block.address :=
        fun h => heq (hqs.1.eq_of_address_eq hx hother hblock h)
      exact ih hps hqs.2 hpvalues hqvalues (hstands.addNode_of_ne hne) hhigh hlow
  | @goneNode layer ls other ps qs _ _ hother _ ih =>
    rw [Extent.nodes_tree, List.forall_mem_cons] at hps
    rw [Extent.nodes_tree] at hlow ⊢
    rw [← @Extent.content_enter config] at hpvalues
    by_cases heq : ⟨layer + 1, ls⟩ = x
    · cases heq
      rw [List.count_cons_self] at hlow ⊢
      cases hother.symm.trans hblock
      have hstands := hstands.deleteNode (by omega) (by omega)
      exact (ih hps.2 hqs hpvalues hqvalues hstands (by omega) (by omega)).of_eq (by omega)
    · rw [List.count_cons_of_ne heq] at hlow ⊢
      have hne : other.address ≠ block.address :=
        fun h => heq (hps.1.eq_of_address_eq hx hother hblock h)
      exact ih hps.2 hqs hpvalues hqvalues (hstands.deleteNode_of_ne hne) hhigh hlow
  | @skip e ps qs _ _ _ ih =>
    rw [Extent.nodes_tree_cons, List.forall_mem_append] at hps hqs
    rw [Extent.nodes_tree_cons, List.count_append] at hhigh hlow ⊢
    rw [Extent.nodes_tree_cons, List.count_append]
    rw [Extent.content_tree, List.forall_mem_append] at hpvalues hqvalues
    exact (ih hps.2 hqs.2 hpvalues.2 hqvalues.2 hstands (by omega) (by omega)).of_eq (by omega)

end Diff

namespace Tree

variable {store prevStore : Blockstore Id} {tree curr prev : Tree}

namespace Spans

theorem hasBlock_iff (h : tree.Spans archive store layer ls) {block : Block} :
    tree.HasBlock store block ↔
      ∃ e ∈ Extent.nodes config [.tree ⟨layer + 1, ls⟩], e.block config = .ok block := by
  have hroot := h.root.holds
  have hreadable := h.root.readable
  unfold HasBlock
  rw [h.config_eq, Extent.nodes_singleton]
  constructor
  · rintro ⟨node, hnode, -, hblock⟩
    obtain ⟨n, us, hus, -, hheld⟩ := hroot.of_reaches h.listing h.agrees hnode
    refine ⟨_, hus, ?_⟩
    rw [← hblock, hheld.block_eq_canonical]
    rfl
  · rintro ⟨e, he, hblock⟩
    have hpos := (h.written.of_mem_spread he).height_pos
    obtain ⟨_ | n, us⟩ := e
    · exact absurd hpos (Nat.lt_irrefl 0)
    · obtain ⟨node, hnode, hheld⟩ := hroot.exists_reaches h.listing h.agrees hreadable he
      have hcanonical : canonicalBlock config n us = .ok block := hblock
      refine ⟨node, hnode, ?_, ?_⟩
      · rw [hheld.addressIn_eq, address_canonical, hcanonical]
        rfl
      · rw [hheld.block_eq_canonical, hcanonical]

theorem mem_nodes (h : tree.Spans archive store layer ls) :
    ∀ e ∈ Extent.nodes config [.tree ⟨layer + 1, ls⟩], e.Written archive := by
  rw [Extent.nodes_singleton]
  exact fun e => h.written.of_mem_spread

theorem nodup_nodes (h : tree.Spans archive store layer ls) :
    (Extent.nodes config [.tree ⟨layer + 1, ls⟩]).Nodup := by
  rw [Extent.nodes_singleton]
  exact h.written.nodup_spread

theorem hasPointer_iff (h : tree.Spans archive store layer ls) {address : Cid} :
    tree.HasPointer store address ↔ Extent.Names config [.tree ⟨layer + 1, ls⟩] address := by
  constructor
  · unfold HasPointer
    rw [h.config_eq]
    rintro ⟨node, hnode, haddress⟩
    obtain ⟨n, us, hus, -, hheld⟩ := h.root.holds.of_reaches h.listing h.agrees hnode
    obtain ⟨block, hblock⟩ := (h.written.of_mem_spread hus).exists_block
    have hcanonical : canonicalBlock config n us = .ok block := hblock
    rw [hheld.addressIn_eq, address_canonical, hcanonical] at haddress
    refine ⟨_, ?_, block, hblock, Except.ok.inj haddress⟩
    rw [Extent.nodes_singleton]
    exact hus
  · rintro ⟨e, he, block, hblock, rfl⟩
    obtain ⟨node, hnode, haddress, -⟩ := h.hasBlock_iff.2 ⟨e, he, hblock⟩
    exact ⟨node, hnode, haddress⟩

theorem hasValue (h : tree.Spans archive store layer ls) {l : Leaf} (hl : l ∈ ls) :
    tree.HasValue store l.value := by
  unfold HasValue
  rw [h.config_eq]
  exact ⟨l, h.root.holds.contains h.listing h.agrees h.root.readable hl, rfl⟩

theorem stands {layer' : Nat} {ls' : List Leaf} (hcurr : curr.Spans archive store layer ls)
    (hprev : prev.Spans archive prevStore layer' ls') {d : Diff}
    (h : Diff.Compared config [.tree ⟨layer' + 1, ls'⟩] [.tree ⟨layer + 1, ls⟩] {} d)
    {block : Block} (hx : x.Written archive) (hblock : x.block config = .ok block)
    (hvalues : ¬curr.HasValue store block.address ∧ ¬prev.HasValue prevStore block.address) :
    d.Stands block ((Extent.nodes config [.tree ⟨layer + 1, ls⟩]).count x -
      (Extent.nodes config [.tree ⟨layer' + 1, ls'⟩]).count x) := by
  have hcount := List.nodup_iff_count_le_one.1 hcurr.nodup_nodes x
  have hcount' := List.nodup_iff_count_le_one.1 hprev.nodup_nodes x
  have hps : ∀ l ∈ Extent.content [.tree ⟨layer' + 1, ls'⟩], l.value ≠ block.address := by
    rw [Extent.content_singleton]
    exact fun l hl heq => hvalues.2 (heq ▸ hprev.hasValue hl)
  have hqs : ∀ l ∈ Extent.content [.tree ⟨layer + 1, ls⟩], l.value ≠ block.address := by
    rw [Extent.content_singleton]
    exact fun l hl heq => hvalues.1 (heq ▸ hcurr.hasValue hl)
  apply (h.stands hx hblock hprev.mem_nodes hcurr.mem_nodes hps hqs .empty (by omega)
    (by omega)).of_eq
  omega

section Reported

variable {layer' : Nat} {ls' : List Leaf} {d : Diff} {address : Cid} {bytes : Bytes}
variable (hcurr : curr.Spans archive store layer ls)
variable (hprev : prev.Spans archive prevStore layer' ls')
variable (h : Diff.Compared config [.tree ⟨layer' + 1, ls'⟩] [.tree ⟨layer + 1, ls⟩] {} d)
variable (hvalues : ∀ address, curr.HasPointer store address ∨ prev.HasPointer prevStore address →
  ¬curr.HasValue store address ∧ ¬prev.HasValue prevStore address)
include hcurr hprev h hvalues

theorem newBlocks_iff :
    d.newBlocks[address]? = some bytes ↔
      curr.HasBlock store ⟨address, bytes⟩ ∧ ¬prev.HasPointer prevStore address := by
  rw [hcurr.hasBlock_iff]
  constructor
  · intro hget
    have hmem : address ∈ d.newBlocks := by
      rw [Std.TreeMap.mem_iff_isSome_getElem?, hget]
      rfl
    obtain ⟨x, hx, block, hblock, rfl⟩ := (h.of_mem_newBlocks hmem).resolve_left (by simp)
    have hpointer := hcurr.hasPointer_iff.2 ⟨x, hx, block, hblock, rfl⟩
    have hnew :=
      (hcurr.stands hprev h (hcurr.mem_nodes x hx) hblock (hvalues _ (.inl hpointer))).new
    rw [hget, List.count_eq_one_of_mem hcurr.nodup_nodes hx] at hnew
    split at hnew
    · next hone =>
      cases hnew
      refine ⟨⟨x, hx, hblock⟩, ?_⟩
      rw [hprev.hasPointer_iff]
      -- If the older tree had it as well, the notes would have taken each other back.
      intro hnames
      have hx' := hnames.mem hprev.mem_nodes (hcurr.mem_nodes x hx) hblock
      rw [List.count_eq_one_of_mem hprev.nodup_nodes hx'] at hone
      cases hone
    · cases hnew
  · rintro ⟨⟨x, hx, hblock⟩, hnot⟩
    have hx' : x ∉ Extent.nodes config [.tree ⟨layer' + 1, ls'⟩] :=
      fun hx' => hnot (hprev.hasPointer_iff.2 ⟨x, hx', _, hblock, rfl⟩)
    have hpointer := hcurr.hasPointer_iff.2 ⟨x, hx, _, hblock, rfl⟩
    have hnew :=
      (hcurr.stands hprev h (hcurr.mem_nodes x hx) hblock (hvalues _ (.inl hpointer))).new
    rw [List.count_eq_one_of_mem hcurr.nodup_nodes hx, List.count_eq_zero_of_not_mem hx'] at hnew
    exact hnew

theorem mem_removedBlocks_iff :
    address ∈ d.removedBlocks ↔ prev.HasPointer prevStore address ∧
    ¬curr.HasPointer store address := by
  constructor
  · intro hmem
    obtain ⟨x, hx, block, hblock, rfl⟩ := (h.of_mem_removedBlocks hmem).resolve_left (by simp)
    have hpointer := hprev.hasPointer_iff.2 ⟨x, hx, block, hblock, rfl⟩
    have hstands := hcurr.stands hprev h (hprev.mem_nodes x hx) hblock (hvalues _ (.inr hpointer))
    have hgone := hstands.removedBlocks.1 hmem
    refine ⟨hpointer, ?_⟩
    rw [hcurr.hasPointer_iff]
    intro hnames
    have hx' := hnames.mem hcurr.mem_nodes (hprev.mem_nodes x hx) hblock
    rw [List.count_eq_one_of_mem hcurr.nodup_nodes hx',
      List.count_eq_one_of_mem hprev.nodup_nodes hx] at hgone
    cases hgone
  · rintro ⟨hpointer, hnot⟩
    obtain ⟨x, hx, block, hblock, rfl⟩ := hprev.hasPointer_iff.1 hpointer
    have hx' : x ∉ Extent.nodes config [.tree ⟨layer + 1, ls⟩] :=
      fun hx' => hnot (hcurr.hasPointer_iff.2 ⟨x, hx', _, hblock, rfl⟩)
    have hstands := hcurr.stands hprev h (hprev.mem_nodes x hx) hblock (hvalues _ (.inr hpointer))
    apply hstands.removedBlocks.2
    rw [List.count_eq_one_of_mem hprev.nodup_nodes hx, List.count_eq_zero_of_not_mem hx']
    rfl

end Reported

end Spans

theorem Built.diff_blocks (hcurr : curr.Built archive) (hprev : prev.Built archive)
    (hstore : archive.Agrees store) (hprevStore : archive.Agrees prevStore)
    (hcovers : archive.Covers curr) (hprevCovers : archive.Covers prev)
    (hreadable : curr.Readable store) (hprevReadable : prev.Readable prevStore)
    (hvalues : ∀ address, curr.HasPointer store address ∨ prev.HasPointer prevStore address →
      ¬curr.HasValue store address ∧ ¬prev.HasValue prevStore address) :
    ∃ d, (curr.diff store prev prevStore).run = .ok d ∧
      (∀ address bytes, d.newBlocks[address]? = some bytes ↔
        curr.HasBlock store ⟨address, bytes⟩ ∧ ¬prev.HasPointer prevStore address) ∧
      ∀ address, address ∈ d.removedBlocks ↔
        prev.HasPointer prevStore address ∧ ¬curr.HasPointer store address := by
  obtain ⟨layer, ls, hls⟩ := hcurr.exists_spans hstore hcovers hreadable
  obtain ⟨layer', ls', hls'⟩ := hprev.exists_spans hprevStore hprevCovers hprevReadable
  obtain ⟨d, hrun, hcompared⟩ := hls.diff hls'
  refine ⟨d, hrun, ?_, ?_⟩
  · exact fun address bytes => hls.newBlocks_iff hls' hcompared hvalues
  · exact fun address => hls.mem_removedBlocks_iff hls' hcompared hvalues

theorem Built.diff_blocks_of_revised :
    let store := Blockstore.snapshot Sample.shelf
    let stored := Tree.load (Sample.pointer 2) Sample.config
    ∃ d, (Sample.revised.diff store stored store).run = .ok d ∧
      d.newBlocks[Sample.pointer 3]? = some [0, 0, 0] ∧ d.newBlocks[Sample.pointer 1]? = none ∧
      Sample.pointer 2 ∈ d.removedBlocks ∧ Sample.pointer 1 ∉ d.removedBlocks := by
  intro store stored
  have hvalues : ∀ address,
      Sample.revised.HasPointer store address ∨ stored.HasPointer store address →
      ¬Sample.revised.HasValue store address ∧ ¬stored.HasValue store address := by
    intro address hpointer
    rw [Sample.hasPointer_revised_iff, Sample.hasPointer_load_iff] at hpointer
    rw [Sample.hasValue_revised_iff, Sample.hasValue_load_iff]
    rcases hpointer with (rfl | rfl) | (rfl | rfl) <;> decide
  obtain ⟨d, hrun, hnew, hgone⟩ := Built.diff_blocks Sample.built_revised Sample.built_load
    Sample.agrees_shelf Sample.agrees_shelf Sample.covers_revised Sample.covers_load
    Sample.readable_revised Sample.readable_shelf hvalues
  refine ⟨d, hrun, (hnew _ _).2 ⟨?_, ?_⟩, ?_, (hgone _).2 ⟨?_, ?_⟩, ?_⟩
  · exact ⟨Sample.revisedNode, Subtree.reaches_resolved.2 (.inl rfl), by cbv, by cbv⟩
  · rw [Sample.hasPointer_load_iff]
    decide
  · rw [Option.eq_none_iff_forall_ne_some]
    intro bytes hbytes
    exact ((hnew _ _).1 hbytes).2 (Sample.hasPointer_load_iff.2 (.inr rfl))
  · exact Sample.hasPointer_load_iff.2 (.inl rfl)
  · rw [Sample.hasPointer_revised_iff]
    decide
  · intro hmem
    exact ((hgone _).1 hmem).2 (Sample.hasPointer_revised_iff.2 (.inr rfl))

end Tree

end MerkleSearch
