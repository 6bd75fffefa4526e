import MerkleSearch.Proofs.Page
import MerkleSearch.Proofs.Walk.Lost

/-!
This module contains pages of a tree whose store has lost blocks. A walk from a key on yields what
it did before, up to some leaf, and a page is cut out of that. But a page that is full is not given
out before the leaf behind it has been asked for: if that takes a block that is lost then the whole
page is. The main statement is `Tree.Built.list_of_lost`, which says when a full page stands.
-/

namespace MerkleSearch

section

variable {config : Config} {archive : Archive config} {store whole : Blockstore Id} {key : String}
variable {ls : List Leaf} {t : Subtree} {tree : Tree}

theorem Subtree.Readable.seek_remains (h : t.Readable whole config)
    (hremains : store.RemainsOf whole) (key : String) (rest : List NodeEntry) :
    t.seek store config key rest = t.seek whole config key rest ∨
      ∃ e, (t.seek store config key rest).run = .error e := by
  induction h generalizing rest with
  | @intro t n hn _ ih =>
    have hwhole : t.resolve whole config = pure n := hn
    rw [seek_eq, seek_eq, hwhole, pure_bind]
    rcases resolve_remains_or_lacks hremains hn with hkept | ⟨address, -, -, he⟩
    · rw [show t.resolve store config = pure n from hkept, pure_bind]
      cases hsubtree : (n.val.gap key).subtree with
      | none => exact .inl rfl
      | some c => exact ih c (NodeOf.tree_mem_of_gap hsubtree) _
    · rw [show t.resolve store config = throw (.missingBlock address) from he]
      exact .inr ⟨_, rfl⟩

namespace Tree

theorem Holds.leavesFrom_remains (h : tree.Holds archive ls) (hwhole : archive.Agrees whole)
    (hreadable : tree.Readable whole) (hremains : store.RemainsOf whole) (key : String) :
    (tree.leavesFrom store key).1 <+: Leaves.from key ls := by
  obtain ⟨layer, -, hroot⟩ := h.root
  cases h.config_eq
  obtain ⟨es, hseek, vs, hvs, hleaves⟩ := hroot.seek h.listing hwhole hreadable key []
  rw [List.append_nil] at hseek
  rcases Subtree.Readable.seek_remains hreadable hremains key [] with heq | ⟨e, he⟩
  · obtain ⟨us, outcome, hus, hstart⟩ := hvs.exists_followed_start hremains
    rw [← heq] at hseek
    rw [leavesFrom_of_followed hseek hus, ← hleaves]
    exact hstart.filterMap _
  · rw [leavesFrom_of_seek_error he]
    exact ⟨_, rfl⟩

theorem Built.list_of_lost (h : tree.Built archive) (hwhole : archive.Agrees whole)
    (hreadable : tree.Readable whole) (hremains : store.RemainsOf whole) :
    (∀ n after before items outcome, tree.leavesFrom store (after.getD "") = (items, outcome) →
      n ≤ (Leaves.between after before items).length →
      (tree.list store (some n) after before).run =
        if n < (Leaves.between after none items).length then
          .ok ((Leaves.between after before items).take n)
        else outcome.map fun _ => (Leaves.between after before items).take n) ∧
    ∀ n start items outcome, tree.leavesFrom store start = (items, outcome) →
      n ≤ (Leaves.startingWith start items).length →
      (tree.listWithPrefix store start (some n)).run =
        if n < items.length then .ok ((Leaves.startingWith start items).take n)
        else outcome.map fun _ => (Leaves.startingWith start items).take n := by
  obtain ⟨ls, hls⟩ := h.holds
  have hitems : ∀ key items outcome, tree.leavesFrom store key = (items, outcome) →
      Listing items ∧ ∀ l ∈ items, key ≤ l.key := by
    intro key items outcome hfrom
    have hsub := hls.leavesFrom_remains hwhole hreadable hremains key
    rw [hfrom] at hsub
    exact ⟨hls.listing.sublist (hsub.sublist.trans Leaves.from_sublist), fun l hl =>
      Leaves.le_of_mem_from (hsub.subset hl)⟩
  constructor
  · intro n after before items outcome hfrom hn
    obtain ⟨hlisting, hle⟩ := hitems _ _ _ hfrom
    rw [run_list, hfrom]
    dsimp only
    rw [Leaves.filter_ne_eq_between hlisting hle, Leaves.takeWhile_between hlisting, closePage,
      Leaves.first, Option.elim, List.length_take_of_le hn]
  · intro n start items outcome hfrom hn
    obtain ⟨hlisting, hle⟩ := hitems _ _ _ hfrom
    rw [run_listWithPrefix, hfrom]
    dsimp only
    rw [Leaves.takeWhile_isPrefixOf hlisting hle, closePage, Leaves.first, Option.elim,
      List.length_take_of_le hn]

end Tree

end

namespace Trailing

/-!
A stored tree with a key on layer one and a key on layer zero to the right of it. The lower node is
lost.
-/

open Sample (high)

def last : Leaf := ⟨"a/d", .v1 Cid.raw ⟨0, [4], by decide⟩⟩

def known : List NodeRecord := [
  ⟨none, [⟨0, Bytes.ofText last.key, last.value, none⟩]⟩,
  ⟨none, [⟨0, Bytes.ofText high.key, high.value, some (.v1 Cid.raw ⟨0, [], by decide⟩)⟩]⟩]

def config : Config := { codec := .table known, hasher := .tail }

def archive : Archive config := .table known .tail (by decide)

def lastNode : Node := { entries := [.leaf last], layer := some 0 }

def highNode : Node := { entries := [.leaf high, .tree (.resolved lastNode)], layer := some 1 }

def tree : Tree := ⟨.resolved highNode, config⟩

theorem add_high : ((Tree.empty config).add .empty high.key high.value).run =
    .ok ⟨.resolved { entries := [.leaf high], layer := some 1 }, config⟩ := by
  cbv

theorem add_last :
    ((⟨.resolved { entries := [.leaf high], layer := some 1 }, config⟩ : Tree).add .empty last.key
      last.value).run = .ok tree := by
  cbv

theorem built : tree.Built archive :=
  .edit (.add last.key last.value)
    (.edit (.add high.key high.value) .empty archive.agrees_empty add_high) archive.agrees_empty
    add_last

theorem covers : archive.Covers tree := by
  apply Archive.covers_table
  intro node hnode record hrecord
  have hmemory : tree.root.inMemory = [.resolved highNode, .resolved lastNode] := by cbv
  have hhigh : highNode.record config = .ok (known[1]) := by cbv
  have hlast : lastNode.record config = .ok (known[0]) := by cbv
  rw [hmemory, List.mem_cons, List.mem_singleton, Subtree.resolved.injEq,
    Subtree.resolved.injEq] at hnode
  rcases hnode with rfl | rfl
  · rw [← Except.ok.inj (hhigh.symm.trans hrecord)]
    exact List.getElem_mem _
  · rw [← Except.ok.inj (hlast.symm.trans hrecord)]
    exact List.getElem_mem _

def pointer (place : Nat) : Cid := NodeCodec.tableAddress (List.replicate place 0)

theorem save_tree : (tree.save .empty).run = .ok (pointer 1) := by cbv

def upperShelf : BlockMap := ({} : BlockMap).insert (pointer 1) [0]

def shelf : BlockMap := upperShelf.insert (pointer 0) []

theorem agrees_shelf : archive.Agrees (.snapshot shelf) := by
  apply Archive.agrees_of_blocks
  intro address bytes hget
  have hget : shelf[address]? = some bytes := Except.ok.inj hget
  have hbytes : bytes = [] ∨ bytes = [0] := by
    simp only [shelf, upperShelf, Std.TreeMap.getElem?_insert] at hget
    split_ifs at hget <;> simp_all
  rcases hbytes with rfl | rfl
  · exact ⟨known[0], by cbv⟩
  · exact ⟨known[1], by cbv⟩

theorem remains_upperShelf : (Blockstore.snapshot upperShelf).RemainsOf (.snapshot shelf) :=
  Blockstore.remainsOf_insert (by cbv)

def stored : Tree := .load (pointer 1) config

theorem readable : stored.Readable (.snapshot shelf) := by
  have hhigh : NodeOf.ofStored config (pointer 1) (.ofLayer? none) (known[1]) =
      .ok {
        entries := [.leaf high, .tree (.unresolved (pointer 0) (.layer 0))]
        layer := some 1
        address := some (pointer 1) } := by
    cbv
  have hlast : NodeOf.ofStored config (pointer 0) (.layer 0) (known[0]) =
      .ok { entries := [.leaf last], layer := some 0, address := some (pointer 0) } := by
    cbv
  have hupper : shelf[pointer 1]? = some [0] := by cbv
  have hlower : shelf[pointer 0]? = some [] := by cbv
  obtain ⟨_, hn⟩ :=
    Subtree.exists_resolve_unresolved (by decide) (Blockstore.run_get?_snapshot_eq hupper) rfl
      rfl hhigh
  obtain ⟨_, hbelow⟩ :=
    Subtree.exists_resolve_unresolved (by decide) (Blockstore.run_get?_snapshot_eq hlower) rfl
      rfl hlast
  refine .intro _ hn fun c hc => ?_
  have hc : c = .unresolved (pointer 0) (.layer 0) := by simpa using hc
  rw [hc]
  exact .intro _ hbelow fun c hc => absurd (List.mem_singleton.1 hc) (by simp)

theorem built_stored : stored.Built archive := .load built covers save_tree

theorem leavesFrom_upperShelf :
    stored.leavesFrom (.snapshot upperShelf) "" = ([high], .error (.missingBlock (pointer 0))) ∧
    stored.leavesFrom (.snapshot upperShelf) "a/c" =
      ([high], .error (.missingBlock (pointer 0))) := by
  constructor <;> cbv

/--
The one leaf of the page is walked to without an error, and yet the page is not given out.
-/
theorem full_page_lost :
    (stored.Built archive ∧ archive.Agrees (.snapshot shelf) ∧ stored.Readable (.snapshot shelf) ∧
      (Blockstore.snapshot upperShelf).RemainsOf (.snapshot shelf)) ∧
    (stored.leavesFrom (.snapshot upperShelf) "" = ([high], .error (.missingBlock (pointer 0))) ∧
      (stored.list (.snapshot upperShelf) (some 1)).run = .error (.missingBlock (pointer 0))) ∧
    stored.leavesFrom (.snapshot upperShelf) "a/c" = ([high], .error (.missingBlock (pointer 0))) ∧
      (stored.listWithPrefix (.snapshot upperShelf) "a/c" (some 1)).run =
        .error (.missingBlock (pointer 0)) := by
  obtain ⟨hall, hafter⟩ := leavesFrom_upperShelf
  refine ⟨⟨built_stored, agrees_shelf, readable, remains_upperShelf⟩, ⟨hall, ?_⟩, hafter, ?_⟩
  · rw [Tree.run_list, show (none : Option String).getD "" = "" from rfl, hall]
    rfl
  · rw [Tree.run_listWithPrefix, hafter]
    cbv

end Trailing

theorem Tree.Built.list_of_lost_of_upperShelf :
    (Trailing.stored.list (.snapshot Trailing.upperShelf) (some 0)).run = .ok [] ∧
    (Trailing.stored.list (.snapshot Trailing.upperShelf) (some 1)).run =
      .error (.missingBlock (Trailing.pointer 0)) ∧
    (Trailing.stored.listWithPrefix (.snapshot Trailing.upperShelf) "a/c" (some 0)).run =
      .ok [] := by
  obtain ⟨hlist, hstart⟩ :=
    list_of_lost Trailing.built_stored Trailing.agrees_shelf Trailing.readable
      Trailing.remains_upperShelf
  obtain ⟨hempty, hafter⟩ := Trailing.leavesFrom_upperShelf
  exact ⟨hlist 0 none none _ _ hempty (Nat.zero_le _), hlist 1 none none _ _ hempty (by decide),
    hstart 0 "a/c" _ _ hafter (Nat.zero_le _)⟩

end MerkleSearch
