import MerkleSearch.Proofs.Lockstep
import MerkleSearch.Proofs.Walk.Lost
import MerkleSearch.Proofs.Whole

/-!
This module contains a tree that has been saved, and the same tree as it is loaded again: one is in
memory, the other is read from the store node by node. The main statement is that whatever is asked
of them, and whatever is made of them by edits, there is no answer by which they can be told apart.
-/

namespace MerkleSearch

/--
What can be done with a tree. It can be compared with another one as the newer or as the older of
the two; that one is read from a store of its own.
-/
inductive Operation where
  | edit (change : Edit)
  | get (key : String)
  | layer
  | address
  | leaves
  | list (count : Option Nat) (after before : Option String)
  | listWithPrefix (start : String) (count : Option Nat)
  | path (key : String)
  | diffFrom (prev : Tree) (prevStore : Blockstore Id)
  | diffTo (curr : Tree) (currStore : Blockstore Id)

inductive Answer where
  | done
  | value (value : Option Cid)
  | layer (n : Nat)
  | leaves (ls : List Leaf)
  | cids (cids : List Cid)
  | diff (d : Diff)

def Operation.run (operation : Operation) (tree : Tree)
    (store : Blockstore Id) : ExceptT Error Id (Answer × Tree) := do
  match operation with
  | .edit change => return (.done, ← change.apply tree store)
  | .get key => return (.value (← tree.get? store key), tree)
  | .layer => return (.layer (← tree.layer store), tree)
  | .address => return (.cids [← tree.address], tree)
  | .leaves => return (.leaves (← tree.leaves store), tree)
  | .list count after before => return (.leaves (← tree.list store count after before), tree)
  | .listWithPrefix start count => return (.leaves (← tree.listWithPrefix store start count), tree)
  | .path key => return (.cids (← tree.path store key), tree)
  | .diffFrom prev prevStore => return (.diff (← tree.diff store prev prevStore), tree)
  | .diffTo curr currStore => return (.diff (← curr.diff currStore tree store), tree)

/--
The answers to some operations, one after the other. A tree stays what it is if an edit of it fails.
-/
def Tree.answers (store : Blockstore Id) (tree : Tree) : List Operation → List (Except Error Answer)
  | [] => []
  | operation :: rest =>
    match (operation.run tree store).run with
    | .ok (answer, tree) => .ok answer :: tree.answers store rest
    | .error e => .error e :: tree.answers store rest

section

variable {config : Config} {archive : Archive config} {store : Blockstore Id} {tree tree' : Tree}
variable {ls : List Leaf}

def Subtree.Twins (archive : Archive config) (store : Blockstore Id) (t t' : Subtree) : Prop :=
  ∃ height ls, Listing ls ∧ t.Holds archive height ls ∧ t'.Holds archive height ls ∧
    t.Readable store config ∧ t'.Readable store config

theorem Archive.Agrees.lockstep (hstore : archive.Agrees store) :
    Lockstep store config (Subtree.Twins archive store) where
  address := by
    rintro t t' ⟨height, ls, -, h, h', -, -⟩
    rw [h.address_eq, h'.address_eq]
  resolve := by
    rintro t t' ⟨height, ls, hls, h, h', ⟨n, hn, below⟩, ⟨n', hn', below'⟩⟩
    cases height with
    | zero => exact h.elim
    | succ layer =>
      have hnode := h.of_resolve hls hstore hn
      have hnode' := h'.of_resolve hls hstore hn'
      refine .of_ok hn hn' ⟨?_, ?_, ?_, ?_⟩
      · exact ⟨layer + 1, ls, hls, hnode, hnode', Subtree.readable_resolved below,
          Subtree.readable_resolved below'⟩
      · apply Entry.forall₂_imp (hnode.pair hnode')
        rintro c c' ⟨ts, hts, hc, hc'⟩ hmem hmem'
        obtain ⟨_, rfl, -, -, hsub⟩ := (Leaves.spells_groups hnode.spells.layer_le).of_tree_mem hts
        exact ⟨layer, _, hls.sublist hsub, hc, hc', below c hmem, below' c' hmem'⟩
      · rw [hnode.block_eq_canonical, hnode'.block_eq_canonical]
      · rw [hnode.layerOf, hnode'.layerOf]

namespace Tree

structure Twins (archive : Archive config) (store : Blockstore Id) (ls : List Leaf)
    (tree tree' : Tree) : Prop where
  left : tree.Holds archive ls
  right : tree'.Holds archive ls
  readable : tree.Readable store
  readable' : tree'.Readable store

theorem Twins.edit (h : Twins archive store ls tree tree') (hstore : archive.Agrees store)
    (edit : Edit) :
    Matches (Twins archive store (edit.leaves ls)) (edit.apply tree store)
      (edit.apply tree' store) := by
  have hsettles : Settles _ (edit.apply tree store) _ _ := h.left.apply hstore
  have hsettles' : Settles _ (edit.apply tree' store) _ _ := h.right.apply hstore
  -- What either edit comes to is decided by the leaves.
  cases hrun : (edit.apply tree store).run with
  | ok a =>
    obtain ⟨hnone, ha, hreadable⟩ := hsettles.of_ok hrun
    cases hrun' : (edit.apply tree' store).run with
    | ok b =>
      obtain ⟨-, hb, hreadable'⟩ := hsettles'.of_ok hrun'
      exact .of_ok hrun hrun' ⟨ha, hb, hreadable h.readable, hreadable' h.readable'⟩
    | error e => cases hnone.symm.trans (hsettles'.of_error h.readable' hrun')
  | error e =>
    have he := hsettles.of_error h.readable hrun
    cases hrun' : (edit.apply tree' store).run with
    | ok b =>
      obtain ⟨hnone, -, -⟩ := hsettles'.of_ok hrun'
      cases hnone.symm.trans he
    | error e' =>
      cases (hsettles'.of_error h.readable' hrun').symm.trans he
      exact .of_error hrun hrun'

theorem Twins.root (h : Twins archive store ls tree tree') :
    tree.root.Twins archive store tree'.root := by
  obtain ⟨layer, htops, hroot⟩ := h.left.root
  obtain ⟨layer', htops', hroot'⟩ := h.right.root
  cases htops.unique htops' hroot.layer_le hroot'.layer_le
  have hreadable := h.readable
  have hreadable' := h.readable'
  unfold Tree.Readable at hreadable hreadable'
  rw [h.left.config_eq] at hreadable
  rw [h.right.config_eq] at hreadable'
  exact ⟨layer + 1, ls, h.left.listing, hroot, hroot', hreadable, hreadable'⟩

theorem Twins.reading {α : Type} {x y : ExceptT Error Id α}
    (h : Twins archive store ls tree tree') (heq : x = y) (f : α → Answer) :
    Matches (fun p p' => p.1 = p'.1 ∧ ∃ ls, Twins archive store ls p.2 p'.2)
      (do return (f (← x), tree)) (do return (f (← y), tree')) := by
  rw [heq]
  apply (Matches.refl y).bind
  rintro a _ rfl
  exact .pure ⟨rfl, ls, h⟩

theorem Twins.run (h : Twins archive store ls tree tree') (hstore : archive.Agrees store)
    (operation : Operation) :
    Matches (fun p p' => p.1 = p'.1 ∧ ∃ ls, Twins archive store ls p.2 p'.2)
      (operation.run tree store) (operation.run tree' store) := by
  have L := hstore.lockstep
  have hroot := h.root
  obtain ⟨t, rootConfig⟩ := tree
  obtain ⟨t', rootConfig'⟩ := tree'
  cases h.left.config_eq
  cases h.right.config_eq
  cases operation with
  | edit change =>
    apply (h.edit hstore change).bind
    exact fun next next' hnext => .pure ⟨rfl, change.leaves ls, hnext⟩
  | get key =>
    apply h.reading
    unfold Tree.get?
    split
    · exact L.get?_eq key hroot
    · rfl
  | layer => exact h.reading (L.layer_eq hroot) _
  | address => exact h.reading (congrArg liftM (L.address hroot)) _
  | leaves => exact h.reading (L.leaves_eq hroot) _
  | list count after before => exact h.reading (L.scan_eq _ _ hroot) _
  | listWithPrefix start count => exact h.reading (L.scan_eq _ _ hroot) _
  | path key => exact h.reading (L.path_eq key hroot) _
  | diffFrom prev prevStore => exact h.reading (L.diff_eq (.refl prevStore prev.config) rfl hroot) _
  | diffTo curr currStore =>
    exact h.reading ((Lockstep.refl currStore curr.config).diff_eq L hroot rfl) _

theorem Twins.answers_eq (h : Twins archive store ls tree tree') (hstore : archive.Agrees store)
    (operations : List Operation) :
    tree.answers store operations = tree'.answers store operations := by
  induction operations generalizing tree tree' ls with
  | nil => rfl
  | cons operation rest ih =>
    have hrun := h.run hstore operation
    unfold answers
    generalize operation.run tree store = x at hrun
    generalize operation.run tree' store = y at hrun
    cases hrun with
    | @pure p p' hp =>
      obtain ⟨answer, next⟩ := p
      obtain ⟨_, next'⟩ := p'
      obtain ⟨rfl, ls', hnext⟩ := hp
      exact congrArg (.ok answer :: ·) (ih hnext)
    | throw e => exact congrArg (.error e :: ·) (ih h)

theorem Edited.exists_twins {blocks : BlockMap} (h : tree.Edited config)
    (hcovers : archive.Covers tree) (hstore : archive.Agrees (.snapshot blocks))
    (hwhole : blocks.KeepsWhole tree) :
    ∃ ls root blocks', (tree.save .inMemory).run.run blocks = (.ok root, blocks') ∧
      archive.Agrees (.snapshot blocks') ∧
      Twins archive (.snapshot blocks') ls (.load root config) tree ∧
      Twins archive (.snapshot blocks') ls (.load root config) tree.addressed := by
  obtain ⟨ls, hls⟩ := h.holds
  obtain ⟨layer, htops, hle, rfl⟩ := eq_canonical hls
  have hroot : (canonical config (layer + 1) ls).Holds archive (layer + 1) ls :=
    canonical_holds (Nat.succ_pos layer) fun l hl => Nat.lt_succ_of_le (hle l hl)
  have hhas := hroot.has hls.listing hcovers
  have hspans :
      Spans archive (.snapshot blocks) layer ⟨canonical config (layer + 1) ls, config⟩ ls :=
    ⟨rfl, hstore, htops, hls.listing, rfl, hroot, canonical_readable, hhas⟩
  obtain ⟨root, blocks', hsave, haddress, hstore', hreadable⟩ :=
    hspans.save (hwhole.kept hspans.written hstore)
  have hholds : Holds archive ⟨canonical config (layer + 1) ls, config⟩ ls :=
    ⟨rfl, hls.listing, layer, htops, hroot⟩
  have hloaded := hholds.load hcovers haddress
  refine ⟨ls, root, blocks', hsave, hstore', ⟨hloaded, hholds, hreadable, canonical_readable⟩, ?_⟩
  exact ⟨hloaded, hholds.addressed hcovers, hreadable, canonical_readable.addressed⟩

theorem Edited.load_answers {hasher : KeyHasher} {encoded : Bytes → Prop}
    {hdistinct : ∀ a b, encoded a → encoded b →
      Cid.ofBlock Cid.dagCbor a = Cid.ofBlock Cid.dagCbor b → a = b}
    {hlength : ∀ bytes, encoded bytes → bytes.length < 2 ^ 64} {blocks : BlockMap}
    (h : tree.Edited (.dagCbor hasher))
    (hcovers : (Archive.dagCbor hasher encoded hdistinct hlength).Covers tree)
    (hstore : (Archive.dagCbor hasher encoded hdistinct hlength).Agrees (.snapshot blocks))
    (hwhole : blocks.KeepsWhole tree) :
    ∃ root blocks', (tree.save .inMemory).run.run blocks = (.ok root, blocks') ∧ ∀ operations,
      (Tree.load root (.dagCbor hasher)).answers (.snapshot blocks') operations =
        tree.answers (.snapshot blocks') operations ∧
      (Tree.load root (.dagCbor hasher)).answers (.snapshot blocks') operations =
        tree.addressed.answers (.snapshot blocks') operations := by
  obtain ⟨ls, root, blocks', hsave, hstore', htwins, haddressed⟩ :=
    h.exists_twins hcovers hstore hwhole
  refine ⟨root, blocks', hsave, ?_⟩
  exact fun operations =>
    ⟨htwins.answers_eq hstore' operations, haddressed.answers_eq hstore' operations⟩

end Tree

end

namespace Versions

open Sample (low high)

theorem edited : tree.Edited config :=
  .edit (.add high.key high.value) (.edit (.add low.key low.value) .empty (@add_low {}))
    (@add_high {})

theorem closed : archive.Closed (Session.run config saving).blocks := by
  apply Session.Sound.closed
  apply (Session.Sound.empty.foldl saving _).1
  intro t ht
  apply covers_of_mem
  rw [Session.run, commands, List.foldl_append]
  exact Session.mem_trees_foldl ht _

theorem answers_tree {blocks : BlockMap} :
    tree.answers (.snapshot blocks) [.edit (.add low.key high.value), .edit (.delete low.key),
      .get low.key] = [.error (.keyExists low.key), .ok .done, .ok (.value none)] := by
  cbv

def highAddress : Cid := Cid.ofBlock Cid.dagCbor highRecord.toCbor

def rootShelf : BlockMap := ({} : BlockMap).insert highAddress highRecord.toCbor

def storedHighNode : Node where
  entries := [.tree (.unresolved lowAddress (.layer 0)), .leaf high]
  layer := some 1
  address := some highAddress

theorem address_tree : tree.address = .ok highAddress := by
  show (Subtree.resolved highNode).address config = .ok highAddress
  rw [Subtree.address_resolved rfl, NodeOf.block, record_high]
  rfl

theorem get?_rootShelf : rootShelf[highAddress]? = some highRecord.toCbor ∧
    rootShelf[lowAddress]? = none := by
  have hne : highAddress ≠ lowAddress := by
    intro h
    have hnodup := encoded_distinct.1
    simp only [encoded, List.map_cons, List.map_nil, List.nodup_cons, List.mem_cons] at hnodup
    exact hnodup.2.1 (.inl h.symm)
  constructor
  · exact Std.TreeMap.getElem?_insert_self
  · rw [rootShelf, Std.TreeMap.getElem?_insert, if_neg (by simpa using hne)]
    rfl

theorem agrees_rootShelf : archive.Agrees (.snapshot rootShelf) := by
  apply Archive.agrees_of_blocks
  intro address bytes hget
  have hget : rootShelf[address]? = some bytes := Except.ok.inj hget
  rw [rootShelf, Std.TreeMap.getElem?_insert] at hget
  split at hget
  · cases hget
    simp [archive, Archive.dagCbor, encoded]
  · simp at hget

theorem save_rootShelf :
    (tree.save .inMemory).run.run rootShelf = (.ok highAddress, rootShelf) := by
  have hmem : highAddress ∈ rootShelf := Std.TreeMap.mem_insert_self
  rw [Tree.run_save_inMemory, Tree.unstored_of_mem address_tree hmem]
  rfl

theorem resolve_high_rootShelf :
    ∃ covers, ((Tree.load highAddress config).root.resolve (.snapshot rootShelf) config).run =
      .ok ⟨storedHighNode, covers⟩ := by
  have hmem : highRecord.toCbor ∈ encoded := by simp [encoded]
  have hwritable := NodeRecord.writable_of_length_lt (encoded_distinct.2 _ hmem)
  have hstored : NodeOf.ofStored config highAddress (.ofLayer? none) highRecord =
      .ok storedHighNode := by
    unfold storedHighNode highRecord
    generalize highAddress = address
    generalize lowAddress = below
    cbv
  exact Subtree.exists_resolve_unresolved (by decide)
    (Blockstore.run_get?_snapshot_eq get?_rootShelf.1) rfl
    (NodeCodec.decodeCbor_toCbor hwritable) hstored

theorem get?_low_rootShelf :
    ((Tree.load highAddress config).get? (.snapshot rootShelf) low.key).run =
      .error (.missingBlock lowAddress) := by
  obtain ⟨_, hn⟩ := resolve_high_rootShelf
  have hvalid : Key.isValid low.key := by decide
  have hfound : (storedHighNode.gap low.key).found? low.key = none := by decide
  have hsubtree : (storedHighNode.gap low.key).subtree =
      some (.unresolved lowAddress (.layer 0)) :=
    rfl
  have hlacks : (Blockstore.snapshot rootShelf).lacks lowAddress = true :=
    Blockstore.lacks_iff.2 (congrArg Except.ok get?_rootShelf.2)
  have hlost :
      ((Subtree.unresolved lowAddress (.layer 0)).resolve (.snapshot rootShelf) config).run =
        .error (.missingBlock lowAddress) :=
    Subtree.resolve_of_lacks (by decide) hlacks
  calc
    _ = (Tree.load highAddress config).root.get? (.snapshot rootShelf) config low.key :=
      Tree.get?_of_isValid hvalid
    _ = (Subtree.unresolved lowAddress (.layer 0)).get? (.snapshot rootShelf) config low.key :=
      Subtree.get?_of_subtree hn hfound hsubtree
    _ = throw (.missingBlock lowAddress) := Subtree.get?_of_error hlost

/--
To save the tree writes nothing, although it succeeds. The tree in memory finds the lower key, but
the one that is loaded does not get to it.
-/
theorem answers_without_low :
    tree.Edited config ∧ archive.Covers tree ∧ archive.Agrees (.snapshot rootShelf) ∧
    (tree.save .inMemory).run.run rootShelf = (.ok highAddress, rootShelf) ∧
    tree.answers (.snapshot rootShelf) [.get low.key] = [.ok (.value (some low.value))] ∧
    (Tree.load highAddress config).answers (.snapshot rootShelf) [.get low.key] =
      [.error (.missingBlock lowAddress)] := by
  refine ⟨edited, covers, agrees_rootShelf, save_rootShelf, ?_, ?_⟩
  · have hget : tree.get? (.snapshot rootShelf) low.key = pure (some low.value) := get?_low
    simp only [Tree.answers, Operation.run, hget]
    rfl
  · have hget : (Tree.load highAddress config).get? (.snapshot rootShelf) low.key =
        throw (.missingBlock lowAddress) := get?_low_rootShelf
    simp only [Tree.answers, Operation.run, hget]
    rfl

end Versions

theorem Tree.Edited.load_answers_of_versions :
    ∃ root blocks,
      (Versions.tree.save .inMemory).run.run (Session.run Versions.config Versions.saving).blocks =
      (.ok root, blocks) ∧
    (Tree.load root Versions.config).answers (.snapshot blocks)
      [.edit (.add Sample.low.key Sample.high.value), .edit (.delete Sample.low.key),
        .get Sample.low.key] =
      [.error (.keyExists Sample.low.key), .ok .done, .ok (.value none)] := by
  have hcovers := Versions.covers
  obtain ⟨ls, hls⟩ := Versions.built.holds
  obtain ⟨root, blocks, hsave, hanswers⟩ :=
    Edited.load_answers Versions.edited hcovers Versions.closed.agrees
    (Versions.closed.keepsWhole hls hcovers)
  exact ⟨root, blocks, hsave, (hanswers _).1.trans Versions.answers_tree⟩

end MerkleSearch
