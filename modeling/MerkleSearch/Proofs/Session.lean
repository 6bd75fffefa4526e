import MerkleSearch.Proofs.Closed
import MerkleSearch.Proofs.Reads
import MerkleSearch.Proofs.Refinement

/-!
This module contains runs over many trees that are saved to one store and loaded from it again. The
store starts empty and nothing else is written to it, which keeps it closed. The main statement is
that whatever is saved, on top of whatever has been saved before, can be read back as what it was,
and so can all that has been saved before.
-/

namespace MerkleSearch

/--
What can be done next. Trees and roots are given by when they have come about.
-/
inductive Command where
  | create
  | load (place : Nat)
  | edit (place : Nat) (edit : Edit)
  | save (place : Nat)

structure Session (config : Config) where
  blocks : BlockMap := {}
  trees : List Tree := []
  roots : List Cid := []

namespace Session

variable {config : Config}

/--
The session after a command. A tree that is saved has the addresses of its nodes noted afterwards,
and what fails makes no tree.
-/
def step (s : Session config) : Command → Session config
  | .create => { s with trees := s.trees ++ [.empty config] }
  | .load place =>
    match s.roots[place]? with
    | some root => { s with trees := s.trees ++ [.load root config] }
    | none => s
  | .edit place edit =>
    match s.trees[place]? with
    | some tree =>
      match (edit.apply tree .inMemory).run.run s.blocks with
      | (.ok tree, blocks) => { s with blocks, trees := s.trees ++ [tree] }
      | (.error _, blocks) => { s with blocks }
    | none => s
  | .save place =>
    match s.trees[place]? with
    | some tree =>
      match (tree.save .inMemory).run.run s.blocks with
      | (.ok root, blocks) =>
        { blocks, trees := s.trees ++ [tree.addressed], roots := s.roots ++ [root] }
      | (.error _, blocks) => { s with blocks }
    | none => s

def run (config : Config) (commands : List Command) : Session config := commands.foldl step {}

def Encodes (s : Session config) (bytes : Bytes) : Prop :=
  ∃ tree ∈ s.trees, ∃ node record, .resolved node ∈ tree.root.inMemory ∧
    node.record config = .ok record ∧ config.codec.encode record = .ok bytes

/--
No two blocks of the session have one address, and none is longer than what memory can hold: the
head of an item has eight bytes for a length.
-/
structure Addressable (s : Session config) : Prop where
  distinct : ∀ a b, s.Encodes a → s.Encodes b → config.codec.SameAddress a b → a = b
  length_lt : ∀ bytes, s.Encodes bytes → bytes.length < 2 ^ 64

end Session

section

variable {config : Config} {archive : Archive config} {layer height : Nat} {ls : List Leaf}
variable {blocks blocks' : BlockMap} {tree : Tree} {t : Subtree} {s : Session config} {root : Cid}
variable {edit : Edit}

theorem Edit.run_apply_inMemory :
    (edit.apply tree .inMemory).run.run blocks =
      ((edit.apply tree (.snapshot blocks)).run, blocks) := by
  cases edit with
  | add key value => exact Tree.rel_add Coupling.reading_fetches key value
  | update key value => exact Tree.rel_update Coupling.reading_fetches key value
  | delete key => exact Tree.rel_delete Coupling.reading_fetches key

def BlockMap.Extends (blocks blocks' : BlockMap) : Prop :=
  ∀ (address : Cid) (bytes : Bytes), blocks[address]? = some bytes → blocks'[address]? = some bytes

theorem BlockMap.Extends.refl : blocks.Extends blocks := fun _ _ => id

theorem BlockMap.Extends.trans {blocks'' : BlockMap} (h : blocks.Extends blocks')
    (h' : blocks'.Extends blocks'') :
    blocks.Extends blocks'' :=
  fun address bytes hget => h' address bytes (h address bytes hget)

theorem BlockMap.Extends.mem {address : Cid} (h : blocks.Extends blocks')
    (hmem : address ∈ blocks) :
    address ∈ blocks' := by
  obtain ⟨bytes, hget⟩ := exists_of_mem hmem
  exact mem_of_getElem? (h address bytes hget)

namespace Session

structure Sound (archive : Archive config) (s : Session config) : Prop where
  closed : archive.Closed s.blocks
  tree : ∀ tree ∈ s.trees, ∃ ls, tree.Holds archive ls ∧ tree.Readable (.snapshot s.blocks)
  root : ∀ root ∈ s.roots, root ∈ s.blocks ∧ ∃ ls, (Tree.load root config).Holds archive ls

theorem Sound.empty : Sound archive {} := ⟨.empty, List.forall_mem_nil _, List.forall_mem_nil _⟩

theorem Sound.withTree (h : s.Sound archive) (htree : tree.Holds archive ls)
    (hreadable : tree.Readable (.snapshot s.blocks)) :
    Sound archive { s with trees := s.trees ++ [tree] } := by
  refine ⟨h.closed, ?_, h.root⟩
  rw [List.forall_mem_append]
  exact ⟨h.tree, List.forall_mem_singleton.2 ⟨ls, htree, hreadable⟩⟩

end Session

theorem Subtree.Readable.addressed (h : t.Readable (.snapshot blocks) config) :
    (t.addressed config).Readable (.snapshot blocks) config := by
  induction h with
  | @intro t n hn below ih =>
    match t, n, hn, ih with
    | .unresolved _ _, _, hn, _ => exact .intro _ hn below
    | .resolved node, _, rfl, ih =>
      cases haddress : node.address with
      | some address =>
        rw [addressed_resolved_some haddress]
        exact readable_resolved below
      | none =>
        rw [addressed_resolved haddress]
        apply readable_resolved
        intro c hc
        rw [addressedEntries_eq_map, List.mem_map] at hc
        obtain ⟨child | _, hchild, heq⟩ := hc
        · rw [Entry.map_tree, Entry.tree.injEq] at heq
          rw [← heq]
          exact ih child hchild
        · cases heq

namespace Tree

theorem Holds.save (h : tree.Holds archive ls) (hcovers : archive.Covers tree)
    (hclosed : archive.Closed blocks) (hreadable : tree.Readable (.snapshot blocks)) :
    ∃ root blocks', (tree.save .inMemory).run.run blocks = (.ok root, blocks') ∧
      tree.address = .ok root ∧ archive.Closed blocks' ∧
      blocks.Extends blocks' ∧ root ∈ blocks' := by
  obtain ⟨layer, htops, hroot⟩ := h.root
  cases h.config_eq
  have hwritten := Extent.Written.of_tops htops h.listing (hroot.has h.listing hcovers)
  have hgathers :=
    hroot.gathers hwritten hreadable fun e he => (hwritten.of_mem_spread he).joins_closed
  obtain ⟨root, new, hrun, haddress, hclosed', -, hmem⟩ := hgathers {} hclosed
  have hrun : (tree.unstored (.snapshot blocks)).run = .ok (root, new) := hrun
  refine ⟨root, blocks.addAll new, ?_, haddress, hclosed', ?_, hmem⟩
  · rw [run_save_inMemory, hrun]
  · exact fun address bytes => hclosed.getElem?_of_addAll hclosed'

theorem blocks_of_save_eq_error {e : Error}
    (h : (tree.save .inMemory).run.run blocks = (.error e, blocks')) :
    blocks' = blocks := by
  rw [run_save_inMemory] at h
  split at h
  · cases h
  · cases h
    rfl

end Tree

namespace Session

inductive Next (s : Session config) : Session config → Prop where
  | same : s.Next s
  | created : s.Next { s with trees := s.trees ++ [.empty config] }
  | loaded {root : Cid} (hroot : root ∈ s.roots) :
    s.Next { s with trees := s.trees ++ [.load root config] }
  | edited {tree tree' : Tree} {edit : Edit} (htree : tree ∈ s.trees)
      (hrun : (edit.apply tree (.snapshot s.blocks)).run = .ok tree') :
    s.Next { s with trees := s.trees ++ [tree'] }
  | saved {tree : Tree} {root : Cid} {blocks : BlockMap} (htree : tree ∈ s.trees)
      (hrun : (tree.save .inMemory).run.run s.blocks = (.ok root, blocks)) :
    s.Next { blocks, trees := s.trees ++ [tree.addressed], roots := s.roots ++ [root] }

theorem next_step (s : Session config) (command : Command) : s.Next (s.step command) := by
  unfold step
  cases command with
  | create => exact .created
  | load place =>
    dsimp only
    split
    · next hroot => exact .loaded (List.mem_of_getElem? hroot)
    · exact .same
  | edit place edit =>
    dsimp only
    split
    · next tree htree =>
      rw [Edit.run_apply_inMemory]
      cases hrun : (edit.apply tree (.snapshot s.blocks)).run with
      | ok tree' => exact .edited (List.mem_of_getElem? htree) hrun
      | error e => exact .same
    · exact .same
  | save place =>
    dsimp only
    split
    · next tree htree =>
      split
      · next hrun => exact .saved (List.mem_of_getElem? htree) hrun
      · next hrun =>
        cases Tree.blocks_of_save_eq_error hrun
        exact .same
    · exact .same

theorem Next.mem_trees {s' : Session config} (h : s.Next s') (htree : tree ∈ s.trees) :
    tree ∈ s'.trees := by
  cases h with
  | same => exact htree
  | created => exact List.mem_append_left _ htree
  | loaded _ => exact List.mem_append_left _ htree
  | edited _ _ => exact List.mem_append_left _ htree
  | saved _ _ => exact List.mem_append_left _ htree

theorem Next.sound {s' : Session config} (hnext : s.Next s') (h : s.Sound archive)
    (hcovers : ∀ tree ∈ s.trees, archive.Covers tree) :
    s'.Sound archive ∧ s.blocks.Extends s'.blocks := by
  cases hnext with
  | same => exact ⟨h, .refl⟩
  | created => exact ⟨h.withTree .empty (Subtree.readable_resolved nofun), .refl⟩
  | loaded hroot =>
    obtain ⟨hmem, ls, hls⟩ := h.root _ hroot
    obtain ⟨layer, -, hholds⟩ := hls.root
    exact ⟨h.withTree hls (h.closed.readable hholds hls.listing hmem), .refl⟩
  | edited htree hrun =>
    obtain ⟨ls, hls, hreadable⟩ := h.tree _ htree
    obtain ⟨-, hls', hreadable'⟩ := (hls.apply h.closed.agrees).of_ok hrun
    exact ⟨h.withTree hls' (hreadable' hreadable), .refl⟩
  | @saved tree root blocks htree hrun =>
    obtain ⟨ls, hls, hreadable⟩ := h.tree tree htree
    obtain ⟨_, _, hsave, haddress, hclosed, hextends, hmem⟩ :=
      hls.save (hcovers tree htree) h.closed hreadable
    cases hrun.symm.trans hsave
    refine ⟨⟨hclosed, ?_, ?_⟩, hextends⟩
    · rw [List.forall_mem_append, List.forall_mem_singleton]
      constructor
      · intro old hold
        obtain ⟨us, hus, hold⟩ := h.tree old hold
        exact ⟨us, hus, hold.mono hextends⟩
      · exact ⟨ls, hls.addressed (hcovers tree htree), (hreadable.mono hextends).addressed⟩
    · rw [List.forall_mem_append, List.forall_mem_singleton]
      constructor
      · intro old hold
        obtain ⟨hmem, hold⟩ := h.root old hold
        exact ⟨hextends.mem hmem, hold⟩
      · exact ⟨hmem, ls, hls.load (hcovers tree htree) haddress⟩

theorem mem_trees_foldl (h : tree ∈ s.trees) (commands : List Command) :
    tree ∈ (commands.foldl step s).trees := by
  induction commands generalizing s with
  | nil => exact h
  | cons command commands ih => exact ih ((s.next_step command).mem_trees h)

theorem Sound.foldl (h : s.Sound archive) (commands : List Command)
    (hcovers : ∀ tree ∈ (commands.foldl Session.step s).trees, archive.Covers tree) :
    (commands.foldl Session.step s).Sound archive ∧
      s.blocks.Extends (commands.foldl Session.step s).blocks := by
  induction commands generalizing s with
  | nil => exact ⟨h, .refl⟩
  | cons command commands ih =>
    have hstep :=
      (s.next_step command).sound h fun tree htree =>
      hcovers tree (mem_trees_foldl htree (command :: commands))
    obtain ⟨hrest, hextends⟩ := ih hstep.1 hcovers
    exact ⟨hrest, hstep.2.trans hextends⟩

end Session

abbrev Config.dagCbor (hasher : KeyHasher) : Config := { codec := .dagCbor, hasher }

theorem NodeCodec.sameAddress_dagCbor {a b : Bytes} :
    dagCbor.SameAddress a b ↔ Cid.ofBlock Cid.dagCbor a = Cid.ofBlock Cid.dagCbor b := by
  constructor
  · rintro ⟨_, ⟨⟩, hb⟩
    exact (Except.ok.inj hb).symm
  · intro h
    exact ⟨_, rfl, congrArg Except.ok h.symm⟩

def Archive.dagCbor (hasher : KeyHasher) (blocks : Bytes → Prop)
    (hdistinct : ∀ a b, blocks a → blocks b →
      Cid.ofBlock Cid.dagCbor a = Cid.ofBlock Cid.dagCbor b → a = b)
    (hlength : ∀ bytes, blocks bytes → bytes.length < 2 ^ 64) : Archive (.dagCbor hasher) where
  blocks := blocks
  decode record bytes hmem hencode := by
    cases hencode
    exact NodeCodec.decodeCbor_toCbor (NodeRecord.writable_of_length_lt (hlength _ hmem))
  injective a b ha hb hsame := hdistinct a b ha hb (NodeCodec.sameAddress_dagCbor.1 hsame)

def BlockMap.Complete (blocks : BlockMap) : Prop :=
  ∀ (address : Cid) (bytes : Bytes), blocks[address]? = some bytes →
    ∃ record, NodeRecord.ofCbor? bytes = some record ∧ ∀ c ∈ record.pointers, c ∈ blocks

namespace Tree

def Walks (tree : Tree) (blocks : BlockMap) (ps : List (Entry Cid)) : Prop :=
  ∃ vs, (tree.entries .inMemory).run.run blocks = (.ok vs, blocks) ∧
    entryAddresses tree.config vs = ps.map (Entry.map .ok)

def Lists (tree : Tree) (blocks : BlockMap) (ls : List Leaf) : Prop :=
  (tree.leaves .inMemory).run.run blocks = (.ok ls, blocks)

structure SavedAs (tree : Tree) (root : Cid) (blocks : BlockMap) : Prop where
  address : tree.address = .ok root
  walks : ∃ ps, tree.Walks blocks ps ∧ (Tree.load root tree.config).Walks blocks ps
  unstored : (tree.unstored .inMemory).run.run blocks = (.ok (root, {}), blocks)

end Tree

theorem Archive.Has.of_visits (h : archive.Has height ls) {e : Extent}
    (he : .tree e ∈ Extent.visits config height ls) :
    archive.Has e.height e.leaves := by
  induction height generalizing ls with
  | zero => cases he
  | succ layer ih =>
    rw [Extent.visits_succ, List.mem_cons, Entry.tree.injEq] at he
    rcases he with rfl | he
    · exact h
    · rw [Extent.visitsOf, List.mem_flatMap] at he
      obtain ⟨_ | _, hu, he⟩ := he
      · obtain ⟨hheight, hts⟩ := Extent.mem_entries_iff.1 hu
        dsimp only at he
        rw [hheight] at he
        exact ih (h.2 _ hts) he
      · cases List.mem_singleton.1 he

theorem Entry.exists_map_ok {α : Type} {f : α → Except Error Cid} {es : List (Entry α)}
    (h : ∀ a, .tree a ∈ es → ∃ c, f a = .ok c) :
    ∃ ps : List (Entry Cid), es.map (map f) = ps.map (map .ok) := by
  induction es with
  | nil => exact ⟨[], rfl⟩
  | cons e es ih =>
    obtain ⟨ps, hps⟩ := ih fun a ha => h a (List.mem_cons_of_mem _ ha)
    cases e with
    | leaf l => exact ⟨.leaf l :: ps, by rw [List.map_cons, List.map_cons, hps, map_leaf, map_leaf]⟩
    | tree a =>
      obtain ⟨c, hc⟩ := h a List.mem_cons_self
      exact ⟨.tree c :: ps, by rw [List.map_cons, List.map_cons, hps, map_tree, map_tree, hc]⟩

theorem Subtree.Holds.exists_walks (h : t.Holds archive height ls) (hls : Listing ls)
    (hclosed : archive.Closed blocks) (hreadable : t.Readable (.snapshot blocks) config)
    {ps : List (Entry Cid)}
    (hps : (Extent.visits config height ls).map (Entry.map fun e =>
      (canonical config e.height e.leaves).address config) = ps.map (Entry.map .ok)) :
    (⟨t, config⟩ : Tree).Walks blocks ps := by
  obtain ⟨vs, hvs, hshows⟩ := h.exists_walked hls hclosed.agrees hreadable
  have hentries :=
    Tree.run_entries_eq_ok_iff.2
    (show Walked _ (⟨t, config⟩ : Tree).config [.tree (⟨t, config⟩ : Tree).root] vs from hvs)
  refine ⟨vs, ?_, ?_⟩
  · rw [← hentries]
    exact Tree.rel_entries Coupling.reading_fetches
  · rw [entryAddresses_eq_map, ← hps]
    exact Entry.map_eq_of_forall₂ hshows fun t e ht => ht.address_eq

theorem Subtree.Holds.savedAs (h : t.Holds archive (layer + 1) ls) (hls : Listing ls)
    (htops : Tops config layer ls) (hhas : archive.Has (layer + 1) ls)
    (hclosed : archive.Closed blocks) (hreadable : t.Readable (.snapshot blocks) config)
    (haddress : t.address config = .ok root) (hmem : root ∈ blocks) :
    (⟨t, config⟩ : Tree).SavedAs root blocks := by
  have hloaded := h.unresolved htops hhas haddress
  obtain ⟨ps, hps⟩ := Entry.exists_map_ok fun e he => (hhas.of_visits he).exists_address
  refine ⟨haddress, ⟨ps, ?_, ?_⟩, ?_⟩
  · exact h.exists_walks hls hclosed hreadable hps
  · exact hloaded.exists_walks hls hclosed (hclosed.readable hloaded hls hmem) hps
  · rw [Tree.run_unstored_inMemory]
    exact congrArg (·, blocks) (Tree.unstored_of_mem haddress hmem)

theorem Tree.Holds.savedAs (h : tree.Holds archive ls) (hcovers : archive.Covers tree)
    (hclosed : archive.Closed blocks) (hreadable : tree.Readable (.snapshot blocks))
    (haddress : tree.address = .ok root) (hmem : root ∈ blocks) :
    tree.SavedAs root blocks ∧ tree.addressed.SavedAs root blocks := by
  obtain ⟨layer, htops, hroot⟩ := h.root
  obtain ⟨t, _⟩ := tree
  cases h.config_eq
  have hhas := hroot.has h.listing hcovers
  have haddressed := hroot.addressed hhas
  refine ⟨hroot.savedAs h.listing htops hhas hclosed hreadable haddress hmem, ?_⟩
  apply haddressed.savedAs h.listing htops hhas hclosed hreadable.addressed _ hmem
  rw [haddressed.address_eq, ← hroot.address_eq]
  exact haddress

theorem Session.Sound.exists_lists (h : s.Sound archive) (hroot : root ∈ s.roots)
    (hclosed : archive.Closed blocks) (hextends : s.blocks.Extends blocks) :
    ∃ ls, (Tree.load root config).Lists s.blocks ls ∧ (Tree.load root config).Lists blocks ls := by
  obtain ⟨hmem, ls, hls⟩ := h.root root hroot
  obtain ⟨layer, -, hholds⟩ := hls.root
  have hreadable : (Tree.load root config).Readable (.snapshot s.blocks) :=
    h.closed.readable hholds hls.listing hmem
  refine ⟨ls, ?_, ?_⟩
  · rw [Tree.Lists, ← hls.leaves_run h.closed.agrees hreadable]
    exact Tree.rel_leaves Coupling.reading_fetches
  · rw [Tree.Lists, ← hls.leaves_run hclosed.agrees (hreadable.mono hextends)]
    exact Tree.rel_leaves Coupling.reading_fetches

namespace Session

variable {hasher : KeyHasher} {commands : List Command}

theorem persistent (h : (run (.dagCbor hasher) commands).Addressable) :
    (∀ tree ∈ (run (.dagCbor hasher) commands).trees, ∃ root blocks,
      (tree.save .inMemory).run.run (run (.dagCbor hasher) commands).blocks = (.ok root, blocks) ∧
      tree.SavedAs root blocks ∧ tree.addressed.SavedAs root blocks ∧ blocks.Complete ∧
      ∀ earlier later, commands = earlier ++ later →
        ∀ old ∈ (run (.dagCbor hasher) earlier).roots, ∃ ls,
        (Tree.load old (.dagCbor hasher)).Lists (run (.dagCbor hasher) earlier).blocks ls ∧
          (Tree.load old (.dagCbor hasher)).Lists blocks ls) ∧
    ∀ (tree : Tree) (blocks blocks' : BlockMap) (e : Error),
      (tree.save .inMemory).run.run blocks = (.error e, blocks') → blocks' = blocks := by
  refine ⟨?_, fun tree blocks blocks' e => Tree.blocks_of_save_eq_error⟩
  -- No tree is dropped on the way, so the archive of what is in memory at the end has all that was
  -- saved before.
  let archive := Archive.dagCbor hasher (run (.dagCbor hasher) commands).Encodes
    (fun a b ha hb haddress => h.distinct a b ha hb (NodeCodec.sameAddress_dagCbor.2 haddress))
      h.length_lt
  have hcovers : ∀ tree ∈ (run (.dagCbor hasher) commands).trees, archive.Covers tree :=
    fun tree htree node hnode record hrecord =>
      ⟨_, rfl, tree, htree, node, record, hnode, hrecord, rfl⟩
  have hsound : (run (.dagCbor hasher) commands).Sound archive :=
    (Sound.empty.foldl commands hcovers).1
  intro tree htree
  obtain ⟨ls, hls, hreadable⟩ := hsound.tree tree htree
  obtain ⟨root, blocks, hrun, haddress, hclosed, hextends, hmem⟩ :=
    hls.save (hcovers tree htree) hsound.closed hreadable
  obtain ⟨hsaved, haddressed⟩ :=
    hls.savedAs (hcovers tree htree) hclosed (hreadable.mono hextends) haddress hmem
  have hcomplete : blocks.Complete := by
    intro address bytes hget
    obtain ⟨record, hdecode, hpointers⟩ := hclosed.pointers address bytes hget
    exact ⟨record, NodeCodec.decodeCbor_eq_ok.1 hdecode, hpointers⟩
  refine ⟨root, blocks, hrun, hsaved, haddressed, hcomplete, ?_⟩
  rintro earlier later rfl old hold
  have hrun : run (.dagCbor hasher) (earlier ++ later) =
      later.foldl step (run (.dagCbor hasher) earlier) :=
    List.foldl_append
  rw [hrun] at hextends hcovers
  have hearlier : (run (.dagCbor hasher) earlier).Sound archive :=
    (Sound.empty.foldl earlier fun tree htree => hcovers tree (mem_trees_foldl htree later)).1
  exact hearlier.exists_lists hold hclosed ((hearlier.foldl later hcovers).2.trans hextends)

end Session

end

namespace Versions

/-!
A tree that is saved, and a later version of it that has its node as a subtree.
-/

open Sample (low high)

variable {blocks : BlockMap} {tree : Tree}

def config : Config := .dagCbor .tail

def lowNode (known : Option Cid) : Node :=
  { entries := [.leaf low], layer := some 0, address := known }

def highNode : Node where
  entries := [.tree (.resolved (lowNode none)), .leaf high]
  layer := some 1

def lowRecord : NodeRecord := ⟨none, [⟨0, Bytes.ofText low.key, low.value, none⟩]⟩

def lowAddress : Cid := Cid.ofBlock Cid.dagCbor lowRecord.toCbor

def highRecord : NodeRecord := ⟨some lowAddress, [⟨0, Bytes.ofText high.key, high.value, none⟩]⟩

def saving : List Command := [.create, .edit 0 (.add low.key low.value), .save 1]

def commands : List Command := saving ++ [.edit 1 (.add high.key high.value)]

theorem record_low (known : Option Cid) : (lowNode known).record config = .ok lowRecord := by cbv

theorem block_low (known : Option Cid) :
    (lowNode known).block config = .ok ⟨lowAddress, lowRecord.toCbor⟩ := by
  rw [NodeOf.block, record_low]
  rfl

theorem address_low : (Subtree.resolved (lowNode none)).address config = .ok lowAddress := by
  rw [Subtree.address_resolved rfl, block_low]
  rfl

theorem record_high : highNode.record config = .ok highRecord := by
  have hentries : entryAddresses config highNode.entries =
      [.tree (.ok lowAddress), .leaf high] := by
    rw [← address_low]
    rfl
  rw [NodeOf.record, hentries, highRecord]
  generalize lowAddress = address
  cbv

theorem add_low : (Edit.apply (.add low.key low.value) (.empty config) (.snapshot blocks)).run =
    .ok ⟨.resolved (lowNode none), config⟩ := by cbv

theorem add_high :
    (Edit.apply (.add high.key high.value) ⟨.resolved (lowNode none), config⟩
      (.snapshot blocks)).run = .ok ⟨.resolved highNode, config⟩ := by
  cbv

theorem addressed_low :
    (⟨.resolved (lowNode none), config⟩ : Tree).addressed =
      ⟨.resolved (lowNode (some lowAddress)), config⟩ := by
  rw [Tree.addressed, Subtree.addressed_resolved rfl]
  show (⟨.resolved { lowNode none with
    address := ((Subtree.resolved (lowNode none)).address config).toOption }, config⟩ : Tree) = _
  rw [address_low]
  rfl

theorem save_low :
    ((⟨.resolved (lowNode none), config⟩ : Tree).save .inMemory).run.run {} =
      (.ok lowAddress,
        ({} : BlockMap).addAll (({} : BlockMap).insert lowAddress lowRecord.toCbor)) := by
  rw [Tree.run_save_inMemory]
  have hunstored : ((⟨.resolved (lowNode none), config⟩ : Tree).unstored (.snapshot {})).run =
      .ok (lowAddress, ({} : BlockMap).insert lowAddress lowRecord.toCbor) :=
    Subtree.run_unstored_of_not_mem address_low (by simp) rfl (block_low none)
  rw [hunstored]

theorem run_saving :
    (Session.run config saving).trees = [.empty config, ⟨.resolved (lowNode none), config⟩,
    ⟨.resolved (lowNode (some lowAddress)), config⟩] ∧
    (Session.run config saving).roots = [lowAddress] := by
  simp only [Session.run, saving, List.foldl_cons, List.foldl_nil, Session.step,
    Edit.run_apply_inMemory, List.nil_append, List.getElem?_cons_zero, List.getElem?_cons_succ,
    List.cons_append, add_low, save_low, addressed_low, and_self]

theorem trees_run :
    (Session.run config commands).trees = [.empty config, ⟨.resolved (lowNode none), config⟩,
    ⟨.resolved (lowNode (some lowAddress)), config⟩, ⟨.resolved highNode, config⟩] := by
  rw [Session.run, commands, List.foldl_append, ← Session.run]
  simp only [List.foldl_cons, List.foldl_nil, Session.step, run_saving.1, List.getElem?_cons_zero,
    List.getElem?_cons_succ, Edit.run_apply_inMemory, add_high, List.cons_append, List.nil_append]

theorem of_inMemory {node : Node} (htree : tree ∈ (Session.run config commands).trees)
    (hnode : .resolved node ∈ tree.root.inMemory) :
    node = .empty ∨ (∃ known, node = lowNode known) ∨ node = highNode := by
  have hlow : ∀ known, (Subtree.resolved (lowNode known)).inMemory = [.resolved (lowNode known)] :=
    fun _ => rfl
  have hhigh : (Subtree.resolved highNode).inMemory =
      [.resolved highNode, .resolved (lowNode none)] :=
    rfl
  have hempty : (Tree.empty config).root.inMemory = [.resolved .empty] := rfl
  rw [trees_run] at htree
  simp only [List.mem_cons, List.not_mem_nil, or_false] at htree
  rcases htree with rfl | rfl | rfl | rfl
  · rw [hempty, List.mem_singleton, Subtree.resolved.injEq] at hnode
    exact .inl hnode
  · rw [hlow, List.mem_singleton, Subtree.resolved.injEq] at hnode
    exact .inr (.inl ⟨none, hnode⟩)
  · rw [hlow, List.mem_singleton, Subtree.resolved.injEq] at hnode
    exact .inr (.inl ⟨_, hnode⟩)
  · rw [hhigh, List.mem_cons, List.mem_singleton, Subtree.resolved.injEq,
      Subtree.resolved.injEq] at hnode
    rcases hnode with rfl | rfl
    · exact .inr (.inr rfl)
    · exact .inr (.inl ⟨none, rfl⟩)

def encoded : List Bytes := [(⟨none, []⟩ : NodeRecord), lowRecord, highRecord].map NodeRecord.toCbor

theorem mem_encoded {bytes : Bytes} (h : (Session.run config commands).Encodes bytes) :
    bytes ∈ encoded := by
  obtain ⟨tree, htree, node, record, hnode, hrecord, hencode⟩ := h
  cases hencode
  apply List.mem_map_of_mem
  have hempty : (NodeOf.empty : Node).record config = .ok ⟨none, []⟩ := by cbv
  rcases of_inMemory htree hnode with rfl | ⟨known, rfl⟩ | rfl
  · cases hempty.symm.trans hrecord
    exact List.mem_cons_self
  · cases (record_low known).symm.trans hrecord
    exact List.mem_cons_of_mem _ List.mem_cons_self
  · cases record_high.symm.trans hrecord
    exact List.mem_cons_of_mem _ (List.mem_cons_of_mem _ List.mem_cons_self)

theorem encoded_distinct :
    (encoded.map (Cid.ofBlock Cid.dagCbor)).Nodup ∧ ∀ bytes ∈ encoded, bytes.length < 2 ^ 64 := by
  simp only [encoded, lowRecord, highRecord, lowAddress, List.map_cons, List.map_nil,
    NodeRecord.toCbor_eq, LeafRecord.toCbor_eq]
  decide +kernel

theorem addressable : (Session.run config commands).Addressable := by
  constructor
  · intro a b ha hb hsame
    exact List.inj_on_of_nodup_map encoded_distinct.1 (mem_encoded ha) (mem_encoded hb)
      (NodeCodec.sameAddress_dagCbor.1 hsame)
  · exact fun bytes hbytes => encoded_distinct.2 bytes (mem_encoded hbytes)

end Versions

theorem Session.persistent_of_versions :
    ∃ root blocks ls,
      ((⟨.resolved Versions.highNode, Versions.config⟩ : Tree).save .inMemory).run.run
      (run Versions.config Versions.commands).blocks = (.ok root, blocks) ∧
    (⟨.resolved Versions.highNode, Versions.config⟩ : Tree).SavedAs root blocks ∧ blocks.Complete ∧
    (Tree.load Versions.lowAddress Versions.config).Lists
      (run Versions.config Versions.saving).blocks ls ∧
    (Tree.load Versions.lowAddress Versions.config).Lists blocks ls := by
  have htree : (⟨.resolved Versions.highNode, Versions.config⟩ : Tree) ∈
      (run Versions.config Versions.commands).trees := by
    rw [Versions.trees_run]
    simp
  have hroot : Versions.lowAddress ∈ (run Versions.config Versions.saving).roots := by
    rw [Versions.run_saving.2]
    exact List.mem_singleton_self _
  obtain ⟨root, blocks, hrun, hsaved, -, hcomplete, hearlier⟩ :=
    (Session.persistent Versions.addressable).1 _ htree
  obtain ⟨ls, hlists, hlists'⟩ := hearlier Versions.saving _ rfl _ hroot
  exact ⟨root, blocks, ls, hrun, hsaved, hcomplete, hlists, hlists'⟩

end MerkleSearch
