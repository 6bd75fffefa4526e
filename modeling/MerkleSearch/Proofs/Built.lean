import MerkleSearch.Proofs.Add
import MerkleSearch.Proofs.Delete
import MerkleSearch.Proofs.Get
import MerkleSearch.Proofs.Readable
import MerkleSearch.Registry
import MerkleSearch.Tree.Save

/-!
This module contains the trees that can come about: by edits of the empty tree, and by loading what
has been saved. Each of them holds a list of leaves, which is what it has been made into as a map.
This is the fact that all other statements about trees start from.
-/

namespace MerkleSearch

inductive Edit where
  | add (key : String) (value : Cid)
  | update (key : String) (value : Cid)
  | delete (key : String)

def Edit.apply {m : Type → Type} [Monad m] (edit : Edit) (tree : Tree) (store : Blockstore m) :
    ExceptT Error m Tree :=
  match edit with
  | .add key value => tree.add store key value
  | .update key value => tree.update store key value
  | .delete key => tree.delete store key

variable {config : Config} {archive : Archive config}

def Archive.Covers (archive : Archive config) (tree : Tree) : Prop :=
  ∀ node, .resolved node ∈ tree.root.inMemory → ∀ record, node.record config = .ok record →
    ∃ block, config.codec.block record = .ok block ∧ archive.blocks block.bytes

namespace Tree

/--
A tree that has been edited and saved any number of times, where the addresses of its nodes may have
been noted at any time. Whatever the trees on the way were read from did not answer with blocks that
are mistaken for those of the archive.
-/
inductive Built (archive : Archive config) : Tree → Prop
  | empty : Built archive (.empty config)
  | edit {tree tree' : Tree} {store : Blockstore Id} (edit : Edit) (h : Built archive tree)
    (hstore : archive.Agrees store) (hrun : (edit.apply tree store).run = .ok tree') :
    Built archive tree'
  | addressed {tree : Tree} (h : Built archive tree) (hcovers : archive.Covers tree) :
    Built archive tree.addressed
  | load {tree : Tree} {store : Blockstore Id} {address : Cid} (h : Built archive tree)
    (hcovers : archive.Covers tree) (hsave : (tree.save store).run = .ok address) :
    Built archive (.load address config)

def Readable (tree : Tree) (store : Blockstore Id) : Prop := tree.root.Readable store tree.config

structure Holds (archive : Archive config) (tree : Tree) (ls : List Leaf) : Prop where
  config_eq : tree.config = config
  listing : Listing ls
  root : ∃ layer, Tops config layer ls ∧ tree.root.Holds archive (layer + 1) ls

end Tree

variable {store : Blockstore Id} {t : Subtree} {tree tree' : Tree} {ls : List Leaf} {key : String}
variable {value : Cid} {layer height : Nat}

namespace Tops

theorem insert {leaf : Leaf} (h : Tops config layer ls) (hne : ∀ l ∈ ls, l.key ≠ leaf.key) :
    Tops config (max layer (config.layerOf leaf.key)) (Leaves.insert leaf ls) := by
  rcases max_cases layer (config.layerOf leaf.key) with ⟨hmax, hle⟩ | ⟨hmax, -⟩
  · rw [hmax]
    rcases h with ⟨rfl, rfl⟩ | ⟨l, hl, hlayer⟩
    · exact .inr ⟨leaf, Leaves.mem_insert.2 (.inl rfl), Nat.le_zero.1 hle⟩
    · exact .inr ⟨l, Leaves.mem_insert.2 (.inr ⟨hl, hne l hl⟩), hlayer⟩
  · rw [hmax]
    exact .inr ⟨leaf, Leaves.mem_insert.2 (.inl rfl), rfl⟩

theorem replace {leaf : Leaf} (h : Tops config layer ls) (hmem : ∃ l ∈ ls, l.key = leaf.key) :
    Tops config layer (Leaves.insert leaf ls) := by
  rcases h with ⟨rfl, -⟩ | ⟨l, hl, hlayer⟩
  · obtain ⟨l, hl, -⟩ := hmem
    cases hl
  · by_cases hkey : l.key = leaf.key
    · exact .inr ⟨leaf, Leaves.mem_insert.2 (.inl rfl), hkey ▸ hlayer⟩
    · exact .inr ⟨l, Leaves.mem_insert.2 (.inr ⟨hl, hkey⟩), hlayer⟩

end Tops

namespace Tree.Holds

theorem empty : (Tree.empty config).Holds archive [] :=
  ⟨rfl, .nil, 0, .inl ⟨rfl, rfl⟩, .inl rfl, nofun, rfl, .nil, .nil⟩

theorem get? (h : tree.Holds archive ls) (hstore : archive.Agrees store) :
    Returns (tree.Readable store) (tree.get? store key) (· = Leaves.value? key ls) := by
  obtain ⟨layer, -, hroot⟩ := h.root
  cases h.config_eq
  unfold Tree.get?
  split
  · exact hroot.get? h.listing hstore
  · next hvalid =>
    apply Settles.pure
    rw [eq_comm, Leaves.value?_eq_none]
    rintro l hl rfl
    exact hvalid (h.listing.valid l hl)

theorem add (h : tree.Holds archive ls) (hstore : archive.Agrees store) :
    Settles (tree.Readable store) (tree.add store key value) (fun tree' =>
      tree'.Holds archive (Leaves.insert ⟨key, value⟩ ls) ∧ (∀ l ∈ ls, l.key ≠ key) ∧
        (tree.Readable store → tree'.Readable store)) (fun e =>
          e = .invalidKey key ∧ ¬Key.isValid key ∨ e = .keyExists key ∧ ∃ l ∈ ls, l.key = key) := by
  obtain ⟨layer, htops, hroot⟩ := h.root
  cases h.config_eq
  unfold Tree.add
  split
  · next hvalid =>
    apply (((hroot.add h.listing hstore).imp id (fun _ => id) fun _ => .inr).with_run).bind
    rintro node ⟨⟨hne, hnode⟩, hrun⟩
    apply Settles.pure
    rw [Nat.add_max_add_right] at hnode
    refine ⟨⟨rfl, h.listing.insert hvalid, _, htops.insert hne, hnode⟩, hne, ?_⟩
    exact fun hreadable => Subtree.readable_resolved (hreadable.add.of_ok hrun)
  · next hvalid => exact Settles.throw (.inl ⟨rfl, hvalid⟩)

theorem update (h : tree.Holds archive ls) (hstore : archive.Agrees store) :
    Settles (tree.Readable store) (tree.update store key value)
      (fun tree' => tree'.Holds archive (Leaves.insert ⟨key, value⟩ ls) ∧ (∃ l ∈ ls, l.key = key) ∧
        (tree.Readable store → tree'.Readable store))
      (fun e => e = .invalidKey key ∧ ¬Key.isValid key ∨
        e = .keyNotFound key ∧ Key.isValid key ∧ ∀ l ∈ ls, l.key ≠ key) := by
  obtain ⟨layer, htops, hroot⟩ := h.root
  cases h.config_eq
  unfold Tree.update
  split
  · next hvalid =>
    apply (((hroot.update h.listing hstore).imp id (fun _ => id) fun _ he =>
      .inr ⟨he.1, hvalid, he.2⟩).with_run).bind
    rintro node ⟨⟨hmem, hnode⟩, hrun⟩
    apply Settles.pure
    refine ⟨⟨rfl, h.listing.insert hvalid, layer, htops.replace hmem, hnode⟩, hmem, ?_⟩
    exact fun hreadable => Subtree.readable_resolved (hreadable.update.of_ok hrun)
  · next hvalid => exact Settles.throw (.inl ⟨rfl, hvalid⟩)

theorem delete (h : tree.Holds archive ls) (hstore : archive.Agrees store) :
    Settles (tree.Readable store) (tree.delete store key)
      (fun tree' => tree'.Holds archive (Leaves.erase key ls) ∧ (∃ l ∈ ls, l.key = key) ∧
        (tree.Readable store → tree'.Readable store))
      (fun e => e = .invalidKey key ∧ ¬Key.isValid key ∨
        e = .keyNotFound key ∧ Key.isValid key ∧ ∀ l ∈ ls, l.key ≠ key) := by
  obtain ⟨layer, htops, hroot⟩ := h.root
  cases h.config_eq
  unfold Tree.delete
  split
  · next hvalid =>
    apply (((hroot.delete h.listing hstore).imp id (fun _ => id) fun _ he =>
      .inr ⟨he.1, hvalid, he.2⟩).with_run).bind
    rintro altered ⟨⟨hmem, haltered⟩, hrun⟩
    have hreadable : tree.Readable store → Subtree.AllReadable store tree.config altered.entries :=
      fun hreadable => hreadable.delete.of_ok hrun
    apply ((NodeOf.Holds.trim haltered _ h.listing.erase hstore).settles hreadable).bind
    rintro top ⟨⟨n, htop, htops⟩, htopReadable⟩
    apply Settles.pure
    split
    · next hempty =>
      rw [List.isEmpty_iff, htop.spells.eq_nil_iff] at hempty
      have hholds : (Tree.empty tree.config).Holds archive [] := .empty
      rw [hempty]
      refine ⟨⟨rfl, .nil, hholds.root⟩, hmem, ?_⟩
      exact fun _ => Subtree.readable_resolved Subtree.allReadable_nil
    · next hne =>
      rw [List.isEmpty_iff, htop.spells.eq_nil_iff] at hne
      refine ⟨⟨rfl, h.listing.erase, n, .inr (htops.resolve_left hne), htop⟩, hmem, ?_⟩
      exact fun havailable => Subtree.readable_resolved (htopReadable (hreadable havailable))
  · next hvalid => exact Settles.throw (.inl ⟨rfl, hvalid⟩)

end Tree.Holds

def Edit.leaves : Edit → List Leaf → List Leaf
  | .add key value, ls => Leaves.insert ⟨key, value⟩ ls
  | .update key value, ls => Leaves.insert ⟨key, value⟩ ls
  | .delete key, ls => Leaves.erase key ls

theorem Tree.Holds.edit (h : tree.Holds archive ls) (hstore : archive.Agrees store) {edit : Edit}
    (hrun : (edit.apply tree store).run = .ok tree') : tree'.Holds archive (edit.leaves ls) := by
  cases edit with
  | add key value => exact ((h.add hstore).of_ok hrun).1
  | update key value => exact ((h.update hstore).of_ok hrun).1
  | delete key => exact ((h.delete hstore).of_ok hrun).1

theorem Subtree.address_of_unstored {address : Cid} {blocks blocks' : BlockMap}
    (hrun : (t.unstored store config blocks).run = .ok (address, blocks')) :
    t.address config = .ok address := by
  match t with
  | .unresolved _ _ =>
    cases hrun
    rfl
  | .resolved ⟨entries, layer, known, serial⟩ =>
    unfold Subtree.unstored at hrun
    obtain ⟨found, haddress, hrun⟩ := exists_of_run_bind_eq_ok hrun
    have hfound : found = address := by
      split at hrun
      · cases hrun
        rfl
      · obtain ⟨stored, _, hrun⟩ := exists_of_run_bind_eq_ok hrun
        split at hrun
        · cases hrun
          rfl
        · obtain ⟨_, _, hrun⟩ := exists_of_run_bind_eq_ok hrun
          obtain ⟨_, _, hrun⟩ := exists_of_run_bind_eq_ok hrun
          cases hrun
          rfl
    rw [← hfound]
    exact haddress

theorem Tree.address_of_save {address : Cid} (hsave : (tree.save store).run = .ok address) :
    tree.address = .ok address := by
  unfold Tree.save at hsave
  obtain ⟨⟨found, blocks⟩, hunstored, hsave⟩ := exists_of_run_bind_eq_ok hsave
  obtain ⟨_, _, hsave⟩ := exists_of_run_bind_eq_ok hsave
  cases hsave
  exact Subtree.address_of_unstored hunstored

theorem mem_entriesInMemory {es : List NodeEntry} {u : Subtree} :
    u ∈ entriesInMemory es ↔ ∃ t, .tree t ∈ es ∧ u ∈ t.inMemory := by
  induction es with
  | nil => exact ⟨nofun, nofun⟩
  | cons e es ih => cases e <;> simp [entriesInMemory, ih]

theorem Subtree.inMemory_resolved (node : Node) :
    (Subtree.resolved node).inMemory = .resolved node :: entriesInMemory node.entries := by
  obtain ⟨es, layer, address, serial⟩ := node
  rw [Subtree.inMemory]

theorem Subtree.mem_inMemory_self (node : Node) :
    .resolved node ∈ (Subtree.resolved node).inMemory := by
  rw [inMemory_resolved]
  exact List.mem_cons_self

theorem Subtree.mem_inMemory_of_mem {node : Node} {c u : Subtree} (hc : .tree c ∈ node.entries)
    (hu : u ∈ c.inMemory) :
    u ∈ (Subtree.resolved node).inMemory := by
  rw [inMemory_resolved]
  exact List.mem_cons_of_mem _ (mem_entriesInMemory.2 ⟨c, hc, hu⟩)

theorem Archive.Has.exists_address (h : archive.Has height ls) :
    ∃ address, (canonical config height ls).address config = .ok address := by
  cases height with
  | zero => exact h.elim
  | succ layer =>
    obtain ⟨_, block, _, _, _, _, hblock⟩ := h.exists_block
    rw [address_canonical, hblock]
    exact ⟨block.address, rfl⟩

theorem NodeOf.Holds.exists_record {node : Node}
    (h : node.Holds archive (Subtree.Holds archive layer) layer ls) (hls : Listing ls)
    (haddress : ∀ t, .tree t ∈ node.entries → ∃ address, t.address config = .ok address) :
    ∃ record, node.record config = .ok record := by
  unfold NodeOf.record
  rw [entryAddresses_eq_map]
  apply NodeRecord.exists_ofEntries
  · exact (Entry.isChain_apart_map _).2 h.apart
  · intro x hx
    obtain ⟨_ | _, ht, heq⟩ := List.mem_map.1 hx <;> cases heq
    exact haddress _ ht
  · rw [Entry.leaves_map, h.spells.leaves_eq]
    exact fun l hl => hls.valid l (List.mem_of_mem_filter hl)

theorem Subtree.Holds.has (h : t.Holds archive height ls) (hls : Listing ls)
    (hcovers : ∀ node, .resolved node ∈ t.inMemory → ∀ record, node.record config = .ok record →
      ∃ block, config.codec.block record = .ok block ∧ archive.blocks block.bytes) :
    archive.Has height ls := by
  induction height generalizing t ls with
  | zero => exact h.elim
  | succ layer ih =>
    match t, h with
    | .unresolved _ _, h => exact h.2.1
    | .resolved node, h =>
      have hbelow : ∀ c ts, .tree c ∈ node.entries → Subtree.Holds archive layer c ts → Listing ts →
          archive.Has layer ts := by
        intro c ts hc hcts hts
        apply ih hcts hts
        exact fun n hn => hcovers n (mem_inMemory_of_mem hc hn)
      have hnode : node.Holds archive (Subtree.Holds archive layer) layer ls := h
      constructor
      · have haddress : ∀ c, .tree c ∈ node.entries →
            ∃ address, c.address config = .ok address := by
          intro c hc
          obtain ⟨ts, hcts, -, -, hsub⟩ := hnode.spells.of_tree_mem hc
          rw [hcts.address_eq]
          exact (hbelow c ts hc hcts (hls.sublist hsub)).exists_address
        obtain ⟨record, hrecord⟩ := hnode.exists_record hls haddress
        obtain ⟨block, hblock, hblocks⟩ := hcovers node (mem_inMemory_self node) record hrecord
        refine ⟨block, ?_, hblocks⟩
        rw [← hnode.block_eq fun t ts => Subtree.Holds.address_eq, NodeOf.block, hrecord]
        exact hblock
      · intro ts hts
        obtain ⟨c, hc, hsub, hcts⟩ := hnode.exists_subtree hts
        exact hbelow c ts hc hcts (hls.sublist hsub)

theorem addressedEntries_eq_map (es : List NodeEntry) :
    addressedEntries config es = es.map (Entry.map (Subtree.addressed config)) := by
  induction es with
  | nil => rfl
  | cons e es ih => cases e <;> simp [addressedEntries, ih]

theorem Subtree.addressed_resolved {node : Node} (h : node.address = none) :
    (Subtree.resolved node).addressed config = .resolved { node with
      entries := addressedEntries config node.entries
      address :=
        ((Subtree.resolved { node with entries := addressedEntries config node.entries }).address
          config).toOption } := by
  obtain ⟨es, layer, address, serial⟩ := node
  cases h
  rw [Subtree.addressed]

theorem Subtree.addressed_resolved_some {node : Node} {address : Cid}
    (h : node.address = some address) :
    (Subtree.resolved node).addressed config = .resolved node := by
  obtain ⟨es, layer, known, serial⟩ := node
  cases h
  rw [Subtree.addressed]

theorem NodeOf.Holds.addressedEntries {node : Node}
    (h : node.Holds archive (Subtree.Holds archive layer) layer ls)
    (ih : ∀ c ts, .tree ts ∈ Leaves.groups config layer ls → Subtree.Holds archive layer c ts →
      (c.addressed config).Holds archive layer ts) :
    NodeOf.Holds archive (Subtree.Holds archive layer) layer
      { node with entries := MerkleSearch.addressedEntries config node.entries } ls := by
  rw [addressedEntries_eq_map]
  refine ⟨h.layer_eq, h.address_eq, h.serial_eq, (Entry.isChain_apart_map _).2 h.apart, ?_⟩
  have hgroups :
      List.Forall₂ (Entry.Rel fun c ts => Subtree.Holds archive layer (c.addressed config) ts)
        node.entries (Leaves.groups config layer ls) :=
    Entry.forall₂_imp (h.spells.groups h.apart) fun c ts hc _ hts => ih c ts hts hc
  apply (Leaves.spells_groups h.spells.layer_le).of_forall₂
  · exact List.forall₂_map_left_iff.2 (hgroups.imp fun _ _ => Entry.Rel.map_left)
  · rintro c _ ts hc rfl - -
    exact hc

theorem Subtree.Holds.addressed (h : t.Holds archive height ls) (hhas : archive.Has height ls) :
    (t.addressed config).Holds archive height ls := by
  induction height generalizing t ls with
  | zero => exact h.elim
  | succ layer ih =>
    match t, h with
    | .unresolved _ _, h => exact h
    | .resolved node, h =>
      cases haddress : node.address with
      | some address =>
        rw [addressed_resolved_some haddress]
        exact h
      | none =>
        have hnode := NodeOf.Holds.addressedEntries h fun c ts hts hc => ih hc (hhas.2 ts hts)
        rw [addressed_resolved haddress]
        have hholds : Subtree.Holds archive (layer + 1) (.resolved _) ls := hnode
        have heq := Subtree.Holds.address_eq hholds
        refine ⟨hnode.layer_eq, ?_, hnode.serial_eq, hnode.apart, hnode.spells⟩
        intro address hnoted
        obtain ⟨found, hfound⟩ := hhas.exists_address
        dsimp only at hnoted
        rw [heq, hfound, Except.toOption, Option.some.injEq] at hnoted
        rw [hfound, hnoted]
        exact ⟨rfl, hhas⟩

theorem Tree.Holds.addressed (h : tree.Holds archive ls) (hcovers : archive.Covers tree) :
    tree.addressed.Holds archive ls := by
  obtain ⟨layer, htops, hroot⟩ := h.root
  cases h.config_eq
  exact ⟨rfl, h.listing, layer, htops, hroot.addressed (hroot.has h.listing hcovers)⟩

theorem Subtree.Holds.unresolved {address : Cid} (h : t.Holds archive (layer + 1) ls)
    (htops : Tops config layer ls) (hhas : archive.Has (layer + 1) ls)
    (haddress : t.address config = .ok address) :
    (Subtree.unresolved address (.ofLayer? none)).Holds archive (layer + 1) ls := by
  rw [h.address_eq] at haddress
  refine ⟨haddress, hhas, .inr ⟨rfl, ?_, htops⟩⟩
  simp [Hint.ofLayer?, Hint.horizon]

theorem Tree.Holds.load {address : Cid} (h : tree.Holds archive ls) (hcovers : archive.Covers tree)
    (haddress : tree.address = .ok address) : (Tree.load address config).Holds archive ls := by
  obtain ⟨layer, htops, hroot⟩ := h.root
  rw [Tree.address, h.config_eq] at haddress
  exact ⟨rfl, h.listing, layer, htops,
    hroot.unresolved htops (hroot.has h.listing hcovers) haddress⟩

theorem Tree.Built.holds (h : tree.Built archive) : ∃ ls, tree.Holds archive ls := by
  induction h with
  | empty => exact ⟨[], .empty⟩
  | edit edit _ hstore hrun ih =>
    obtain ⟨ls, hls⟩ := ih
    exact ⟨edit.leaves ls, hls.edit hstore hrun⟩
  | addressed _ hcovers ih =>
    obtain ⟨ls, hls⟩ := ih
    exact ⟨ls, hls.addressed hcovers⟩
  | load _ hcovers hsave ih =>
    obtain ⟨ls, hls⟩ := ih
    exact ⟨ls, hls.load hcovers (Tree.address_of_save hsave)⟩

end MerkleSearch
