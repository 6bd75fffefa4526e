import MerkleSearch.Proofs.Confined
import MerkleSearch.Proofs.Lockstep

/-!
This module contains what is walked from a key on. To seek a key is to leave out, node by node, what
stands before its gap; nothing but entries from the key on are left. The main statement is
`Tree.Built.leavesFrom_eq_filter`: the leaves from a key on are those of the whole tree that are not
below it, whether or not it is a key that can be stored.
-/

namespace MerkleSearch

variable {config : Config} {archive : Archive config} {store : Blockstore Id} {layer height : Nat}
variable {key : String} {ls bs ss as : List Leaf} {t : Subtree} {tree : Tree} {es : List NodeEntry}
variable {gap : Gap}

def Leaves.from (key : String) (ls : List Leaf) : List Leaf := ls.filter (key ≤ ·.key)

namespace Gap.Parts

variable {holds : Subtree → List Leaf → Prop}

theorem from_eq (parts : gap.Parts config holds layer key bs ss as) :
    Leaves.from key (bs ++ ss ++ as) = Leaves.from key ss ++ as := by
  have hbefore : Leaves.from key bs = [] := by
    rw [Leaves.from, List.filter_eq_nil_iff]
    intro l hl
    simpa using parts.before_lt l hl
  have hafter : Leaves.from key as = as := by
    rw [Leaves.from, List.filter_eq_self]
    intro l hl
    simpa using parts.le_after l hl
  rw [Leaves.from, List.filter_append, List.filter_append, ← Leaves.from, ← Leaves.from,
    ← Leaves.from, hbefore, hafter, List.nil_append]

end Gap.Parts

def Yields (store : Blockstore Id) (config : Config) (es : List NodeEntry)
    (ls : List Leaf) : Prop :=
  ∃ vs, Walked store config es vs ∧ Entry.leaves vs = ls

namespace Yields

theorem append {es' : List NodeEntry} {ls' : List Leaf} (h : Yields store config es ls)
    (h' : Yields store config es' ls') : Yields store config (es ++ es') (ls ++ ls') := by
  obtain ⟨vs, hvs, rfl⟩ := h
  obtain ⟨vs', hvs', rfl⟩ := h'
  exact ⟨vs ++ vs', hvs.append hvs', Entry.leaves_append vs vs'⟩

theorem nil : Yields store config [] [] := ⟨[], .nil, rfl⟩

theorem leaf (l : Leaf) : Yields store config [.leaf l] [l] := ⟨[.leaf l], .leaf .nil, rfl⟩

end Yields

theorem Subtree.Holds.yields (h : t.Holds archive height ls) (hls : Listing ls)
    (hstore : archive.Agrees store) (hreadable : t.Readable store config) :
    Yields store config [.tree t] ls := by
  obtain ⟨vs, hvs, hshows⟩ := h.exists_walked hls hstore hreadable
  refine ⟨vs, hvs, ?_⟩
  cases height with
  | zero => exact h.elim
  | succ layer =>
    rw [Entry.leaves_eq_of_forall₂ hshows, Extent.leaves_visits]
    exact fun l hl => Nat.lt_succ_of_le (h.layer_le l hl)

theorem Spells.yields (h : Spells config (Subtree.Holds archive layer) layer es ls)
    (hls : Listing ls) (hstore : archive.Agrees store)
    (hreadable : Subtree.AllReadable store config es) :
    Yields store config es ls := by
  induction h with
  | nil => exact .nil
  | leaf _ _ ih =>
    have hrest := ih hls.tail (Subtree.allReadable_leaf.1 hreadable)
    exact (Yields.leaf _).append hrest
  | tree ht _ _ _ ih =>
    obtain ⟨hsubtree, hes⟩ := Subtree.allReadable_tree.1 hreadable
    exact (ht.yields hls.left hstore hsubtree).append (ih hls.right hes)

/--
All nodes can be had that are come to by a walk from the key on.
-/
inductive Subtree.ReadableFrom (store : Blockstore Id) (config : Config)
    (key : String) : Subtree → Prop
  | intro {t : Subtree} (n : { node : Node // t.Covers node })
    (hn : (t.resolve store config).run = .ok n)
    (hafter : AllReadable store config (n.val.gap key).after)
    (hsubtree : ∀ c, (n.val.gap key).subtree = some c → ReadableFrom store config key c) :
    ReadableFrom store config key t

theorem Subtree.Readable.readableFrom (h : t.Readable store config) (key : String) :
    t.ReadableFrom store config key := by
  induction h with
  | @intro t n hn below ih =>
    exact .intro n hn (AllReadable.gap below key).2.2 fun c hc => ih c (NodeOf.tree_mem_of_gap hc)

theorem Subtree.Holds.seek_of_readableFrom (h : t.Holds archive height ls) (hls : Listing ls)
    (hstore : archive.Agrees store) (hreadable : t.ReadableFrom store config key)
    (rest : List NodeEntry) :
    ∃ es, (t.seek store config key rest).run = .ok ⟨es ++ rest⟩ ∧
      Yields store config es (Leaves.from key ls) := by
  induction height generalizing t ls rest with
  | zero => exact h.elim
  | succ layer ih =>
    obtain ⟨n, hn, hafter, hsubtree⟩ := hreadable
    have hnode := h.of_resolve hls hstore hn
    obtain ⟨bs, ss, as, rfl, parts⟩ := hnode.exists_parts hls key
    have hbehind := parts.after.yields hls.right hstore hafter
    have hresolve : t.resolve store config = pure n := hn
    rw [seek_eq, hresolve, pure_bind, parts.from_eq]
    cases hgap : (n.val.gap key).subtree with
    | none =>
      cases parts.of_subtree_none hgap
      exact ⟨_, rfl, hbehind⟩
    | some c =>
      obtain ⟨es, hseek, hes⟩ := ih (parts.of_subtree_some hgap).1 hls.left.right (hsubtree c hgap)
        ((n.val.gap key).after ++ rest)
      refine ⟨es ++ (n.val.gap key).after, ?_, hes.append hbehind⟩
      rw [List.append_assoc]
      exact hseek

theorem Subtree.Holds.seek (h : t.Holds archive height ls) (hls : Listing ls)
    (hstore : archive.Agrees store) (hreadable : t.Readable store config) (key : String)
    (rest : List NodeEntry) :
    ∃ es, (t.seek store config key rest).run = .ok ⟨es ++ rest⟩ ∧
      Yields store config es (Leaves.from key ls) :=
  h.seek_of_readableFrom hls hstore (hreadable.readableFrom key) rest

theorem walkOutcome_eq_ok_iff {σ : Type} {r : σ × Except Error Unit} {s : σ} :
    walkOutcome r = .ok s ↔ r = (s, .ok ()) := by
  obtain ⟨found, outcome⟩ := r
  cases outcome <;> simp [walkOutcome, Except.map]

namespace Tree

theorem leavesFrom_of_yields (hseek : (tree.root.seek store tree.config key []).run = .ok ⟨es⟩)
    (h : Yields store tree.config es ls) : tree.leavesFrom store key = (ls, .ok ()) := by
  obtain ⟨vs, hvs, rfl⟩ := h
  have hgather : (complete (tree.gather store Entry.leaf? none .fail ⟨es⟩)).run =
      .ok (Entry.leaves vs) :=
    run_gather_eq_ok_iff.2 ⟨vs, hvs, rfl⟩
  rw [run_complete] at hgather
  unfold leavesFrom
  rw [if_neg nofun, hseek]
  exact walkOutcome_eq_ok_iff.1 hgather

theorem Holds.leavesFrom (h : tree.Holds archive ls) (hstore : archive.Agrees store)
    (hreadable : tree.root.ReadableFrom store config key) :
    tree.leavesFrom store key = (Leaves.from key ls, .ok ()) := by
  obtain ⟨layer, -, hroot⟩ := h.root
  cases h.config_eq
  obtain ⟨es, hseek, hes⟩ := hroot.seek_of_readableFrom h.listing hstore hreadable []
  rw [List.append_nil] at hseek
  exact leavesFrom_of_yields hseek hes

theorem Built.leavesFrom_eq_filter (h : tree.Built archive) (hstore : archive.Agrees store)
    (hreadable : tree.Readable store) :
    ∃ ls, (tree.leaves store).run = .ok ls ∧ ls.Pairwise (·.key < ·.key) ∧
      ∀ key, tree.leavesFrom store key = (ls.filter (key ≤ ·.key), .ok ()) := by
  obtain ⟨ls, hls⟩ := h.holds
  refine ⟨ls, hls.leaves_run hstore hreadable, hls.listing.sorted, fun key => ?_⟩
  obtain ⟨layer, -, hroot⟩ := hls.root
  cases hls.config_eq
  obtain ⟨es, hseek, hes⟩ := hroot.seek hls.listing hstore hreadable key []
  rw [List.append_nil] at hseek
  exact leavesFrom_of_yields hseek hes

end Tree

theorem Sample.leavesFrom_load :
    ((Tree.load (pointer 2) Sample.config).leaves (.snapshot shelf)).run =
      .ok [Sample.low, Sample.high] ∧
    (Tree.load (pointer 2) Sample.config).leavesFrom (.snapshot shelf) "" =
      ([Sample.low, Sample.high], .ok ()) ∧
    (Tree.load (pointer 2) Sample.config).leavesFrom (.snapshot shelf) "a/b b" =
      ([Sample.high], .ok ()) ∧
    (Tree.load (pointer 2) Sample.config).leavesFrom (.snapshot shelf) "a/d" = ([], .ok ()) := by
  have hbuilt : (Tree.load (pointer 2) Sample.config).Built Sample.archive :=
    .load built covers save_tree
  have hreadable := readable_load (Blockstore.run_get?_snapshot_eq get?_shelf.1)
    (Blockstore.run_get?_snapshot_eq get?_shelf.2)
  obtain ⟨ls, hleaves, -, hfrom⟩ := hbuilt.leavesFrom_eq_filter agrees_shelf hreadable
  have hall : ((Tree.load (pointer 2) Sample.config).leaves (.snapshot shelf)).run =
      .ok [Sample.low, Sample.high] :=
    Tree.run_leaves_eq_ok_iff.2 ⟨_, walked_shelf, rfl⟩
  cases hleaves.symm.trans hall
  exact ⟨hall, hfrom "", hfrom "a/b b", hfrom "a/d"⟩

end MerkleSearch
