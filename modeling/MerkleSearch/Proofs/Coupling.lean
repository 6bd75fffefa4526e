import MerkleSearch.Proofs.Walk
import MerkleSearch.Tree.Add
import MerkleSearch.Tree.Delete
import MerkleSearch.Tree.Get
import MerkleSearch.Tree.Save
import MerkleSearch.Tree.Update

/-!
This module contains runs of one operation on two stores. If what the two answer is related in a
way that goes well with sequencing, then so are the outcomes of every operation that does nothing
with a store but ask it for nodes: no operation has another way to tell two stores apart. So what
only reads a store in memory is the same as a function of the blocks that are in it.
-/

namespace MerkleSearch

structure Coupling (m n : Type → Type) [Monad m] [Monad n] where
  rel {α : Type} : ExceptT Error m α → ExceptT Error n α → Prop
  pure {α : Type} (a : α) : rel (pure a) (pure a)
  throw {α : Type} (e : Error) : rel (throw e : ExceptT Error m α) (throw e)
  bind {α β : Type} {x : ExceptT Error m α} {y : ExceptT Error n α} {f : α → ExceptT Error m β}
    {g : α → ExceptT Error n β} (h : rel x y) (hf : ∀ a, rel (f a) (g a)) : rel (x >>= f) (y >>= g)

namespace Coupling

variable {m n : Type → Type} [Monad m] [Monad n] {store : Blockstore m} {store' : Blockstore n}
variable {config : Config} {c : Coupling m n} {key : String} {t : Subtree}

def Fetches (c : Coupling m n) (store : Blockstore m) (store' : Blockstore n)
    (config : Config) : Prop :=
  ∀ t : Subtree, c.rel (t.resolve store config) (t.resolve store' config)

theorem lift {α : Type} (x : Except Error α) :
    c.rel (liftM x : ExceptT Error m α) (liftM x : ExceptT Error n α) := by
  cases x with
  | ok a => exact c.pure a
  | error e => exact c.throw e

theorem findSomeM? {α β : Type} {f : α → ExceptT Error m (Option β)}
    {g : α → ExceptT Error n (Option β)} (as : List α) (h : ∀ a ∈ as, c.rel (f a) (g a)) :
    c.rel (as.findSomeM? f) (as.findSomeM? g) := by
  induction as with
  | nil => exact c.pure none
  | cons a as ih =>
    rw [List.forall_mem_cons] at h
    apply c.bind h.1
    intro found
    split
    · exact c.pure _
    · exact ih h.2

namespace Fetches

theorem of_get?
    (hget : ∀ address,
      c.rel (Blockstore.ask (store.get? address)) (Blockstore.ask (store'.get? address))) :
    c.Fetches store store' config := by
  intro t
  unfold Subtree.resolve
  split
  · exact c.pure _
  · split
    · exact c.throw _
    · refine c.bind (c.bind (hget _) fun found => ?_) fun bytes => ?_
      · split
        · exact c.pure _
        · exact c.throw _
      · refine c.bind (lift _) fun computed => ?_
        split
        · refine c.bind (c.throw _) fun _ => c.bind (lift _) fun record => ?_
          split
          · exact c.pure _
          · exact c.throw _
        · refine c.bind (lift _) fun record => ?_
          split
          · exact c.pure _
          · exact c.throw _

variable (h : c.Fetches store store' config)
include h

theorem layer? (node : Node) (covers : t.Covers node) :
    c.rel (t.layer? store config node covers) (t.layer? store' config node covers) := by
  induction t.acc generalizing node with
  | intro t _ ih =>
    rw [Subtree.layer?, Subtree.layer?]
    split
    · exact c.pure _
    · exact c.pure _
    · apply Coupling.findSomeM?
      rintro ⟨child, hchild⟩ -
      dsimp only
      split
      · exact c.pure _
      · apply c.bind (h child)
        rintro ⟨node, covers'⟩
        apply c.bind (ih child (covers child (NodeOf.mem_subtrees.1 hchild)) node covers')
        exact fun _ => c.pure _

theorem layerOf (node : Node) (covers : t.Covers node) :
    c.rel (t.layerOf store config node covers) (t.layerOf store' config node covers) :=
  c.bind (h.layer? node covers) fun _ => c.pure _

theorem get? (key : String) (t : Subtree) :
    c.rel (t.get? store config key) (t.get? store' config key) := by
  induction t.acc with
  | intro t _ ih =>
    rw [Subtree.get?, Subtree.get?]
    apply c.bind (h t)
    rintro ⟨node, covers⟩
    dsimp only
    split
    · exact c.pure _
    · next below _ hsubtree => exact ih below (covers below (NodeOf.tree_mem_of_gap hsubtree))
    · exact c.pure _

theorem path (key : String) (t : Subtree) :
    c.rel (t.path store config key) (t.path store' config key) := by
  induction t.acc with
  | intro t _ ih =>
    rw [Subtree.path, Subtree.path]
    apply c.bind (h t)
    rintro ⟨node, covers⟩
    apply c.bind (Coupling.lift _)
    intro address
    dsimp only
    split
    · exact c.pure _
    · next below _ hsubtree =>
      apply c.bind (ih below (covers below (NodeOf.tree_mem_of_gap hsubtree)))
      exact fun _ => c.pure _
    · exact c.pure _

theorem split (key : String) (t : Subtree) :
    c.rel (t.split store config key) (t.split store' config key) := by
  induction t.acc with
  | intro t _ ih =>
    rw [Subtree.split, Subtree.split]
    apply c.bind (h t)
    rintro ⟨node, covers⟩
    dsimp only
    split
    · next below hsubtree =>
      apply c.bind (ih below (covers below (NodeOf.tree_mem_of_gap hsubtree)))
      exact fun _ => c.pure _
    · exact c.pure _

theorem merge (left right : Subtree) :
    c.rel (left.merge store config right) (left.merge store' config right) := by
  induction left.acc generalizing right with
  | intro left _ ih =>
    rw [Subtree.merge, Subtree.merge]
    apply c.bind (h left)
    rintro ⟨l, lcovers⟩
    apply c.bind (h right)
    rintro ⟨r, rcovers⟩
    apply c.bind (h.layerOf l lcovers)
    intro leftLayer
    apply c.bind (h.layerOf r rcovers)
    intro rightLayer
    dsimp only
    split
    · exact c.throw _
    · split
      · next a b rest hlast hentries =>
        apply c.bind (ih a (lcovers a (List.mem_of_getLast? hlast)) b)
        exact fun _ => c.pure _
      · exact c.pure _

theorem add (leaf : Leaf) (keyLayer : Nat) (t : Subtree) :
    c.rel (t.add store config leaf keyLayer) (t.add store' config leaf keyLayer) := by
  induction t.acc with
  | intro t _ ih =>
    rw [Subtree.add, Subtree.add]
    apply c.bind (h t)
    rintro ⟨node, covers⟩
    apply c.bind (h.layerOf node covers)
    intro layer
    dsimp only
    split
    · split
      · exact c.throw _
      · split
        · apply c.bind (h.split leaf.key _)
          exact fun _ => c.pure _
        · exact c.pure _
    · split
      · split
        · next below hsubtree =>
          apply c.bind (ih below (covers below (NodeOf.tree_mem_of_gap hsubtree)))
          exact fun _ => c.pure _
        · exact c.pure _
      · apply c.bind (h.split leaf.key _)
        exact fun _ => c.pure _

theorem update (leaf : Leaf) (t : Subtree) :
    c.rel (t.update store config leaf) (t.update store' config leaf) := by
  induction t.acc with
  | intro t _ ih =>
    rw [Subtree.update, Subtree.update]
    apply c.bind (h t)
    rintro ⟨node, covers⟩
    dsimp only
    split
    · exact c.pure _
    · next below _ hsubtree =>
      apply c.bind (ih below (covers below (NodeOf.tree_mem_of_gap hsubtree)))
      exact fun _ => c.pure _
    · exact c.throw _

theorem delete (key : String) (t : Subtree) :
    c.rel (t.delete store config key) (t.delete store' config key) := by
  induction t.acc with
  | intro t _ ih =>
    rw [Subtree.delete, Subtree.delete]
    apply c.bind (h t)
    rintro ⟨node, covers⟩
    dsimp only
    split
    · apply c.bind (h.merge _ _)
      exact fun _ => c.pure _
    · exact c.pure _
    · next below _ hsubtree =>
      apply c.bind (ih below (covers below (NodeOf.tree_mem_of_gap hsubtree)))
      exact fun _ => c.pure _
    · exact c.throw _

theorem trim (node : Node) (covers : t.Covers node) :
    c.rel (t.trim store config node covers) (t.trim store' config node covers) := by
  induction t.acc generalizing node with
  | intro t _ ih =>
    rw [Subtree.trim, Subtree.trim]
    split
    · next only hentries =>
      apply c.bind (h only)
      rintro ⟨child, childCovers⟩
      exact ih only (covers only (by simp [hentries])) child childCovers
    · exact c.pure _

omit h in
theorem unstoredEntries (es : List NodeEntry)
    (ih : ∀ t, .tree t ∈ es →
      ∀ blocks, c.rel (t.unstored store config blocks) (t.unstored store' config blocks))
    (blocks : BlockMap) :
    c.rel (MerkleSearch.unstoredEntries store config es blocks)
      (MerkleSearch.unstoredEntries store' config es blocks) := by
  induction es generalizing blocks with
  | nil =>
    rw [MerkleSearch.unstoredEntries, MerkleSearch.unstoredEntries]
    exact c.pure _
  | cons e es ihrest =>
    have hrest := ihrest fun t ht => ih t (List.mem_cons_of_mem _ ht)
    cases e with
    | leaf l =>
      rw [MerkleSearch.unstoredEntries, MerkleSearch.unstoredEntries]
      exact hrest blocks
    | tree t =>
      rw [MerkleSearch.unstoredEntries, MerkleSearch.unstoredEntries]
      apply c.bind (ih t List.mem_cons_self blocks)
      exact fun _ => hrest _

omit h in
theorem unstored
    (hcontains : ∀ address,
      c.rel (Blockstore.ask (store.contains address)) (Blockstore.ask (store'.contains address)))
    (t : Subtree) (blocks : BlockMap) :
    c.rel (t.unstored store config blocks) (t.unstored store' config blocks) := by
  induction t.acc generalizing blocks with
  | intro t _ ih =>
    match t with
    | .unresolved _ _ =>
      rw [Subtree.unstored, Subtree.unstored]
      exact c.pure _
    | .resolved ⟨es, layer, known, serial⟩ =>
      have hentries := unstoredEntries es fun t ht => ih t (Subtree.covers_resolved _ t ht)
      rw [Subtree.unstored, Subtree.unstored]
      apply c.bind (Coupling.lift _)
      intro address
      split
      · exact c.pure _
      · apply c.bind (hcontains address)
        intro found
        split
        · exact c.pure _
        · apply c.bind (hentries blocks)
          intro below
          apply c.bind (Coupling.lift _)
          exact fun _ => c.pure _

theorem seek (key : String) (t : Subtree) (rest : List NodeEntry) :
    c.rel (t.seek store config key rest) (t.seek store' config key rest) := by
  induction t.acc generalizing rest with
  | intro t _ ih =>
    rw [Subtree.seek, Subtree.seek]
    apply c.bind (h t)
    rintro ⟨node, covers⟩
    dsimp only
    split
    · next below hsubtree => exact ih below (covers below (NodeOf.tree_mem_of_gap hsubtree)) _
    · exact c.pure _

section Walks

variable [LawfulMonad m] [LawfulMonad n] {σ : Type} {s : σ}
variable {f : NodeEntry → σ → ExceptT Error m (ForInStep σ)}
variable {g : NodeEntry → σ → ExceptT Error n (ForInStep σ)}

theorem complete_visit (hf : ∀ e s, c.rel (f e s) (g e s)) (es : List NodeEntry) (s : σ) :
    c.rel (complete (Pending.visit store config .fail ⟨es⟩ s f))
      (complete (Pending.visit store' config .fail ⟨es⟩ s g)) := by
  match es with
  | [] =>
    rw [complete_visit_nil, complete_visit_nil]
    exact c.pure s
  | .leaf l :: rest =>
    rw [complete_visit_leaf, complete_visit_leaf]
    apply c.bind (hf _ s)
    intro step
    split
    · exact c.pure _
    · exact complete_visit hf rest _
  | .tree t :: rest =>
    rw [complete_visit_tree, complete_visit_tree]
    apply c.bind (h t)
    intro n
    apply c.bind (hf _ s)
    intro step
    split
    · exact c.pure _
    · exact complete_visit hf (n.val.entries ++ rest) _
termination_by (⟨es⟩ : Pending)
decreasing_by
  · exact .drop
  · exact .expand n.property

theorem gather {α : Type} {tree : Tree} (htree : tree.config = config)
    (select : NodeEntry → Option α) (limit : Option Nat) (es : List NodeEntry) :
    c.rel (complete (tree.gather store select limit .fail ⟨es⟩))
      (complete (tree.gather store' select limit .fail ⟨es⟩)) := by
  cases htree
  unfold Tree.gather
  split
  · rw [complete_pure, complete_pure]
    exact c.pure []
  · rw [complete_map_fst, complete_map_fst, ← bind_pure_comp, ← bind_pure_comp]
    refine c.bind (h.complete_visit ?_ es []) fun _ => c.pure _
    intro e found
    split <;> exact c.pure _

end Walks

end Fetches

end Coupling

namespace Tree

variable {m n : Type → Type} [Monad m] [Monad n] {store : Blockstore m} {store' : Blockstore n}
variable {tree : Tree} {c : Coupling m n} (h : c.Fetches store store' tree.config) (key : String)
variable (value : Cid)
include h

theorem rel_get? : c.rel (tree.get? store key) (tree.get? store' key) := by
  unfold get?
  split
  · exact h.get? key _
  · exact c.pure none

theorem rel_path : c.rel (tree.path store key) (tree.path store' key) := h.path key _

theorem rel_add : c.rel (tree.add store key value) (tree.add store' key value) := by
  unfold add
  split
  · exact c.bind (h.add _ _ _) fun _ => c.pure _
  · exact c.throw _

theorem rel_update : c.rel (tree.update store key value) (tree.update store' key value) := by
  unfold update
  split
  · exact c.bind (h.update _ _) fun _ => c.pure _
  · exact c.throw _

theorem rel_delete : c.rel (tree.delete store key) (tree.delete store' key) := by
  unfold delete
  split
  · apply c.bind (h.delete key _)
    intro altered
    exact c.bind (h.trim _ _) fun _ => c.pure _
  · exact c.throw _

variable [LawfulMonad m] [LawfulMonad n]

theorem rel_entries : c.rel (tree.entries store) (tree.entries store') := h.gather rfl _ _ _

theorem rel_leaves : c.rel (tree.leaves store) (tree.leaves store') := h.gather rfl _ _ _

theorem rel_scan (f : Leaf → List Leaf → ForInStep (List Leaf)) :
    c.rel (tree.scan store key f) (tree.scan store' key f) := by
  unfold scan
  apply c.bind (h.seek key _ [])
  rintro ⟨es⟩
  refine c.bind (h.complete_visit ?_ es []) fun _ => c.pure _
  intro e found
  split <;> exact c.pure _

theorem rel_list (count : Option Nat) (after before : Option String) :
    c.rel (tree.list store count after before) (tree.list store' count after before) :=
  rel_scan h _ _

end Tree

namespace Coupling

def reading (blocks : BlockMap) : Coupling (StateM BlockMap) Id where
  rel x y := x.run.run blocks = (y.run, blocks)
  pure _ := rfl
  throw _ := rfl
  bind {_ _ x y f g} h hf := by
    rw [ExceptT.run_bind, ExceptT.run_bind, StateT.run_bind, h]
    cases y.run with
    | ok a => exact hf a
    | error e => rfl

theorem reading_fetches {blocks : BlockMap} :
    (reading blocks).Fetches .inMemory (.snapshot blocks) config :=
  .of_get? fun _ => rfl

end Coupling

end MerkleSearch
