import MerkleSearch.Proofs.Resolve
import MerkleSearch.Tree.Walk

/-!
This module contains what a walk comes to. A walk that does not fail is a fold over the entries that
it visits, and these are given by a relation which follows the nodes alone: it does not depend on
what is gathered on the way.
-/

namespace MerkleSearch

section Steps

variable {m : Type → Type} [Monad m] [LawfulMonad m] {σ : Type} {store : Blockstore m}
variable {config : Config} {es : List NodeEntry} {s : σ}
variable {f : NodeEntry → σ → ExceptT Error m (ForInStep σ)}

def walkOutcome (r : σ × Except Error Unit) : Except Error σ := r.2.map fun _ => r.1

theorem run_complete (walk : m (σ × Except Error Unit)) :
    (complete walk).run = walkOutcome <$> walk := by
  unfold complete
  rw [ExceptT.run_bind, map_eq_pure_bind]
  simp only [liftM, monadLift, MonadLift.monadLift, ExceptT.run_lift, bind_map_left]
  congr
  funext ⟨s, r⟩
  cases r <;> rfl

omit [LawfulMonad m] in
theorem Pending.step_tree {t : Subtree} :
    Pending.step store config .fail (.tree t) es = (do
      match ← (t.resolve store config).run with
      | .ok n =>
        return .ok (some (.tree (.resolved n.val)), ⟨⟨n.val.entries ++ es⟩, .expand n.property⟩)
      | .error error => return .error error) := by
  unfold Pending.step
  dsimp only
  congr
  funext r
  match r with
  | .error e => cases e <;> rfl
  | .ok n => rfl

theorem complete_pure : complete (pure (s, .ok ()) : m (σ × Except Error Unit)) = pure s := by
  apply ExceptT.ext
  rw [run_complete, map_pure]
  rfl

theorem complete_visit_nil : complete (Pending.visit store config .fail ⟨[]⟩ s f) = pure s := by
  rw [Pending.visit, complete_pure]

theorem complete_visit_leaf {l : Leaf} :
    complete (Pending.visit store config .fail ⟨.leaf l :: es⟩ s f) = (do
      match ← f (.leaf l) s with
      | .done s => return s
      | .yield s => complete (Pending.visit store config .fail ⟨es⟩ s f)) := by
  apply ExceptT.ext
  rw [run_complete, Pending.visit, Pending.step, pure_bind, map_bind, ExceptT.run_bind]
  congr
  funext r
  cases r with
  | error e => exact map_pure ..
  | ok r =>
    cases r with
    | done s => exact map_pure ..
    | yield s => exact (run_complete _).symm

theorem complete_visit_tree {t : Subtree} :
    complete (Pending.visit store config .fail ⟨.tree t :: es⟩ s f) = (do
      let n ← t.resolve store config
      match ← f (.tree (.resolved n.val)) s with
      | .done s => return s
      | .yield s => complete (Pending.visit store config .fail ⟨n.val.entries ++ es⟩ s f)) := by
  apply ExceptT.ext
  rw [run_complete, Pending.visit, Pending.step_tree, bind_assoc, map_bind, ExceptT.run_bind]
  congr
  funext r
  cases r with
  | error e =>
    dsimp only
    rw [pure_bind, map_pure]
    rfl
  | ok n =>
    dsimp only
    rw [pure_bind, map_bind, ExceptT.run_bind]
    congr
    funext r
    cases r with
    | error e => exact map_pure ..
    | ok r =>
      cases r with
      | done s => exact map_pure ..
      | yield s => exact (run_complete _).symm

theorem complete_map_fst {α β : Type} (g : α → β) (walk : m (α × Except Error Unit)) :
    complete (do let (s, r) ← walk; return (g s, r)) = g <$> complete walk := by
  apply ExceptT.ext
  rw [run_complete, ExceptT.run_map, run_complete, map_bind, Functor.map_map, map_eq_pure_bind]
  congr
  funext ⟨s, r⟩
  rw [map_pure]
  cases r <;> rfl

end Steps

/--
A walk over the entries `es` visits the entries `vs`.
-/
inductive Walked (store : Blockstore Id) (config : Config) : List NodeEntry → List NodeEntry → Prop
  | nil : Walked store config [] []
  | leaf {l : Leaf} {es vs : List NodeEntry} (h : Walked store config es vs) :
    Walked store config (.leaf l :: es) (.leaf l :: vs)
  | tree {t : Subtree} {es vs : List NodeEntry} {n : { node : Node // t.Covers node }}
    (hn : (t.resolve store config).run = .ok n) (h : Walked store config (n.val.entries ++ es) vs) :
    Walked store config (.tree t :: es) (.tree (.resolved n.val) :: vs)

variable {store : Blockstore Id} {config : Config} {es es' vs vs' : List NodeEntry} {t : Subtree}
variable {σ : Type}

namespace Walked

theorem append (h : Walked store config es vs) (h' : Walked store config es' vs') :
    Walked store config (es ++ es') (vs ++ vs') := by
  induction h with
  | nil => exact h'
  | leaf _ ih => exact .leaf ih
  | tree hn _ ih =>
    rw [List.append_assoc] at ih
    exact .tree hn ih

theorem of_append (h : Walked store config (es ++ es') vs) :
    ∃ us us', vs = us ++ us' ∧ Walked store config es us ∧ Walked store config es' us' := by
  generalize hall : es ++ es' = all at h
  induction h generalizing es with
  | nil =>
    obtain ⟨rfl, rfl⟩ := List.append_eq_nil_iff.1 hall
    exact ⟨[], [], rfl, .nil, .nil⟩
  | @leaf l rest vs h ih =>
    cases es with
    | nil =>
      rw [List.nil_append] at hall
      rw [hall]
      exact ⟨[], _, rfl, .nil, .leaf h⟩
    | cons e es =>
      rw [List.cons_append, List.cons.injEq] at hall
      obtain ⟨rfl, hall⟩ := hall
      obtain ⟨us, us', rfl, hus, hus'⟩ := ih hall
      exact ⟨_ :: us, us', rfl, .leaf hus, hus'⟩
  | @tree t rest vs n hn h ih =>
    cases es with
    | nil =>
      rw [List.nil_append] at hall
      rw [hall]
      exact ⟨[], _, rfl, .nil, .tree hn h⟩
    | cons e es =>
      rw [List.cons_append, List.cons.injEq] at hall
      obtain ⟨rfl, rfl⟩ := hall
      obtain ⟨us, us', rfl, hus, hus'⟩ := ih (List.append_assoc ..)
      exact ⟨_ :: us, us', rfl, .tree hn hus, hus'⟩

theorem of_tree (h : Walked store config [.tree t] vs) :
    ∃ (n : { node : Node // t.Covers node }) (us : List NodeEntry),
      (t.resolve store config).run = .ok n ∧ Walked store config n.val.entries us ∧
      vs = .tree (.resolved n.val) :: us := by
  cases h with
  | @tree _ _ us n hn h =>
    rw [List.append_nil] at h
    exact ⟨n, us, hn, h, rfl⟩

theorem of_resolve {n : { node : Node // t.Covers node }}
    (hn : (t.resolve store config).run = .ok n) (h : Walked store config n.val.entries vs) :
    Walked store config [.tree t] (.tree (.resolved n.val) :: vs) := by
  apply Walked.tree hn
  rwa [List.append_nil]

end Walked

section Folds

variable {f : NodeEntry → σ → ExceptT Error Id (ForInStep σ)} {g : NodeEntry → σ → σ} {s s' : σ}

theorem exists_walked_of_complete {es : List NodeEntry} {s : σ}
    (hf : ∀ e s, f e s = pure (.yield (g e s)))
    (h : (complete (Pending.visit store config .fail ⟨es⟩ s f)).run = .ok s') :
    ∃ vs, Walked store config es vs ∧ vs.foldl (fun s e => g e s) s = s' := by
  match es with
  | [] =>
    rw [complete_visit_nil] at h
    exact ⟨[], .nil, Except.ok.inj h⟩
  | .leaf l :: rest =>
    rw [complete_visit_leaf, hf, pure_bind] at h
    obtain ⟨vs, hvs, hfold⟩ := exists_walked_of_complete hf h
    exact ⟨_ :: vs, .leaf hvs, hfold⟩
  | .tree t :: rest =>
    rw [complete_visit_tree] at h
    obtain ⟨n, hn, h⟩ := exists_of_run_bind_eq_ok h
    rw [hf, pure_bind] at h
    obtain ⟨vs, hvs, hfold⟩ := exists_walked_of_complete hf h
    exact ⟨_ :: vs, .tree hn hvs, hfold⟩
termination_by (⟨es⟩ : Pending)
decreasing_by
  · exact .drop
  · exact .expand n.property

theorem Walked.complete_visit (h : Walked store config es vs)
    (hf : ∀ e s, f e s = pure (.yield (g e s))) :
    complete (Pending.visit store config .fail ⟨es⟩ s f) =
      pure (vs.foldl (fun s e => g e s) s) := by
  induction h generalizing s with
  | nil => exact complete_visit_nil
  | leaf _ ih =>
    rw [complete_visit_leaf, hf, pure_bind]
    exact ih
  | @tree t _ _ n hn _ ih =>
    have hn : t.resolve store config = pure n := hn
    rw [complete_visit_tree, hn, pure_bind, hf, pure_bind]
    exact ih

theorem run_complete_visit_eq_ok_iff (hf : ∀ e s, f e s = pure (.yield (g e s))) :
    (complete (Pending.visit store config .fail ⟨es⟩ s f)).run = .ok s' ↔
      ∃ vs, Walked store config es vs ∧ vs.foldl (fun s e => g e s) s = s' := by
  constructor
  · exact exists_walked_of_complete hf
  · rintro ⟨vs, hvs, rfl⟩
    rw [hvs.complete_visit hf]
    rfl

end Folds

theorem foldl_select {α : Type} (select : NodeEntry → Option α) (found : List α) :
    vs.foldl (fun found e => (select e).elim found (· :: found)) found =
      (vs.filterMap select).reverse ++ found := by
  induction vs generalizing found with
  | nil => rfl
  | cons e vs ih =>
    rw [List.foldl_cons, ih, List.filterMap_cons]
    cases select e with
    | none => rfl
    | some x => simp

namespace Tree

variable {tree : Tree}

theorem gather_none {α : Type} (tree : Tree) (store : Blockstore Id)
    (select : NodeEntry → Option α) (onMissing : OnMissing) (p : Pending) :
    tree.gather store select none onMissing p = (do
      let (found, outcome) ← p.visit store tree.config onMissing [] fun e found =>
        pure (.yield ((select e).elim found (· :: found)))
      return (found.reverse, outcome)) := by
  unfold gather
  rw [if_neg nofun]
  congr
  funext e found
  cases select e <;> rfl

theorem run_gather_eq_ok_iff {α : Type} {select : NodeEntry → Option α} {xs : List α} :
    (complete (tree.gather store select none .fail ⟨es⟩)).run = .ok xs ↔
      ∃ vs, Walked store tree.config es vs ∧ xs = vs.filterMap select := by
  rw [gather_none, complete_map_fst, ← bind_pure_comp]
  constructor
  · intro h
    obtain ⟨found, hfound, h⟩ := exists_of_run_bind_eq_ok h
    obtain ⟨vs, hvs, rfl⟩ := (run_complete_visit_eq_ok_iff fun _ _ => rfl).1 hfound
    cases h
    refine ⟨vs, hvs, ?_⟩
    rw [foldl_select, List.append_nil, List.reverse_reverse]
  · rintro ⟨vs, hvs, rfl⟩
    have hfound :=
      (run_complete_visit_eq_ok_iff (s := []) fun _ _ => rfl).2 ⟨vs, hvs, foldl_select select []⟩
    rw [List.append_nil] at hfound
    rw [bind_pure_comp, ExceptT.run_map]
    refine (congrArg (Except.map List.reverse) hfound).trans ?_
    rw [Except.map, List.reverse_reverse]

theorem run_entries_eq_ok_iff :
    (tree.entries store).run = .ok vs ↔ Walked store tree.config [.tree tree.root] vs := by
  unfold entries walk
  rw [run_gather_eq_ok_iff]
  simp

theorem run_leaves_eq_ok_iff {ls : List Leaf} :
    (tree.leaves store).run = .ok ls ↔
      ∃ vs, Walked store tree.config [.tree tree.root] vs ∧ ls = Entry.leaves vs :=
  run_gather_eq_ok_iff

end Tree

end MerkleSearch
