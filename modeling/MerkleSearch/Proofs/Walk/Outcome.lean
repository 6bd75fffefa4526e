import MerkleSearch.Proofs.Walk

/-!
This module contains walks that need not get to their end: they may fail, and whoever follows one
may have seen enough before that. Such a walk is a run over a list of visits with an outcome at its
end, and the visits do not depend on who follows it. Nothing is assumed about the tree or the store.
-/

namespace MerkleSearch

def OnMissing.Skips : OnMissing → Error → Prop
  | .skip, .missingBlock _ => True
  | _, _ => False

/--
A walk over the entries `es` that is followed as far as possible visits the entries `vs` and ends
with `outcome`.
-/
inductive Followed (store : Blockstore Id) (config : Config) (onMissing : OnMissing) :
    List NodeEntry → List NodeEntry → Except Error Unit → Prop
  | nil : Followed store config onMissing [] [] (.ok ())
  | leaf {l : Leaf} {es vs : List NodeEntry} {outcome : Except Error Unit}
    (h : Followed store config onMissing es vs outcome) :
    Followed store config onMissing (.leaf l :: es) (.leaf l :: vs) outcome
  | tree {t : Subtree} {es vs : List NodeEntry} {outcome : Except Error Unit}
    {n : { node : Node // t.Covers node }} (hn : (t.resolve store config).run = .ok n)
    (h : Followed store config onMissing (n.val.entries ++ es) vs outcome) :
    Followed store config onMissing (.tree t :: es) (.tree (.resolved n.val) :: vs) outcome
  | skip {t : Subtree} {es vs : List NodeEntry} {outcome : Except Error Unit} {e : Error}
    (he : (t.resolve store config).run = .error e) (hskip : onMissing.Skips e)
    (h : Followed store config onMissing es vs outcome) :
    Followed store config onMissing (.tree t :: es) vs outcome
  | fail {t : Subtree} {es : List NodeEntry} {e : Error}
    (he : (t.resolve store config).run = .error e) (hfail : ¬onMissing.Skips e) :
    Followed store config onMissing (.tree t :: es) [] (.error e)

/--
What a run over some elements comes to, the outcome of which counts only if it has not been broken
off.
-/
def feed {α σ : Type} (f : α → σ → ForInStep σ)
    (outcome : Except Error Unit) : List α → σ → σ × Except Error Unit
  | [], s => (s, outcome)
  | a :: as, s =>
    match f a s with
    | .done s => (s, .ok ())
    | .yield s => feed f outcome as s

section Feed

variable {α β σ : Type} {f : α → σ → ForInStep σ} {g : β → σ → ForInStep σ} {select : β → Option α}
variable {outcome : Except Error Unit}

theorem feed_yield (f : α → σ → σ) (as : List α) (s : σ) :
    feed (fun a s => .yield (f a s)) outcome as s = (as.foldl (fun s a => f a s) s, outcome) := by
  induction as generalizing s with
  | nil => rfl
  | cons a as ih => exact ih _

theorem feed_filterMap (hnone : ∀ b s, select b = none → g b s = .yield s)
    (hsome : ∀ b a s, select b = some a → g b s = f a s) (bs : List β) (s : σ) :
    feed g outcome bs s = feed f outcome (bs.filterMap select) s := by
  induction bs generalizing s with
  | nil => rfl
  | cons b bs ih =>
    cases hselect : select b with
    | none =>
      rw [feed, hnone b s hselect, List.filterMap_cons_none hselect]
      exact ih s
    | some a =>
      rw [feed, hsome b a s hselect, List.filterMap_cons_some hselect, feed]
      cases f a s with
      | done s => rfl
      | yield s => exact ih s

end Feed

variable {store : Blockstore Id} {config : Config} {onMissing : OnMissing} {es vs : List NodeEntry}
variable {outcome : Except Error Unit} {t : Subtree} {σ : Type}

theorem exists_followed (store : Blockstore Id) (config : Config) (onMissing : OnMissing)
    (es : List NodeEntry) :
    ∃ vs outcome, Followed store config onMissing es vs outcome := by
  match es with
  | [] => exact ⟨_, _, .nil⟩
  | .leaf l :: rest =>
    obtain ⟨vs, outcome, h⟩ := exists_followed store config onMissing rest
    exact ⟨_, _, .leaf h⟩
  | .tree t :: rest =>
    cases hn : (t.resolve store config).run with
    | ok n =>
      obtain ⟨vs, outcome, h⟩ := exists_followed store config onMissing (n.val.entries ++ rest)
      exact ⟨_, _, .tree hn h⟩
    | error e =>
      by_cases hskip : onMissing.Skips e
      · obtain ⟨vs, outcome, h⟩ := exists_followed store config onMissing rest
        exact ⟨_, _, .skip hn hskip h⟩
      · exact ⟨_, _, .fail hn hskip⟩
termination_by (⟨es⟩ : Pending)
decreasing_by
  · exact .drop
  · exact .drop
  · exact .expand n.property

theorem Pending.step_skip {e : Error} (he : (t.resolve store config).run = .error e)
    (hskip : onMissing.Skips e) :
    Pending.step store config onMissing (.tree t) es = pure (.ok (none, ⟨⟨es⟩, .drop⟩)) := by
  unfold Pending.step
  dsimp only
  refine (congrArg (· >>= _) he).trans ?_
  cases onMissing with
  | fail => cases e <;> exact hskip.elim
  | skip =>
    cases e with
    | missingBlock => rfl
    | _ => exact hskip.elim

theorem Pending.step_fail {e : Error} (he : (t.resolve store config).run = .error e)
    (hfail : ¬onMissing.Skips e) :
    Pending.step store config onMissing (.tree t) es = pure (.error e) := by
  unfold Pending.step
  dsimp only
  refine (congrArg (· >>= _) he).trans ?_
  cases onMissing with
  | fail => cases e <;> rfl
  | skip =>
    cases e with
    | missingBlock => exact (hfail trivial).elim
    | _ => rfl

theorem Pending.step_resolve {n : { node : Node // t.Covers node }}
    (hn : (t.resolve store config).run = .ok n) :
    Pending.step store config onMissing (.tree t) es =
      pure (.ok (some (.tree (.resolved n.val)), ⟨⟨n.val.entries ++ es⟩, .expand n.property⟩)) := by
  unfold Pending.step
  dsimp only
  exact (congrArg (· >>= _) hn).trans rfl

namespace Followed

theorem visit {f : NodeEntry → σ → ExceptT Error Id (ForInStep σ)} {g : NodeEntry → σ → ForInStep σ}
    (h : Followed store config onMissing es vs outcome) (hf : ∀ e s, f e s = pure (g e s)) (s : σ) :
    Pending.visit store config onMissing ⟨es⟩ s f = feed g outcome vs s := by
  induction h generalizing s with
  | nil =>
    rw [Pending.visit]
    rfl
  | leaf _ ih =>
    rw [Pending.visit, Pending.step, pure_bind]
    dsimp only
    rw [hf, feed]
    cases g _ s with
    | done s => rfl
    | yield s => exact ih s
  | tree hn _ ih =>
    rw [Pending.visit, Pending.step_resolve hn, pure_bind]
    dsimp only
    rw [hf, feed]
    cases g _ s with
    | done s => rfl
    | yield s => exact ih s
  | skip he hskip _ ih =>
    rw [Pending.visit, Pending.step_skip he hskip, pure_bind]
    exact ih s
  | fail he hfail =>
    rw [Pending.visit, Pending.step_fail he hfail]
    rfl

end Followed

namespace Tree

variable {tree : Tree} {key : String}

theorem gather_of_followed {α : Type} (select : NodeEntry → Option α)
    (h : Followed store tree.config onMissing es vs outcome) :
    tree.gather store select none onMissing ⟨es⟩ = (vs.filterMap select, outcome) := by
  rw [gather_none, h.visit (fun _ _ => rfl), feed_yield, foldl_select]
  dsimp only [bind, pure]
  rw [List.append_nil, List.reverse_reverse]

theorem leavesFrom_of_followed (hseek : (tree.root.seek store tree.config key []).run = .ok ⟨es⟩)
    (h : Followed store tree.config .fail es vs outcome) :
    tree.leavesFrom store key = (Entry.leaves vs, outcome) := by
  unfold leavesFrom
  rw [if_neg nofun, hseek]
  exact gather_of_followed Entry.leaf? h

theorem leavesFrom_of_seek_error {e : Error}
    (hseek : (tree.root.seek store tree.config key []).run = .error e) :
    tree.leavesFrom store key = ([], .error e) := by
  unfold leavesFrom
  rw [if_neg nofun, hseek]
  rfl

theorem scan_eq (tree : Tree) (store : Blockstore Id) (key : String)
    (f : Leaf → List Leaf → ForInStep (List Leaf)) :
    tree.scan store key f = (do
      let p ← tree.root.seek store tree.config key []
      let found ← complete <| p.visit store tree.config .fail [] fun e found =>
        pure (e.leaf?.elim (.yield found) (f · found))
      return found.reverse) := by
  unfold scan
  congr
  funext p
  congr
  funext e found
  cases e <;> rfl

theorem run_scan (tree : Tree) (store : Blockstore Id) (key : String)
    (f : Leaf → List Leaf → ForInStep (List Leaf)) :
    (tree.scan store key f).run =
      (walkOutcome (feed f (tree.leavesFrom store key).2 (tree.leavesFrom store key).1 [])).map
      List.reverse := by
  rw [scan_eq]
  cases hseek : (tree.root.seek store tree.config key []).run with
  | error e =>
    rw [leavesFrom_of_seek_error hseek]
    rw [show tree.root.seek store tree.config key [] = throw e from hseek]
    rfl
  | ok p =>
    obtain ⟨es⟩ := p
    obtain ⟨vs, outcome, h⟩ := exists_followed store tree.config .fail es
    have hleaves : feed (fun e found => e.leaf?.elim (.yield found) (f · found)) outcome vs [] =
        feed f outcome (Entry.leaves vs) [] := by
      apply feed_filterMap
      · intro e found he
        rw [he, Option.elim]
      · intro e l found he
        rw [he, Option.elim]
    rw [leavesFrom_of_followed hseek h, ← hleaves]
    rw [show tree.root.seek store tree.config key [] = pure ⟨es⟩ from hseek, pure_bind]
    rw [h.visit fun _ _ => rfl, bind_pure_comp, ExceptT.run_map, run_complete]
    rfl

end Tree

end MerkleSearch
