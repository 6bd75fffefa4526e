import MerkleSearch.Proofs.Tour
import MerkleSearch.Proofs.Walk.Lost

/-!
This module contains walks in which some moves fail. A move that fails leaves the cursor at its
place, and no more than the subtree there may have been fetched; the main statement is
`Cursor.failures_leave_no_trace`, that the walk goes on as if nobody had tried. Nothing has to be
known of the tree, and every move may find the store in another state.
-/

namespace MerkleSearch

def Coupling.inclusion : Coupling Id Id where
  rel x y := ∀ a, x.run = .ok a → y.run = .ok a
  pure := fun _ _ h => h
  throw := fun _ _ h => h
  bind := by
    intro α β x y f g h hf b hb
    obtain ⟨a, hx, hb⟩ := exists_of_run_bind_eq_ok hb
    rw [show y = Pure.pure a from h a hx, pure_bind]
    exact hf a b hb

namespace Blockstore

/--
Whatever the store has under its own address, the other one has as well.
-/
def Within (config : Config) (store whole : Blockstore Id) : Prop :=
  ∀ address bytes, (store.get? address).run = .ok (some bytes) →
    config.codec.address bytes = .ok address → (whole.get? address).run = .ok (some bytes)

variable {config : Config} {store whole : Blockstore Id}

theorem Within.resolve (h : store.Within config whole) {t : Subtree}
    {n : { node : Node // t.Covers node }} (hn : (t.resolve store config).run = .ok n) :
    (t.resolve whole config).run = .ok n := by
  match t with
  | .resolved node =>
    rw [Subtree.resolve] at hn ⊢
    exact hn
  | .unresolved address hint =>
    obtain ⟨hhint, bytes, record, hget, haddress, hdecode, hnode⟩ := Subtree.resolve_unresolved hn
    obtain ⟨_, hwhole⟩ :=
      Subtree.exists_resolve_unresolved hhint (h address bytes hget haddress) haddress hdecode hnode
    exact hwhole

theorem Within.fetches (h : store.Within config whole) :
    Coupling.inclusion.Fetches store whole config :=
  fun _ _ => h.resolve

end Blockstore

def Subtree.node? : Subtree → Option Node
  | .resolved node => some node
  | .unresolved _ _ => none

abbrev SameEntry (config : Config) : NodeEntry → NodeEntry → Prop :=
  Entry.Rel fun t t' => t.address config = t'.address config

namespace SameEntry

variable {config : Config} {a b c : NodeEntry}

theorem refl (config : Config) (e : NodeEntry) : SameEntry config e e := by
  cases e with
  | leaf l => exact .leaf l
  | tree t => exact .tree rfl

theorem trans (h : SameEntry config a b) (h' : SameEntry config b c) : SameEntry config a c := by
  cases h with
  | leaf l => exact h'
  | tree heq =>
    cases h' with
    | tree heq' => exact .tree (heq.trans heq')

theorem of_resolve {store : Blockstore Id} {t : Subtree} {n : { node : Node // t.Covers node }}
    (hn : (t.resolve store config).run = .ok n) :
    SameEntry config (.tree t) (.tree (.resolved n.val)) :=
  .tree (Subtree.address_of_resolve hn).symm

end SameEntry

namespace Cursor

inductive Move where
  | advance
  | stepInto
  | stepOver
deriving DecidableEq

/--
A move that somebody tries, and the store as it is at that time.
-/
structure Attempt where
  store : Blockstore Id
  move : Move

def perform (store : Blockstore Id) (config : Config)
    (c : Cursor) : Move → Except Error Unit × Cursor
  | .advance => c.advance store config
  | .stepInto => c.stepInto store config
  | .stepOver => (.ok (), c.stepOver)

def run (store : Blockstore Id) (config : Config) (c : Cursor) :
    List Move → List (Except Error Unit × Cursor)
  | [] => []
  | move :: moves =>
    c.perform store config move :: run store config (c.perform store config move).2 moves

/--
The moves that succeeded, each with where it led, and where the cursor was in the end.
-/
structure Trip where
  passed : List (Attempt × Cursor)
  last : Cursor

def tryAll (config : Config) (c : Cursor) : List Attempt → Trip
  | [] => ⟨[], c⟩
  | a :: attempts =>
    match c.perform a.store config a.move with
    | (.ok (), next) =>
      { tryAll config next attempts with passed := (a, next) ::
        (tryAll config next attempts).passed }
    | (.error _, kept) => tryAll config kept attempts

inductive Performs (store : Blockstore Id) (config : Config) :
    Cursor → Move → Except Error Unit → Cursor → Prop
  | done (move : Move) : Performs store config ⟨[]⟩ move (.ok ()) ⟨[]⟩
  | skip (c : Cursor) : Performs store config c .stepOver (.ok ()) c.stepOver
  | pass {f : Frame} {outer : List Frame} {l : Leaf} (hcurrent : f.current = .leaf l) :
    Performs store config ⟨f :: outer⟩ .advance (.ok ()) (stepOver ⟨f :: outer⟩)
  | onLeaf {f : Frame} {outer : List Frame} {l : Leaf} (hcurrent : f.current = .leaf l) :
    Performs store config ⟨f :: outer⟩ .stepInto (.error (.invalidWalk .onLeaf)) ⟨f :: outer⟩
  | unread {f : Frame} {outer : List Frame} {move : Move} {t : Subtree} {e : Error}
    (hmove : move ≠ .stepOver) (hcurrent : f.current = .tree t)
    (he : (t.resolve store config).run = .error e) :
    Performs store config ⟨f :: outer⟩ move (.error e) ⟨f :: outer⟩
  | refused {f : Frame} {outer : List Frame} {move : Move} {t : Subtree}
    {n : { node : Node // t.Covers node }} {e : Error} (hmove : move ≠ .stepOver)
    (hcurrent : f.current = .tree t) (hn : (t.resolve store config).run = .ok n)
    (he : enter { f with current := .tree (.resolved n.val) } outer n.val = .error e) :
    Performs store config ⟨f :: outer⟩ move (.error e)
      ⟨{ f with current := .tree (.resolved n.val) } :: outer⟩
  | entered {f : Frame} {outer : List Frame} {move : Move} {t : Subtree}
    {n : { node : Node // t.Covers node }} {next : Cursor} (hmove : move ≠ .stepOver)
    (hcurrent : f.current = .tree t) (hn : (t.resolve store config).run = .ok n)
    (hnext : enter { f with current := .tree (.resolved n.val) } outer n.val = .ok next) :
    Performs store config ⟨f :: outer⟩ move (.ok ()) next

/--
The node that was entered last, which the entry is in. There is none around the root.
-/
def walking? (c : Cursor) : Option Node := c.frames[1]? >>= (·.current.tree?) >>= Subtree.node?

/--
The place is the same: the way there, what comes behind the entry, the index and the layer. The
entry is the same leaf, or a subtree with the same address.
-/
inductive Stays (config : Config) : Cursor → Cursor → Prop
  | done : Stays config ⟨[]⟩ ⟨[]⟩
  | at {f f' : Frame} (outer : List Frame) (rest : f'.rest = f.rest) (index : f'.index = f.index)
    (layer : f'.layer = f.layer) (current : SameEntry config f.current f'.current) :
    Stays config ⟨f :: outer⟩ ⟨f' :: outer⟩

/--
At every node on the way, the entry that was taken and those behind it are what the node has from
the index on, but the entry may have been fetched since. The layers go down one by one.
-/
inductive Lies (config : Config) : List Frame → Prop
  | done : Lies config []
  | root {f : Frame} (hrest : f.rest = []) : Lies config [f]
  | inside {f g : Frame} {outer : List Frame} {node : Node} {e : NodeEntry}
    (hnode : g.current = .tree (.resolved node))
    (hentries : node.entries.drop f.index = e :: f.rest) (hcurrent : SameEntry config e f.current)
    (hlayer : g.layer = f.layer + 1) (h : Lies config (g :: outer)) : Lies config (f :: g :: outer)

/--
Where a move leaves the cursor that fails with the store. The subtree that cannot be entered may
have been fetched.
-/
inductive Keeps (store : Blockstore Id) (config : Config) : Cursor → Cursor → Prop
  | same (c : Cursor) : Keeps store config c c
  | fetched {f : Frame} {outer : List Frame} {t : Subtree} {n : { node : Node // t.Covers node }}
    {e : Error} (hcurrent : f.current = .tree t) (hn : (t.resolve store config).run = .ok n)
    (he : enter { f with current := .tree (.resolved n.val) } outer n.val = .error e) :
    Keeps store config ⟨f :: outer⟩ ⟨{ f with current := .tree (.resolved n.val) } :: outer⟩

section

variable {config : Config} {store store' whole : Blockstore Id} {tree : Tree} {f : Frame}
variable {outer frames : List Frame} {t : Subtree} {n : { node : Node // t.Covers node }}
variable {node : Node} {move : Move} {c kept kept' next : Cursor} {e : Error} {entry : NodeEntry}
variable {result : Except Error Unit} {a : Attempt} {attempts : List Attempt}

theorem not_isDone : ¬(⟨f :: outer⟩ : Cursor).isDone = true := Bool.false_ne_true

theorem perform_tree (hmove : move ≠ .stepOver) (hcurrent : f.current = .tree t) :
    perform store config ⟨f :: outer⟩ move = (⟨f :: outer⟩ : Cursor).stepInto store config := by
  cases move with
  | advance =>
    unfold perform advance current?
    dsimp only [List.head?_cons, Option.map_some]
    rw [hcurrent]
  | stepInto => rfl
  | stepOver => exact (hmove rfl).elim

namespace Performs

theorem eq (h : Performs store config c move result next) :
    c.perform store config move = (result, next) := by
  cases h with
  | done => cases move <;> rfl
  | skip => rfl
  | pass hcurrent => exact advance_leaf hcurrent
  | onLeaf hcurrent =>
    rw [perform, stepInto, if_neg not_isDone, resolveCurrent]
    dsimp only
    rw [hcurrent]
    rfl
  | unread hmove hcurrent he =>
    rw [perform_tree hmove hcurrent, stepInto, if_neg not_isDone, resolveCurrent_error hcurrent he,
      pure_bind]
    rfl
  | refused hmove hcurrent hn he =>
    rw [perform_tree hmove hcurrent, stepInto, if_neg not_isDone, resolveCurrent_ok hcurrent hn,
      pure_bind]
    dsimp only
    rw [he]
    rfl
  | entered hmove hcurrent hn hnext =>
    rw [perform_tree hmove hcurrent, stepInto, if_neg not_isDone, resolveCurrent_ok hcurrent hn,
      pure_bind]
    dsimp only
    rw [hnext]
    rfl

theorem exists_of (store : Blockstore Id) (config : Config) (c : Cursor) (move : Move) :
    ∃ result next, Performs store config c move result next := by
  obtain ⟨_ | ⟨f, outer⟩⟩ := c
  · exact ⟨_, _, .done move⟩
  · by_cases hmove : move = .stepOver
    · rw [hmove]
      exact ⟨_, _, .skip _⟩
    · cases hcurrent : f.current with
      | leaf l =>
        cases move with
        | advance => exact ⟨_, _, .pass hcurrent⟩
        | stepInto => exact ⟨_, _, .onLeaf hcurrent⟩
        | stepOver => exact (hmove rfl).elim
      | tree t =>
        cases hn : (t.resolve store config).run with
        | error e => exact ⟨_, _, .unread hmove hcurrent hn⟩
        | ok n =>
          cases hnext : enter { f with current := .tree (.resolved n.val) } outer n.val with
          | error e => exact ⟨_, _, .refused hmove hcurrent hn hnext⟩
          | ok next => exact ⟨_, _, .entered hmove hcurrent hn hnext⟩

theorem within (h : Performs store config c move (.ok ()) next)
    (hstore : store.Within config whole) :
    Performs whole config c move (.ok ()) next := by
  cases h with
  | done => exact .done move
  | skip => exact .skip c
  | pass hcurrent => exact .pass hcurrent
  | entered hmove hcurrent hn hnext => exact .entered hmove hcurrent (hstore.resolve hn) hnext

end Performs

theorem perform_eq_iff :
    c.perform store config move = (result, next) ↔ Performs store config c move result next := by
  constructor
  · intro h
    obtain ⟨result', next', hperforms⟩ := Performs.exists_of store config c move
    cases h.symm.trans hperforms.eq
    exact hperforms
  · exact Performs.eq

theorem perform_fetched
    (he : enter { f with current := .tree (.resolved node) } outer node = .error e)
    (hmove : move ≠ .stepOver) :
    perform store config ⟨{ f with current := .tree (.resolved node) } :: outer⟩ move =
      (.error e, ⟨{ f with current := .tree (.resolved node) } :: outer⟩) :=
  Performs.eq (.refused (n := ⟨node, Subtree.covers_resolved node⟩) hmove rfl rfl he)

theorem Stays.walking?_eq (h : c.Stays config kept) : kept.walking? = c.walking? := by
  cases h <;> rfl

namespace Keeps

theorem of_error (h : Performs store config c move (.error e) kept) :
    Keeps store config c kept := by
  cases h with
  | onLeaf => exact .same _
  | unread => exact .same _
  | refused _ hcurrent hn he => exact .fetched hcurrent hn he

theorem stays (h : Keeps store config c kept) : c.Stays config kept := by
  cases h with
  | same =>
    obtain ⟨_ | ⟨f, outer⟩⟩ := c
    · exact .done
    · exact .at outer rfl rfl rfl (SameEntry.refl config f.current)
  | @fetched f outer t n e hcurrent hn he =>
    refine .at outer rfl rfl rfl ?_
    rw [hcurrent]
    exact .of_resolve hn

theorem eq_of_not_fetched (h : Keeps store config c kept)
    (hfetched : ∀ t n, c.current? = some (.tree t) → (t.resolve store config).run ≠ .ok n) :
    kept = c := by
  cases h with
  | same => rfl
  | fetched hcurrent hn he => exact (hfetched _ _ (congrArg some hcurrent) hn).elim

theorem within (h : Keeps store config c kept) (hstore : store.Within config whole) :
    Keeps whole config c kept := by
  cases h with
  | same => exact .same c
  | fetched hcurrent hn he => exact .fetched hcurrent (hstore.resolve hn) he

theorem perform_eq (h : Keeps store config c kept) (move : Move) :
    c.perform store config move = kept.perform store config move := by
  cases h with
  | same => rfl
  | fetched hcurrent hn he =>
    by_cases hmove : move = .stepOver
    · rw [hmove]
      rfl
    · rw [(Performs.refused hmove hcurrent hn he).eq, perform_fetched he hmove]

theorem perform_ok (h : Keeps store config c kept)
    (hnext : kept.perform store' config move = (.ok (), next)) :
    c.perform store' config move = (.ok (), next) := by
  cases h with
  | same => exact hnext
  | fetched hcurrent hn he =>
    by_cases hmove : move = .stepOver
    · rw [hmove] at hnext ⊢
      exact hnext
    · rw [perform_fetched he hmove] at hnext
      cases hnext

theorem error (h : Keeps store config c kept)
    (he : kept.perform store' config move = (.error e, kept')) :
    Keeps store config c kept' ∨ Keeps store' config c kept' := by
  cases h with
  | same => exact .inr (.of_error (perform_eq_iff.1 he))
  | fetched hcurrent hn hentered =>
    have hmove : move ≠ .stepOver := by
      rintro rfl
      cases he
    rw [perform_fetched hentered hmove] at he
    cases he
    exact .inl (.fetched hcurrent hn hentered)

end Keeps

theorem tryAll_of_ok (h : c.perform a.store config a.move = (.ok (), next)) :
    c.tryAll config (a :: attempts) =
      ⟨(a, next) :: (next.tryAll config attempts).passed, (next.tryAll config attempts).last⟩ := by
  rw [tryAll, h]

theorem tryAll_of_error (h : c.perform a.store config a.move = (.error e, kept)) :
    c.tryAll config (a :: attempts) = kept.tryAll config attempts := by
  rw [tryAll, h]

namespace Lies

theorem replace (h : Lies config (f :: outer)) (hentry : SameEntry config f.current entry) :
    Lies config ({ f with current := entry } :: outer) := by
  cases h with
  | root hrest => exact .root hrest
  | inside hnode hentries hcurrent hlayer h =>
    exact .inside hnode hentries (hcurrent.trans hentry) hlayer h

theorem go (h : Lies config frames) : Lies config (stepOver.go frames) := by
  induction h with
  | done => exact .done
  | @root f hrest =>
    unfold stepOver.go
    rw [hrest]
    exact .done
  | @inside f g outer node e hnode hentries hcurrent hlayer h ih =>
    unfold stepOver.go
    split
    · next entry rest hrest =>
      refine .inside hnode ?_ (SameEntry.refl config entry) hlayer h
      rw [← List.tail_drop, hentries, List.tail_cons, hrest]
    · exact ih

theorem enter (h : Lies config (f :: outer)) (hcurrent : f.current = .tree (.resolved node))
    (hnext : Cursor.enter f outer node = .ok next) : Lies config next.frames := by
  obtain ⟨hlayer, -, rfl⟩ := enter_eq_ok_iff.1 hnext
  cases hentries : node.entries with
  | nil => exact h.go
  | cons current rest =>
    refine .inside hcurrent hentries (SameEntry.refl config current) ?_ h
    exact (Nat.succ_pred_eq_of_ne_zero hlayer).symm

theorem perform (h : Lies config c.frames) (hperforms : Performs store config c move result next) :
    Lies config next.frames := by
  cases hperforms with
  | done => exact h
  | skip => exact h.go
  | pass => exact h.go
  | onLeaf => exact h
  | unread => exact h
  | refused _ hcurrent hn =>
    apply h.replace
    rw [hcurrent]
    exact .of_resolve hn
  | entered _ hcurrent hn hnext =>
    refine (h.replace ?_).enter rfl hnext
    rw [hcurrent]
    exact .of_resolve hn

theorem tryAll (h : Lies config c.frames) (attempts : List Attempt) :
    Lies config (c.tryAll config attempts).last.frames := by
  induction attempts generalizing c with
  | nil => exact h
  | cons a attempts ih =>
    obtain ⟨result, next, hperforms⟩ := Performs.exists_of a.store config c a.move
    have hnext := h.perform hperforms
    cases result with
    | ok =>
      rw [tryAll_of_ok hperforms.eq]
      exact ih hnext
    | error e =>
      rw [tryAll_of_error hperforms.eq]
      exact ih hnext

end Lies

theorem Keeps.tryAll_passed (h : Keeps store config c kept) (attempts : List Attempt) :
    (c.tryAll config ((kept.tryAll config attempts).passed.map Prod.fst)).passed =
      (kept.tryAll config attempts).passed ∧
      ∃ store',
        Keeps store' config
        (c.tryAll config ((kept.tryAll config attempts).passed.map Prod.fst)).last
        (kept.tryAll config attempts).last := by
  induction attempts generalizing store c kept with
  | nil => exact ⟨rfl, store, h⟩
  | cons a attempts ih =>
    match hmove : kept.perform a.store config a.move with
    | (.ok (), next) =>
      have hsame : Keeps store config next next := .same next
      obtain ⟨hpassed, hlast⟩ := ih hsame
      rw [tryAll_of_ok hmove, List.map_cons, tryAll_of_ok (h.perform_ok hmove)]
      exact ⟨congrArg ((a, next) :: ·) hpassed, hlast⟩
    | (.error e, kept') =>
      rw [tryAll_of_error hmove]
      rcases h.error hmove with h | h
      · exact ih h
      · exact ih h

theorem Keeps.run_append (h : Keeps whole config c kept)
    (hattempts : ∀ a ∈ attempts, a.store.Within config whole) (further : List Move) :
    c.run whole config ((kept.tryAll config attempts).passed.map (·.1.move) ++ further) =
      (kept.tryAll config attempts).passed.map (fun p => (.ok (), p.2)) ++
      (kept.tryAll config attempts).last.run whole config further := by
  induction attempts generalizing c kept with
  | nil =>
    cases further with
    | nil => rfl
    | cons move moves =>
      show c.run whole config (move :: moves) = kept.run whole config (move :: moves)
      rw [run, run, h.perform_eq move]
  | cons a attempts ih =>
    rw [List.forall_mem_cons] at hattempts
    match hmove : kept.perform a.store config a.move with
    | (.ok (), next) =>
      have hwhole := ((perform_eq_iff.1 (h.perform_ok hmove)).within hattempts.1).eq
      rw [tryAll_of_ok hmove, List.map_cons, List.map_cons, List.cons_append, List.cons_append, run,
        hwhole]
      rw [ih (.same next) hattempts.2]
    | (.error e, kept') =>
      rw [tryAll_of_error hmove]
      rcases h.error hmove with h | h
      · exact ih h hattempts.2
      · exact ih (h.within hattempts.1) hattempts.2

theorem lies_of_start (hstart : (start store tree).run = .ok c) : Lies config c.frames := by
  obtain ⟨n, layer, -, -, rfl⟩ := Tree.start_eq_ok_iff.1 hstart
  exact .root rfl

theorem start_within (h : store.Within tree.config whole)
    (hstart : (start store tree).run = .ok c) :
    (start whole tree).run = .ok c := by
  have hfetches : Coupling.inclusion.Fetches store whole tree.config := h.fetches
  have hrel : Coupling.inclusion.rel (start store tree) (start whole tree) := by
    apply Coupling.inclusion.bind (hfetches tree.root)
    rintro ⟨node, covers⟩
    exact Coupling.inclusion.bind (hfetches.layerOf node covers) fun _ => Coupling.inclusion.pure _
  exact hrel c hstart

end

/--
A move that fails leaves the cursor at its place in the same node, and just as it was unless the
subtree there could be fetched. Whatever is tried after it, and with whichever stores, the moves
that succeed lead to the same places as if only these had been made, and all of them are places of
the tree. If one store has all that was ever found with the others, those are the places of a walk
with that store, and from there on the walk goes the same way.
-/
theorem failures_leave_no_trace (config : Config) :
    (∀ (store : Blockstore Id) (move : Move) (c kept : Cursor) (e : Error),
      c.perform store config move = (.error e, kept) →
        c.Stays config kept ∧ kept.walking? = c.walking? ∧
        ((∀ t n, c.current? = some (.tree t) → (t.resolve store config).run ≠ .ok n) → kept = c)) ∧
    (∀ (c : Cursor) (attempts : List Attempt),
      let trip := c.tryAll config attempts
      let undisturbed := c.tryAll config (trip.passed.map Prod.fst)
      undisturbed.passed = trip.passed ∧ undisturbed.last.Stays config trip.last) ∧
    ∀ (store : Blockstore Id) (tree : Tree) (c : Cursor) (attempts : List Attempt),
      tree.config = config →
      (start store tree).run = .ok c →
        let trip := c.tryAll config attempts
        Lies config trip.last.frames ∧
        ∀ whole : Blockstore Id, store.Within config whole →
          (∀ a ∈ attempts, a.store.Within config whole) →
          (start whole tree).run = .ok c ∧ ∀ further : List Move,
            c.run whole config (trip.passed.map (·.1.move) ++ further) =
              trip.passed.map (fun p => (.ok (), p.2)) ++ trip.last.run whole config further := by
  refine ⟨?_, ?_, ?_⟩
  · intro store move c kept e h
    have hkept := Keeps.of_error (perform_eq_iff.1 h)
    exact ⟨hkept.stays, hkept.stays.walking?_eq, hkept.eq_of_not_fetched⟩
  · intro c attempts
    have hsame : Keeps Blockstore.empty config c c := .same c
    obtain ⟨hpassed, store, hlast⟩ := hsame.tryAll_passed attempts
    exact ⟨hpassed, hlast.stays⟩
  · rintro store tree c attempts rfl hstart
    refine ⟨(lies_of_start hstart).tryAll attempts, fun whole hstore hattempts => ?_⟩
    exact ⟨start_within hstore hstart, fun further => (Keeps.same c).run_append hattempts further⟩

end Cursor

theorem Blockstore.RemainsOf.within {config : Config} {store whole : Blockstore Id}
    (h : store.RemainsOf whole) :
    store.Within config whole := by
  intro address bytes hget _
  rcases h address with hlacks | heq
  · cases hget.symm.trans (lacks_iff.1 hlacks)
  · rw [← heq, hget]

namespace Sample

def refusing : Blockstore Id :=
  { Blockstore.empty with get? := fun _ => throw "connection refused" }

/--
The lower block is lost at first, and then the store is down. Later on it is back.
-/
def attempts : List Cursor.Attempt := [
  ⟨.snapshot upperShelf, .advance⟩,
  ⟨.snapshot upperShelf, .advance⟩,
  ⟨refusing, .stepInto⟩,
  ⟨.snapshot shelf, .stepInto⟩,
  ⟨.snapshot shelf, .stepInto⟩,
  ⟨refusing, .advance⟩]

def atRoot : Cursor := ⟨[Tree.rootFrame storedHighNode 1]⟩

theorem start_upperShelf :
    (Cursor.start (.snapshot upperShelf) (.load (pointer 2) config)).run = .ok atRoot := by
  cbv

theorem within_shelf : ∀ a ∈ attempts, a.store.Within config (.snapshot shelf) := by
  have hupper : (Blockstore.snapshot upperShelf).Within config (.snapshot shelf) :=
    remains_upperShelf.within
  have hrefusing : refusing.Within config (.snapshot shelf) := nofun
  have hshelf : (Blockstore.snapshot shelf).Within config (.snapshot shelf) :=
    fun _ _ hget _ => hget
  simp [attempts, hupper, hrefusing, hshelf]

def atTree (t : Subtree) : Cursor :=
  ⟨{ current := .tree t, rest := [.leaf high], index := 0, layer := 1 } :: atRoot.frames⟩

theorem perform_atTree :
    (atTree (.unresolved (pointer 0) (.layer 0))).perform
      (.snapshot (({} : BlockMap).insert (pointer 0) [])) config .stepInto =
      (.error (.malformedNode .emptySubtree),
        atTree (.resolved ⟨[], some 0, some (pointer 0), none⟩)) := by
  cbv

end Sample

theorem Cursor.failures_leave_no_trace_of_lost_block :
    let trip := Sample.atRoot.tryAll Sample.config Sample.attempts
    (Sample.atTree (.unresolved (Sample.pointer 0) (.layer 0))).Stays Sample.config
      (Sample.atTree (.resolved ⟨[], some 0, some (Sample.pointer 0), none⟩)) ∧
    (start (.snapshot Sample.shelf) (.load (Sample.pointer 2) Sample.config)).run =
      .ok Sample.atRoot ∧
    trip.passed.map (·.2.current?) =
      [some (.tree (.unresolved (Sample.pointer 1) (.layer 0))), some (.leaf Sample.low),
        some (.leaf Sample.high)] ∧
    trip.last.walking? = some Sample.storedHighNode ∧
    Sample.atRoot.run (.snapshot Sample.shelf) Sample.config
      [.advance, .stepInto, .advance, .advance] =
      trip.passed.map (fun p => (.ok (), p.2)) ++ [(.ok (), ⟨[]⟩)] := by
  intro trip
  obtain ⟨hstays, -, hresumes⟩ := failures_leave_no_trace Sample.config
  obtain ⟨-, hwhole⟩ := hresumes _ _ Sample.atRoot Sample.attempts rfl Sample.start_upperShelf
  obtain ⟨hstart, hrun⟩ :=
    hwhole (.snapshot Sample.shelf) Sample.remains_upperShelf.within Sample.within_shelf
  refine ⟨(hstays _ _ _ _ _ Sample.perform_atTree).1, hstart, by cbv, by cbv, ?_⟩
  exact hrun [.advance]

end MerkleSearch
