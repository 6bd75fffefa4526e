import MerkleSearch.Tree

/-!
This module contains walks over the entries of a tree: each subtree is visited before its entries,
and leaves in the order of their keys. A walk fetches a subtree when it comes to it and not before,
so how far a walk is followed decides what is read.
-/

namespace MerkleSearch

variable {m : Type → Type} [Monad m]

inductive OnMissing where
  | fail
  | skip
deriving DecidableEq

namespace Pending

variable (store : Blockstore m) (config : Config) (onMissing : OnMissing)

def step (e : NodeEntry) (rest : List NodeEntry) :
    m (Except Error (Option NodeEntry × { p : Pending // p.Lt ⟨e :: rest⟩ })) :=
  match e with
  | .leaf l => return .ok (some (.leaf l), ⟨⟨rest⟩, .drop⟩)
  | .tree t => do
    match ← (t.resolve store config).run, onMissing with
    | .ok ⟨node, covers⟩, _ =>
      return .ok (some (.tree (.resolved node)), ⟨⟨node.entries ++ rest⟩, .expand covers⟩)
    | .error (.missingBlock _), .skip => return .ok (none, ⟨⟨rest⟩, .drop⟩)
    | .error error, _ => return .error error

/--
Visits entries until `f` has seen enough, there are none left, or something fails. What has been
gathered until then is returned even if the walk failed.
-/
def visit {σ : Type} (p : Pending) (s : σ) (f : NodeEntry → σ → ExceptT Error m (ForInStep σ)) :
    m (σ × Except Error Unit) := do
  match p with
  | ⟨[]⟩ => return (s, .ok ())
  | ⟨e :: rest⟩ =>
    match ← step store config onMissing e rest with
    | .error error => return (s, .error error)
    | .ok (none, ⟨p, _⟩) => visit p s f
    | .ok (some visited, ⟨p, _⟩) =>
      match ← (f visited s).run with
      | .error error => return (s, .error error)
      | .ok (.done s) => return (s, .ok ())
      | .ok (.yield s) => visit p s f
termination_by p

end Pending

def complete {σ : Type} (walk : m (σ × Except Error Unit)) : ExceptT Error m σ := do
  match ← walk with
  | (s, .ok ()) => return s
  | (_, .error error) => throw error

namespace Subtree

variable (store : Blockstore m) (config : Config)

def seek (key : String) (t : Subtree) (rest : List NodeEntry) : ExceptT Error m Pending := do
  let ⟨node, covers⟩ ← t.resolve store config
  let gap := node.gap key
  match hsubtree : gap.subtree with
  | some below =>
    have := covers below (NodeOf.tree_mem_of_gap hsubtree)
    below.seek key (gap.after ++ rest)
  | none => return ⟨gap.after ++ rest⟩
termination_by t

end Subtree

namespace Tree

variable (tree : Tree) (store : Blockstore m)

def gather {α : Type} (select : NodeEntry → Option α) (limit : Option Nat) (onMissing : OnMissing)
    (p : Pending) : m (List α × Except Error Unit) := do
  if limit = some 0 then
    return ([], .ok ())
  else
    let (found, outcome) ← p.visit store tree.config onMissing [] fun e found =>
      match select e with
      | none => return .yield found
      | some x =>
        let found := x :: found
        return if limit = some found.length then .done found else .yield found
    return (found.reverse, outcome)

def walk (limit : Option Nat := none) (onMissing : OnMissing := .fail) :
    m (List NodeEntry × Except Error Unit) :=
  tree.gather store some limit onMissing ⟨[.tree tree.root]⟩

def entries : ExceptT Error m (List NodeEntry) := complete (tree.walk store)

def leaves : ExceptT Error m (List Leaf) :=
  complete (tree.gather store Entry.leaf? none .fail ⟨[.tree tree.root]⟩)

def reachableLeaves : ExceptT Error m (List Leaf) :=
  complete (tree.gather store Entry.leaf? none .skip ⟨[.tree tree.root]⟩)

def cids : ExceptT Error m CidSet :=
  complete <| Pending.visit store tree.config .fail ⟨[.tree tree.root]⟩ ∅ fun e cids => do
    match e with
    | .tree t => return .yield (cids.insert (← t.address tree.config))
    | .leaf l => return .yield (cids.insert l.value)

def leavesFrom (key : String) (limit : Option Nat := none) : m (List Leaf × Except Error Unit) := do
  if limit = some 0 then
    return ([], .ok ())
  else
    match ← (tree.root.seek store tree.config key []).run with
    | .ok p => tree.gather store Entry.leaf? limit .fail p
    | .error error => return ([], .error error)

def scan (key : String)
    (f : Leaf → List Leaf → ForInStep (List Leaf)) : ExceptT Error m (List Leaf) := do
  let p ← tree.root.seek store tree.config key []
  let found ← complete <| p.visit store tree.config .fail [] fun e found =>
    match e with
    | .tree _ => return .yield found
    | .leaf l => return f l found
  return found.reverse

def list (count : Option Nat := none) (after before : Option String := none) :
    ExceptT Error m (List Leaf) :=
  let after := after.getD ""
  tree.scan store after fun l found =>
    if l.key = after then .yield found
    else if count = some found.length then .done found
    else if before.any (· ≤ l.key) then .done found
    else .yield (l :: found)

def listWithPrefix (start : String) (count : Option Nat := none) : ExceptT Error m (List Leaf) :=
  tree.scan store start fun l found =>
    if count = some found.length ||
      !start.isPrefixOf l.key then .done found else .yield (l :: found)

end Tree

end MerkleSearch
