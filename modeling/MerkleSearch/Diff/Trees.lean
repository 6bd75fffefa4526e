import MerkleSearch.Cursor
import MerkleSearch.Diff
import MerkleSearch.Tree.Walk

/-!
This module contains the comparison of two trees. A cursor goes through each of them; where both are
on subtrees with one address, neither looks inside.
-/

namespace MerkleSearch

namespace Frame

def Follows (f : Frame) (outer : List Frame) (c : Cursor) : Prop :=
  c.pending.Lt (Cursor.mk (f :: outer)).pending

theorem follows_stepOver (f : Frame) (outer : List Frame) :
    f.Follows outer (Cursor.stepOver ⟨f :: outer⟩) := by
  rw [Follows, Cursor.pending_stepOver]
  exact .drop

theorem follows_enter {f : Frame} {outer : List Frame} {t : Subtree} {node : Node} {c : Cursor}
    (hcurrent : f.current = .tree t) (covers : t.Covers node)
    (h : Cursor.enter f outer node = .ok c) :
    f.Follows outer c := by
  rw [Follows, Cursor.pending_enter h]
  simp only [Cursor.pending, hcurrent]
  exact .expand covers

end Frame

namespace Diff

variable {m : Type → Type} [Monad m]

def enter (f : Frame) (outer : List Frame) {t : Subtree} (hcurrent : f.current = .tree t)
    (node : { node : Node // t.Covers node }) : Except Error { c : Cursor // f.Follows outer c } :=
  match h : Cursor.enter f outer node with
  | .ok c => .ok ⟨c, Frame.follows_enter hcurrent node.property h⟩
  | .error error => .error error

variable (store : Blockstore m) (config : Config) (d : Diff)

def passNew (f : Frame) (outer : List Frame) :
    ExceptT Error m (Diff × { c : Cursor // f.Follows outer c }) := do
  match hcurrent : f.current with
  | .leaf l => return (d.addLeaf l, ⟨_, Frame.follows_stepOver f outer⟩)
  | .tree t =>
    let node ← t.resolve store config
    let block ← node.val.block config
    return (d.addNode block, ← enter f outer hcurrent node)

def passGone (f : Frame) (outer : List Frame) :
    ExceptT Error m (Diff × { c : Cursor // f.Follows outer c }) := do
  match hcurrent : f.current with
  | .leaf l => return (d.deleteLeaf l, ⟨_, Frame.follows_stepOver f outer⟩)
  | .tree t =>
    let address ← t.address config
    let node ← t.resolve store config
    return (d.deleteNode address, ← enter f outer hcurrent node)

def compare (store prevStore : Blockstore m) (config prevConfig : Config) (d : Diff)
    (prev curr : List Frame) : ExceptT Error m Diff := do
  match prev, curr with
  | [], [] => return d
  | [], r :: rs =>
    let (d, ⟨curr, _⟩) ← d.passNew store config r rs
    compare store prevStore config prevConfig d [] curr.frames
  | l :: ls, [] =>
    let (d, ⟨prev, _⟩) ← d.passGone prevStore prevConfig l ls
    compare store prevStore config prevConfig d prev.frames []
  | l :: ls, r :: rs =>
    have := Frame.follows_stepOver l ls
    have := Frame.follows_stepOver r rs
    match hl : l.current, hr : r.current with
    -- Of two leaves the lower one comes first, and a subtree comes before the leaf to its right.
    | .leaf old, .leaf new =>
      if old.key = new.key then
        compare store prevStore config prevConfig (d.updateLeaf old.key old.value new.value)
          (Cursor.stepOver ⟨l :: ls⟩).frames (Cursor.stepOver ⟨r :: rs⟩).frames
      else if old.key < new.key then
        compare store prevStore config prevConfig (d.deleteLeaf old)
          (Cursor.stepOver ⟨l :: ls⟩).frames (r :: rs)
      else
        compare store prevStore config prevConfig (d.addLeaf new)
          (l :: ls) (Cursor.stepOver ⟨r :: rs⟩).frames
    | .leaf _, .tree _ =>
      let (d, ⟨curr, _⟩) ← d.passNew store config r rs
      compare store prevStore config prevConfig d (l :: ls) curr.frames
    | .tree _, .leaf _ =>
      let (d, ⟨prev, _⟩) ← d.passGone prevStore prevConfig l ls
      compare store prevStore config prevConfig d prev.frames (r :: rs)
    -- Of two subtrees the higher one is opened, and both if they are on the same layer, unless they
    -- are the same.
    | .tree old, .tree new =>
      if r.layer < l.layer then
        let (d, ⟨prev, _⟩) ← d.passGone prevStore prevConfig l ls
        compare store prevStore config prevConfig d prev.frames (r :: rs)
      else if l.layer < r.layer then
        let (d, ⟨curr, _⟩) ← d.passNew store config r rs
        compare store prevStore config prevConfig d (l :: ls) curr.frames
      else
        let oldAddress ← old.address prevConfig
        let newAddress ← new.address config
        if oldAddress = newAddress then
          compare store prevStore config prevConfig d
            (Cursor.stepOver ⟨l :: ls⟩).frames (Cursor.stepOver ⟨r :: rs⟩).frames
        else
          let newNode ← new.resolve store config
          let block ← newNode.val.block config
          let d := (d.addNode block).deleteNode oldAddress
          let oldNode ← old.resolve prevStore prevConfig
          let ⟨prev, _⟩ ← enter l ls hl oldNode
          let ⟨curr, _⟩ ← enter r rs hr newNode
          compare store prevStore config prevConfig d prev.frames curr.frames
termination_by ((Cursor.mk prev).pending, (Cursor.mk curr).pending)

end Diff

namespace Tree

variable {m : Type → Type} [Monad m]

def contents (tree : Tree) (store : Blockstore m) : ExceptT Error m Diff :=
  complete <| Pending.visit store tree.config .fail ⟨[.tree tree.root]⟩ {} fun e d =>
    return .yield (← d.addEntry store tree.config e)

def diff (curr : Tree) (store : Blockstore m) (prev : Tree) (prevStore : Blockstore m) :
    ExceptT Error m Diff := do
  let currAddress ← curr.address
  let prevAddress ← prev.address
  if currAddress = prevAddress then
    return {}
  else
    let left ← Cursor.start prevStore prev
    let right ← Cursor.start store curr
    Diff.compare store prevStore curr.config prev.config {} left.frames right.frames

end Tree

end MerkleSearch
