import MerkleSearch.Tree

/-!
This module contains cursors, which go through the entries of a tree one move at a time and may pass
over a subtree without fetching it. A cursor is the way from the root down to its entry: for each
node on that way the entry that was taken and those after it. A move that fails leaves the cursor
where it was.
-/

namespace MerkleSearch

/--
A place in a node. `layer` is the layer of that node; the root has a frame to itself, one layer
above.
-/
structure Frame where
  current : NodeEntry
  rest : List NodeEntry
  index : Nat
  layer : Nat

/--
The innermost frame comes first. A cursor without frames is done.
-/
structure Cursor where
  frames : List Frame

namespace Cursor

def isDone (c : Cursor) : Bool := c.frames.isEmpty

def current? (c : Cursor) : Option NodeEntry := c.frames.head?.map (·.current)

def atRoot (c : Cursor) : Bool := c.frames.length == 1

def depth (c : Cursor) : Nat := c.frames.length - 2

def layer (c : Cursor) : Except Error Nat :=
  match c.frames with
  | [] => throw (.invalidWalk .done)
  | f :: _ => return f.layer

def pending (c : Cursor) : Pending :=
  match c.frames with
  | [] => ⟨[]⟩
  | f :: outer => ⟨f.current :: (f.rest ++ outer.flatMap (·.rest))⟩

def stepOver (c : Cursor) : Cursor := ⟨go c.frames⟩
where
  go : List Frame → List Frame
    | [] => []
    | f :: outer =>
      match f.rest with
      | e :: rest => { f with current := e, rest, index := f.index + 1 } :: outer
      | [] => go outer

theorem pending_stepOver (f : Frame) (outer : List Frame) :
    (stepOver ⟨f :: outer⟩).pending = ⟨f.rest ++ outer.flatMap (·.rest)⟩ := by
  induction outer generalizing f with
  | nil => cases h : f.rest <;> simp [stepOver, stepOver.go, pending, h]
  | cons g outer ih =>
    cases h : f.rest with
    | cons e rest => simp [stepOver, stepOver.go, pending, h]
    | nil => simpa [stepOver, stepOver.go, h] using ih g

def enter (f : Frame) (outer : List Frame) (node : Node) : Except Error Cursor := do
  if f.layer = 0 then
    throw (.malformedNode .subtreeBelowLayerZero)
  else
    match node.entries, outer with
    | current :: rest, _ =>
      return ⟨{ current, rest, index := 0, layer := f.layer - 1 } :: f :: outer⟩
    -- An empty root is the empty tree; no other node is empty.
    | [], [] => return stepOver ⟨[f]⟩
    | [], _ :: _ => throw (.malformedNode .emptySubtree)

theorem pending_enter {f : Frame} {outer : List Frame} {node : Node} {c : Cursor}
    (h : enter f outer node = .ok c) :
    c.pending = ⟨node.entries ++ (f.rest ++ outer.flatMap (·.rest))⟩ := by
  unfold enter at h
  split at h
  · simp at h
  · split at h
    · rename_i heq
      cases h
      simp [pending, heq]
    · rename_i heq
      cases h
      rw [pending_stepOver, heq, List.nil_append]
    · simp at h

variable {m : Type → Type} [Monad m] (store : Blockstore m) (config : Config)

def start (tree : Tree) : ExceptT Error m Cursor := do
  let ⟨node, covers⟩ ← tree.root.resolve store tree.config
  let layer ← tree.root.layerOf store tree.config node covers
  return ⟨[{ current := .tree (.resolved node), rest := [], index := 0, layer := layer + 1 }]⟩

def resolveCurrent (c : Cursor) : m (Except Error Node × Cursor) := do
  match c.frames with
  | [] => return (.error (.invalidWalk .done), c)
  | f :: outer =>
    match f.current with
    | .leaf _ => return (.error (.invalidWalk .onLeaf), c)
    | .tree t =>
      match ← (t.resolve store config).run with
      | .error error => return (.error error, c)
      | .ok ⟨node, _⟩ => return (.ok node, ⟨{ f with current := .tree (.resolved node) } :: outer⟩)

def stepInto (c : Cursor) : m (Except Error Unit × Cursor) := do
  if c.isDone then
    return (.ok (), c)
  else
    match ← c.resolveCurrent store config with
    | (.error error, c) => return (.error error, c)
    | (.ok node, c) =>
      match c.frames with
      | [] => return (.ok (), c)
      | f :: outer =>
        match enter f outer node with
        | .error error => return (.error error, c)
        | .ok next => return (.ok (), next)

def advance (c : Cursor) : m (Except Error Unit × Cursor) := do
  match c.current? with
  | none => return (.ok (), c)
  | some (.leaf _) => return (.ok (), c.stepOver)
  | some (.tree _) => c.stepInto store config

end Cursor

end MerkleSearch
