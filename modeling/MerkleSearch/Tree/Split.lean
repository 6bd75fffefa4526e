import MerkleSearch.Tree

/-!
This module contains the two operations that keep the shape of a tree independent of its history: a
subtree is split around a key that moves in between its keys, and two subtrees are merged when the
key between them goes.
-/

namespace MerkleSearch

variable {m : Type → Type} [Monad m]

namespace Subtree

variable (store : Blockstore m) (config : Config)

def split (key : String) (t : Subtree) : ExceptT Error m (Option Subtree × Option Subtree) := do
  let ⟨node, covers⟩ ← t.resolve store config
  let gap := node.gap key
  match hsubtree : gap.subtree with
  | some below =>
    have := covers below (NodeOf.tree_mem_of_gap hsubtree)
    let (left, right) ← below.split key
    return (ofEntries? (gap.before ++ Entry.ofTree? left) node.layer,
      ofEntries? (Entry.ofTree? right ++ gap.after) node.layer)
  | none => return (ofEntries? gap.before node.layer, ofEntries? gap.after node.layer)
termination_by t

def merge (left right : Subtree) : ExceptT Error m Node := do
  let ⟨l, lcovers⟩ ← left.resolve store config
  let ⟨r, rcovers⟩ ← right.resolve store config
  let leftLayer ← left.layerOf store config l lcovers
  let rightLayer ← right.layerOf store config r rcovers
  if leftLayer ≠ rightLayer then
    throw (.malformedNode (.mergeAcrossLayers leftLayer rightLayer))
  else
    -- The subtrees that meet in the middle are merged in turn.
    match hlast : l.entries.getLast?, r.entries with
    | some (.tree a), .tree b :: rest =>
      have := lcovers a (List.mem_of_getLast? hlast)
      let merged ← merge a b
      return {
        entries := l.entries.dropLast ++ .tree (.resolved merged) :: rest
        layer := some leftLayer }
    | _, _ => return { entries := l.entries ++ r.entries, layer := some leftLayer }
termination_by left

end Subtree

end MerkleSearch
