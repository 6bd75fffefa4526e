import MerkleSearch.Tree.Split

/-!
This module contains the removal of a key.
-/

namespace MerkleSearch

variable {m : Type → Type} [Monad m]

namespace Subtree

variable (store : Blockstore m) (config : Config)

def delete (key : String) (t : Subtree) : ExceptT Error m Node := do
  let ⟨node, covers⟩ ← t.resolve store config
  let gap := node.gap key
  match gap.found? key, hsubtree : gap.subtree with
  -- The subtrees at both sides of the leaf are merged.
  | some (_, .tree right :: rest), some left =>
    let merged ← left.merge store config right
    return node.withEntries (gap.before ++ .tree (.resolved merged) :: rest)
  | some (_, rest), _ => return node.withEntries { gap with after := rest }.entries
  | none, some below =>
    have := covers below (NodeOf.tree_mem_of_gap hsubtree)
    let child ← below.delete key
    -- A subtree that is left without entries goes as well.
    return node.withEntries
      (gap.fill (if child.entries.isEmpty then [] else [.tree (.resolved child)]))
  | none, none => throw (.keyNotFound key)
termination_by t

def trim (t : Subtree) (node : Node) (covers : t.Covers node) : ExceptT Error m Node := do
  match hentries : node.entries with
  | [.tree only] =>
    have := covers only (by simp [hentries])
    let ⟨child, childCovers⟩ ← only.resolve store config
    only.trim child childCovers
  | _ => return node
termination_by t

end Subtree

namespace Tree

def delete (tree : Tree) (store : Blockstore m) (key : String) : ExceptT Error m Tree := do
  if Key.isValid key then
    let altered ← tree.root.delete store tree.config key
    let root ← (Subtree.resolved altered).trim store tree.config altered
        (Subtree.covers_resolved altered)
    return tree.withRoot (if root.entries.isEmpty then .empty else root)
  else
    throw (.invalidKey key)

end Tree

end MerkleSearch
