import MerkleSearch.Tree

/-!
This module contains the outline of a tree: a line for each entry, indented below the one of its
node. Nothing is fetched for it.
-/

namespace MerkleSearch

namespace Outline

def branch (last : Bool) : String := if last then "└── " else "├── "

def indent (last : Bool) : String := if last then "   " else "│  "

end Outline

open Outline

mutual

def Subtree.outline (config : Config) (margin : String) (last : Bool) : Subtree → List String
  | .unresolved address _ =>
    [margin ++ branch last ++ s!"*({address.shortText})", margin ++ indent last ++ "(virtual node)"]
  | .resolved ⟨entries, layer, known, serial⟩ =>
    let label :=
      match Subtree.address config (.resolved ⟨entries, layer, known, serial⟩) with
      | .ok address => s!"*({address.shortText})"
      | .error _ => "*(?)"
    (margin ++ branch last ++ label) :: outlineEntries config (margin ++ indent last) entries

def outlineEntries (config : Config) (margin : String) : List NodeEntry → List String
  | [] => []
  | .leaf l :: rest =>
    s!"{margin}{branch rest.isEmpty}{l.key} -> {l.value.shortText}" ::
      outlineEntries config margin rest
  | .tree t :: rest => t.outline config margin rest.isEmpty ++ outlineEntries config margin rest

end

def Tree.outline (tree : Tree) : String :=
  String.join ((tree.root.outline tree.config "" true).map (· ++ "\n"))

end MerkleSearch
