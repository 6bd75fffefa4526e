import MerkleSearch.Registry
import MerkleSearch.Text.Lossy
import MerkleSearch.Text.Printable

/-!
This module contains the text that shows a value on one line with all its fields, for reading by
people. A node shows its address if that has been found.
-/

namespace MerkleSearch

namespace Inspect

def escape (c : Char) : String :=
  match c with
  | '"' => "\\\""
  | '\\' => "\\\\"
  | '\n' => "\\n"
  | '\r' => "\\r"
  | '\t' => "\\t"
  | '\x00' => "\\0"
  | c =>
    if Text.isPrintable c then
      c.toString
    else
      "\\u\x7b" ++ String.ofList (Nat.toDigits 16 c.toNat) ++ "\x7d"

def quote (s : String) : String := "\"" ++ String.join (s.toList.map escape) ++ "\""

def struct (name : String) (fields : List (String × String)) : String :=
  name ++ " \x7b " ++ ", ".intercalate (fields.map fun (field, value) => field ++ ": " ++ value) ++
    " \x7d"

def list (items : List String) : String := "[" ++ ", ".intercalate items ++ "]"

def case (name : String) (value : String) : String := name ++ "(" ++ value ++ ")"

def option (value : Option String) : String := (value.map (case "Some")).getD "None"

def cid (c : Cid) : String := quote c.toText

end Inspect

open Inspect

def LeafRecord.inspect (leaf : LeafRecord) : String :=
  struct "TreeEntry" [
    ("p", toString leaf.shared),
    ("k", quote (Text.lossy leaf.suffix)),
    ("v", cid leaf.value),
    ("t", option (leaf.right.map cid))]

def NodeRecord.inspect (record : NodeRecord) : String :=
  struct "NodeData" [
    ("l", option (record.left.map cid)),
    ("e", list (record.leaves.map LeafRecord.inspect))]

def Leaf.inspect (leaf : Leaf) : String :=
  struct "Leaf" [("key", quote leaf.key), ("value", cid leaf.value)]

mutual

def Subtree.inspect (registry : Registry) : Subtree → String
  | .unresolved address hint =>
    struct "Unresolved" [("pointer", cid address), ("layer", option (hint.layer?.map toString))]
  | .resolved ⟨entries, layer, address, serial⟩ =>
    struct "Node" [
      ("pointer", option ((registry.shown? serial address).map cid)),
      ("layer", option (layer.map toString)),
      ("entries", list (inspectEntries registry entries))]

def inspectEntries (registry : Registry) : List NodeEntry → List String
  | [] => []
  | .leaf l :: rest => case "Leaf" l.inspect :: inspectEntries registry rest
  | .tree t :: rest => case "Tree" (t.inspect registry) :: inspectEntries registry rest

end

def Config.inspect (config : Config) : String :=
  struct "MstConfig" [("codec", quote config.codec.name), ("hasher", quote config.hasher.name)]

def Tree.inspect (registry : Registry) (tree : Tree) : String :=
  struct "MST" [("root", tree.root.inspect registry), ("config", tree.config.inspect)]

end MerkleSearch
