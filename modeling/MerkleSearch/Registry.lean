import MerkleSearch.Tree

/-!
This module contains the register of the nodes that are held in memory. A node shows its address to
people only after that has been asked for and found, and since the versions of a tree share their
nodes, what has been found through one of them shows in all. The register keeps this by node.
-/

namespace MerkleSearch

structure Registry where
  size : Nat := 0
  found : Std.TreeSet Nat := {}

mutual

/--
Gives the next numbers to the nodes that have been made since the tree was last registered.
Everything below a registered node is registered, and nothing below a node that was read from a
store is in memory.
-/
def Subtree.number (next : Nat) : Subtree → Subtree × Nat
  | .resolved ⟨entries, layer, none, none⟩ =>
    let (entries, next) := numberEntries next entries
    (.resolved ⟨entries, layer, none, some next⟩, next + 1)
  | t => (t, next)

def numberEntries (next : Nat) : List NodeEntry → List NodeEntry × Nat
  | [] => ([], next)
  | .leaf l :: rest =>
    let (rest, next) := numberEntries next rest
    (.leaf l :: rest, next)
  | .tree t :: rest =>
    let (t, next) := t.number next
    let (rest, next) := numberEntries next rest
    (.tree t :: rest, next)

end

mutual

def Subtree.inMemory : Subtree → List Subtree
  | .unresolved _ _ => []
  | .resolved ⟨entries, layer, address, serial⟩ =>
    .resolved ⟨entries, layer, address, serial⟩ :: entriesInMemory entries

def entriesInMemory : List NodeEntry → List Subtree
  | [] => []
  | .leaf _ :: rest => entriesInMemory rest
  | .tree t :: rest => t.inMemory ++ entriesInMemory rest

end

namespace Registry

mutual

/--
The numbers of the nodes whose addresses are found when that of a subtree is asked for. It takes the
addresses of the subtrees of a node to find its own; they are found in order, up to the first that
there is not.
-/
def asked (registry : Registry) (config : Config) : Subtree → List Nat
  | .unresolved _ _ => []
  | .resolved ⟨entries, layer, address, serial⟩ =>
    if serial.any registry.found.contains then
      []
    else
      askedEntries registry config entries ++
        if (Subtree.address config (.resolved ⟨entries, layer, address, serial⟩)).isOk then
          serial.toList
        else
          []

def askedEntries (registry : Registry) (config : Config) : List NodeEntry → List Nat
  | [] => []
  | .leaf _ :: rest => askedEntries registry config rest
  | .tree t :: rest =>
    asked registry config t ++
      if (t.address config).isOk then askedEntries registry config rest else []

end

def ask (registry : Registry) (config : Config) (t : Subtree) : Registry :=
  { registry with found := registry.found.insertMany (registry.asked config t) }

def askAll (registry : Registry) (tree : Tree) : Registry :=
  tree.root.inMemory.foldl (·.ask tree.config ·) registry

def enroll (registry : Registry) (tree : Tree) : Tree × Registry :=
  let (root, size) := tree.root.number registry.size
  let tree := { tree with root }.addressed
  (tree, { registry with size }.ask tree.config tree.root)

def shown? (registry : Registry) (serial : Option Nat) (address : Option Cid) : Option Cid :=
  if serial.all registry.found.contains then address else none

end Registry

end MerkleSearch
