import MerkleSearch.Cid
import Std.Data.TreeMap

/-!
This module contains sets of blocks by their addresses.
-/

namespace MerkleSearch

abbrev BlockMap := Std.TreeMap Cid Bytes

namespace BlockMap

def addresses (blocks : BlockMap) : List Cid := blocks.keys

def addAll (blocks others : BlockMap) : BlockMap := blocks.insertMany others.toList

def byteSize (blocks : BlockMap) : Nat := blocks.foldl (fun n _ bytes => n + bytes.length) 0

def getMany (blocks : BlockMap) (addresses : List Cid) : BlockMap × List Cid :=
  (.ofList (addresses.filterMap fun c => (blocks[c]?).map (c, ·)),
    addresses.filter fun c => !blocks.contains c)

end BlockMap

end MerkleSearch
