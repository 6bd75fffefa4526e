import MerkleSearch.Blockstore
import MerkleSearch.Ipld

/-!
This module contains sample data: keys that look like those of records, and records to go with them.
Each number below a seed stands for a text, and different numbers for different texts.
-/

namespace MerkleSearch

namespace Sample

def alphabet : List Char := "123456789ABCDEFGHJKLMNPQRSTUVWXYZabcdefghijkmnopqrstuvwxyz".toList

def spell (n : Nat) : (length : Nat) → List Char
  | 0 => []
  | length + 1 => alphabet.getD (n % alphabet.length) '1' :: spell (n / alphabet.length) length

/--
The `i`-th text of the given length. Steps of this size scatter the texts, and since the step has no
factor in common with the number of texts, none comes twice before all have come.
-/
def text (seed i length : Nat) : String :=
  String.ofList (spell ((seed + i) * 6364136223846793005) length)

def record (seed i : Nat) : Ipld := .map [("test", .text (text seed i 50))]

def key (seed i : Nat) : String := "com.example.record/" ++ text seed i 13

def entries (seed count : Nat) : List (String × Cid) :=
  (List.range count).map fun i => (key seed i, (record seed i).cid)

def fill {m : Type → Type} [Monad m] (store : Blockstore m)
    (seed count : Nat) : ExceptT Error m Unit :=
  (List.range count).forM fun i =>
    Blockstore.ask (store.put (record seed i).cid (record seed i).toCbor)

end Sample

end MerkleSearch
