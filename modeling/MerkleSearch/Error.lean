import MerkleSearch.Cid.Text

/-!
This module contains the ways in which an operation on a tree can fail.
-/

namespace MerkleSearch

inductive Defect where
  | undecodable
  | addressMismatch (address computed : Cid)
  | sharedTooLong (shared : UInt64)
  | keyNotText
  | invalidKey (key : String)
  | keysOutOfOrder (key next : String)
  | keyOnOtherLayer (key : String) (keyLayer layer : Nat)
  | subtreeOnLayerZero
  | subtreeBelowLayerZero
  | adjacentSubtrees
  | emptySubtree
  | mergeAcrossLayers (left right : Nat)
  | endlessDescent
deriving DecidableEq

inductive CodecFault where
  | encoding (reason : String)
  | undecodable
deriving DecidableEq

inductive WalkFault where
  | done
  | onLeaf
deriving DecidableEq

inductive Error where
  | invalidKey (key : String)
  | keyNotFound (key : String)
  | keyExists (key : String)
  | malformedNode (defect : Defect)
  | missingBlock (address : Cid)
  | encoding (reason : String)
  | invalidWalk (fault : WalkFault)
  | storageUnavailable (reason : String)
deriving DecidableEq

namespace Defect

def message : Defect → String
  | .undecodable => "undecodable node"
  | .addressMismatch address computed => s!"block {address} hashes to {computed}"
  | .sharedTooLong shared => s!"prefix length {shared} is longer than the previous key"
  | .keyNotText => "key is not valid utf-8"
  | .invalidKey key => s!"invalid key `{key}`"
  | .keysOutOfOrder key next => s!"keys out of order: `{key}` then `{next}`"
  | .keyOnOtherLayer key keyLayer layer =>
    s!"key `{key}` belongs on layer {keyLayer}, node is on layer {layer}"
  | .subtreeOnLayerZero => "node on layer 0 points to a subtree"
  | .subtreeBelowLayerZero => "subtree below a node on layer 0"
  | .adjacentSubtrees => "two subtrees next to each other"
  | .emptySubtree => "tried to step into a node with 0 entries"
  | .mergeAcrossLayers left right =>
    s!"trying to merge a node on layer {left} with one on layer {right}"
  | .endlessDescent => "subtrees of unknown layer are nested too deeply"

end Defect

namespace WalkFault

def message : WalkFault → String
  | .done => "walk is done"
  | .onLeaf => "no tree at pointer, cannot step into"

end WalkFault

namespace Error

def ofCodec : CodecFault → Error
  | .encoding reason => .encoding reason
  | .undecodable => .malformedNode .undecodable

def message : Error → String
  | .invalidKey key => s!"invalid mst key `{key}`"
  | .keyNotFound key => s!"could not find a record with key `{key}`"
  | .keyExists key => s!"there is already a value at key `{key}`"
  | .malformedNode defect => "malformed mst node: " ++ defect.message
  | .missingBlock address => s!"missing block `{address}`"
  | .encoding reason => "could not encode mst node: " ++ reason
  | .invalidWalk fault => "invalid mst walk: " ++ fault.message
  | .storageUnavailable reason => reason

end Error

end MerkleSearch
