import MerkleSearch.Blockstore.Metered
import MerkleSearch.Diff.Trees
import MerkleSearch.Proofs.Blocks
import MerkleSearch.Proofs.Changes
import MerkleSearch.Proofs.Confined
import MerkleSearch.Proofs.Descents
import MerkleSearch.Proofs.Digest
import MerkleSearch.Proofs.Grammar
import MerkleSearch.Proofs.Hints
import MerkleSearch.Proofs.History
import MerkleSearch.Proofs.Integrity
import MerkleSearch.Proofs.Locality
import MerkleSearch.Proofs.Merging
import MerkleSearch.Proofs.Notes
import MerkleSearch.Proofs.Packed
import MerkleSearch.Proofs.Page.Lost
import MerkleSearch.Proofs.Rebuilt
import MerkleSearch.Proofs.Reload
import MerkleSearch.Proofs.Removed
import MerkleSearch.Proofs.Restored
import MerkleSearch.Proofs.Resume
import MerkleSearch.Proofs.Seek
import MerkleSearch.Proofs.Seek.Lost
import MerkleSearch.Proofs.Tour
import MerkleSearch.Proofs.Unstored
import MerkleSearch.Proofs.WellFormed
import MerkleSearch.Sample
import MerkleSearch.Text.Inspect
import MerkleSearch.Text.Outline
import MerkleSearch.Tree.Add
import MerkleSearch.Tree.Delete
import MerkleSearch.Tree.Get
import MerkleSearch.Tree.Save
import MerkleSearch.Tree.Update
