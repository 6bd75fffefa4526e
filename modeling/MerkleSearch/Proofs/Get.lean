import MerkleSearch.Proofs.Gap
import MerkleSearch.Proofs.Resolve
import MerkleSearch.Tree.Get

/-!
This module contains the look-up of a key in a subtree that holds a list of leaves.
-/

namespace MerkleSearch

namespace Leaves

variable {key : String} {ls ls' : List Leaf}

theorem value?_append_of_ne_left (h : ∀ l ∈ ls, l.key ≠ key) :
    value? key (ls ++ ls') = value? key ls' := by
  unfold value?
  rw [List.find?_append, List.find?_eq_none.2 (by simpa using h), Option.none_or]

theorem value?_append_of_ne_right (h : ∀ l ∈ ls', l.key ≠ key) :
    value? key (ls ++ ls') = value? key ls := by
  unfold value?
  rw [List.find?_append, List.find?_eq_none.2 (by simpa using h : ∀ l ∈ ls', _), Option.or_none]

end Leaves

variable {config : Config} {layer : Nat} {ls : List Leaf} {archive : Archive config}
variable {store : Blockstore Id} {t : Subtree} {key : String}

theorem Subtree.Holds.get? {height : Nat} (h : t.Holds archive height ls) (hls : Listing ls)
    (hstore : archive.Agrees store) :
    Returns (t.Readable store config) (t.get? store config key) (· = Leaves.value? key ls) := by
  induction height generalizing t ls with
  | zero => exact h.elim
  | succ layer ih =>
    rw [Subtree.get?]
    apply (h.resolve hls hstore).bind
    rintro ⟨node, covers⟩ ⟨hnode, hreadable⟩
    dsimp only at hnode hreadable ⊢
    obtain ⟨bs, ss, as, rfl, parts⟩ := hnode.exists_parts hls key
    have hbefore : ∀ l ∈ bs, l.key ≠ key := fun l hl => (parts.before_lt l hl).ne
    split
    · next leaf rest hfound =>
      obtain ⟨ls, rfl, rfl, -⟩ := parts.of_found hfound
      apply Settles.pure
      rw [eq_comm, hls.value?_eq_some]
      simp
    · next below hfound hsubtree =>
      obtain ⟨hbelow, -⟩ := parts.of_subtree_some hsubtree
      have hafter : ∀ l ∈ as, l.key ≠ key := fun l hl => (parts.lt_after hls.right hfound l hl).ne'
      rw [Leaves.value?_append_of_ne_right hafter, Leaves.value?_append_of_ne_left hbefore]
      apply (ih hbelow hls.left.right).mono
      intro havailable
      apply hreadable havailable
      exact NodeOf.tree_mem_of_gap hsubtree
    · next hfound hsubtree =>
      have hafter : ∀ l ∈ as, l.key ≠ key := fun l hl => (parts.lt_after hls.right hfound l hl).ne'
      cases parts.of_subtree_none hsubtree
      apply Settles.pure
      rw [Leaves.value?_append_of_ne_right hafter, List.append_nil, eq_comm, Leaves.value?_eq_none]
      exact hbefore

end MerkleSearch
