import MerkleSearch.Proofs.Gap
import MerkleSearch.Proofs.Resolve
import MerkleSearch.Tree.Add
import MerkleSearch.Tree.Delete
import MerkleSearch.Tree.Update

/-!
This module contains the fact that whatever is made of subtrees that can be read can be read as
well: the operations put nodes that are held in memory around subtrees that have been there before.
-/

namespace MerkleSearch

variable {config : Config} {store : Blockstore Id} {t left right : Subtree} {node : Node}
variable {key : String} {es es' : List NodeEntry} {leaf : Leaf} {layer n : Nat}

namespace Subtree

@[simp]
theorem allReadable_nil : AllReadable store config [] := nofun

@[simp]
theorem allReadable_leaf :
    AllReadable store config (.leaf leaf :: es) ↔ AllReadable store config es := by
  simp [AllReadable]

@[simp]
theorem allReadable_tree :
    AllReadable store config (.tree t :: es) ↔ t.Readable store config ∧
    AllReadable store config es := by
  simp [AllReadable]

@[simp]
theorem allReadable_append :
    AllReadable store config (es ++ es') ↔ AllReadable store config es ∧
    AllReadable store config es' := by
  simp only [AllReadable, List.mem_append, or_imp, forall_and]

theorem readable_ofEntries? {layer? : Option Nat} (h : AllReadable store config es) :
    AllReadable store config (Entry.ofTree? (ofEntries? es layer?)) := by
  unfold ofEntries?
  split
  · exact allReadable_nil
  · exact allReadable_tree.2 ⟨readable_resolved h, allReadable_nil⟩

theorem AllReadable.gap (h : AllReadable store config node.entries) (key : String) :
    AllReadable store config (node.gap key).before ∧
      AllReadable store config (Entry.ofTree? (node.gap key).subtree) ∧
      AllReadable store config (node.gap key).after := by
  rw [← Gap.entries_of key node.entries, Gap.entries, Gap.fill, allReadable_append,
    allReadable_append, and_assoc] at h
  exact h

theorem AllReadable.fill (h : AllReadable store config node.entries) (key : String)
    (hes : AllReadable store config es) : AllReadable store config ((node.gap key).fill es) := by
  obtain ⟨hbefore, -, hafter⟩ := h.gap key
  rw [Gap.fill, allReadable_append, allReadable_append]
  exact ⟨⟨hbefore, hes⟩, hafter⟩

theorem Readable.raise (h : t.Readable store config) : (t.raise layer n).Readable store config := by
  induction n with
  | zero => exact h
  | succ n ih =>
    apply readable_resolved
    exact allReadable_tree.2 ⟨ih, allReadable_nil⟩

theorem AllReadable.raise {part : Option Subtree}
    (h : AllReadable store config (Entry.ofTree? part)) :
    AllReadable store config (Entry.ofTree? (part.map (·.raise layer n))) := by
  cases part with
  | none => exact allReadable_nil
  | some t => exact allReadable_tree.2 ⟨(allReadable_tree.1 h).1.raise, allReadable_nil⟩

theorem AllReadable.withAfter (h : AllReadable store config node.entries)
    (hes : AllReadable store config es) :
    AllReadable store config
      (node.withEntries { node.gap key with after := es }.entries).entries := by
  obtain ⟨hbefore, hsubtree, -⟩ := h.gap key
  rw [NodeOf.withEntries, Gap.entries, Gap.fill, allReadable_append, allReadable_append]
  exact ⟨⟨hbefore, hsubtree⟩, hes⟩

namespace Readable

theorem split (h : t.Readable store config) :
    Settles True (t.split store config key) (fun parts =>
      AllReadable store config (Entry.ofTree? parts.1) ∧
      AllReadable store config (Entry.ofTree? parts.2))
      fun _ => True := by
  induction h with
  | @intro t n hn below ih =>
    obtain ⟨hbefore, hsubtree, hafter⟩ := AllReadable.gap below key
    rw [Subtree.split]
    apply (Settles.of_run_ok hn rfl).bind
    rintro _ rfl
    dsimp only
    split
    · next c hc =>
      apply (ih c (NodeOf.tree_mem_of_gap hc)).bind
      rintro ⟨left, right⟩ ⟨hleft, hright⟩
      apply Settles.pure
      constructor
      · apply readable_ofEntries?
        exact allReadable_append.2 ⟨hbefore, hleft⟩
      · apply readable_ofEntries?
        exact allReadable_append.2 ⟨hright, hafter⟩
    · apply Settles.pure
      exact ⟨readable_ofEntries? hbefore, readable_ofEntries? hafter⟩

theorem merge (hleft : left.Readable store config) (hright : right.Readable store config) :
    Settles True (left.merge store config right) (fun node => AllReadable store config node.entries)
      fun _ => True := by
  induction hleft generalizing right with
  | @intro left l hl hlbelow ih =>
    obtain ⟨r, hr, hrbelow⟩ := hright
    rw [Subtree.merge]
    apply (Settles.of_run_ok hl rfl).bind
    rintro _ rfl
    apply (Settles.of_run_ok hr rfl).bind
    rintro _ rfl
    apply Settles.trivial.bind
    intro leftLayer _
    apply Settles.trivial.bind
    intro rightLayer _
    split
    · exact Settles.throw trivial
    · dsimp only
      split
      · next a b rest hlast hentries =>
        rw [hentries] at hrbelow
        obtain ⟨hb, hrest⟩ := allReadable_tree.1 hrbelow
        apply (ih a (List.mem_of_getLast? hlast) hb).bind
        intro merged hmerged
        apply Settles.pure
        rw [allReadable_append, allReadable_tree]
        refine ⟨?_, readable_resolved hmerged, hrest⟩
        exact fun c hc => hlbelow c (List.dropLast_subset _ hc)
      · apply Settles.pure
        exact allReadable_append.2 ⟨hlbelow, hrbelow⟩

theorem delete (h : t.Readable store config) :
    Settles True (t.delete store config key) (fun node => AllReadable store config node.entries)
      fun _ => True := by
  induction h with
  | @intro t n hn below ih =>
    obtain ⟨hbefore, hsubtree, hafter⟩ := AllReadable.gap below key
    rw [Subtree.delete]
    apply (Settles.of_run_ok hn rfl).bind
    rintro _ rfl
    dsimp only
    split
    · next found right rest left hfound hc =>
      obtain ⟨heq, -⟩ := Gap.mem_of_found? hfound
      rw [heq, allReadable_leaf, allReadable_tree] at hafter
      apply (merge (below left (NodeOf.tree_mem_of_gap hc)) hafter.1).bind
      intro merged hmerged
      apply Settles.pure
      rw [NodeOf.withEntries, allReadable_append, allReadable_tree]
      exact ⟨hbefore, readable_resolved hmerged, hafter.2⟩
    · next found rest hfound _ =>
      obtain ⟨heq, -⟩ := Gap.mem_of_found? hfound
      rw [heq, allReadable_leaf] at hafter
      exact Settles.pure (AllReadable.withAfter below hafter)
    · next c hfound hc =>
      apply (ih c (NodeOf.tree_mem_of_gap hc)).bind
      intro child hchild
      apply Settles.pure
      apply AllReadable.fill below
      split
      · exact allReadable_nil
      · exact allReadable_tree.2 ⟨readable_resolved hchild, allReadable_nil⟩
    · exact Settles.throw trivial

theorem update (h : t.Readable store config) :
    Settles True (t.update store config leaf) (fun node => AllReadable store config node.entries)
      fun _ => True := by
  induction h with
  | @intro t n hn below ih =>
    obtain ⟨hbefore, hsubtree, hafter⟩ := AllReadable.gap below leaf.key
    rw [Subtree.update]
    apply (Settles.of_run_ok hn rfl).bind
    rintro _ rfl
    dsimp only
    split
    · next found rest hfound =>
      obtain ⟨heq, -⟩ := Gap.mem_of_found? hfound
      rw [heq, allReadable_leaf] at hafter
      exact Settles.pure (AllReadable.withAfter below (allReadable_leaf.2 hafter))
    · next c hfound hc =>
      apply (ih c (NodeOf.tree_mem_of_gap hc)).bind
      intro child hchild
      apply Settles.pure
      apply AllReadable.fill below
      exact allReadable_tree.2 ⟨readable_resolved hchild, allReadable_nil⟩
    · exact Settles.throw trivial

theorem add {keyLayer : Nat} (h : t.Readable store config) :
    Settles True (t.add store config leaf keyLayer) (fun node =>
      AllReadable store config node.entries) fun _ => True := by
  induction h with
  | @intro t n hn below ih =>
    rw [Subtree.add]
    apply (Settles.of_run_ok hn rfl).bind
    rintro _ rfl
    apply Settles.trivial.bind
    intro layer _
    dsimp only
    split
    · split
      · exact Settles.throw trivial
      · split
        · next c hc =>
          apply (split (below c (NodeOf.tree_mem_of_gap hc))).bind
          rintro ⟨left, right⟩ ⟨hleft, hright⟩
          apply Settles.pure
          apply AllReadable.fill below
          exact allReadable_append.2 ⟨hleft, allReadable_leaf.2 hright⟩
        · apply Settles.pure
          apply AllReadable.fill below
          exact allReadable_leaf.2 allReadable_nil
    · split
      · split
        · next c hc =>
          apply (ih c (NodeOf.tree_mem_of_gap hc)).bind
          intro child hchild
          apply Settles.pure
          apply AllReadable.fill below
          exact allReadable_tree.2 ⟨readable_resolved hchild, allReadable_nil⟩
        · apply Settles.pure
          apply AllReadable.fill below
          rw [allReadable_tree]
          refine ⟨raise ?_, allReadable_nil⟩
          apply readable_resolved
          exact allReadable_leaf.2 allReadable_nil
      · apply (split (readable_resolved below)).bind
        rintro ⟨left, right⟩ ⟨hleft, hright⟩
        apply Settles.pure
        rw [Leaf.between, allReadable_append, allReadable_leaf]
        exact ⟨hleft.raise, hright.raise⟩

end Readable

end Subtree

end MerkleSearch
