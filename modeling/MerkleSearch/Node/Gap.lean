import MerkleSearch.Node

/-!
This module contains the place of a key among the entries of a node. A key belongs between the
leaves below it and the others; the subtree that stands there, if any, is the one to look for the
key in. The main statement is that a gap loses none of the entries.
-/

namespace MerkleSearch

structure Gap where
  before : List NodeEntry
  subtree : Option Subtree
  after : List NodeEntry

namespace Gap

def fill (gap : Gap) (entries : List NodeEntry) : List NodeEntry :=
  gap.before ++ entries ++ gap.after

def entries (gap : Gap) : List NodeEntry := gap.fill (Entry.ofTree? gap.subtree)

def found? (gap : Gap) (key : String) : Option (Leaf × List NodeEntry) :=
  match gap.after with
  | .leaf leaf :: rest => if leaf.key = key then some (leaf, rest) else none
  | _ => none

def of (key : String) : List NodeEntry → Gap
  | [] => ⟨[], none, []⟩
  | .leaf leaf :: rest =>
    if key ≤ leaf.key then
      ⟨[], none, .leaf leaf :: rest⟩
    else
      let gap := of key rest
      { gap with before := .leaf leaf :: gap.before }
  | .tree t :: rest =>
    let gap := of key rest
    match gap.before, gap.subtree with
    | [], none => { gap with subtree := some t }
    | before, _ => { gap with before := .tree t :: before }

@[simp]
theorem entries_of (key : String) (es : List NodeEntry) : (of key es).entries = es := by
  induction es with
  | nil => rfl
  | cons e es ih =>
    cases e with
    | leaf leaf =>
      simp only [of]
      split
      · rfl
      · simpa [entries, fill, Entry.ofTree?] using ih
    | tree t =>
      simp only [of]
      split
      · rename_i hbefore hsubtree
        simpa [entries, fill, Entry.ofTree?, hbefore, hsubtree] using ih
      · simpa [entries, fill, Entry.ofTree?] using ih

theorem tree_mem_of_subtree {key : String} {es : List NodeEntry} {t : Subtree}
    (h : (of key es).subtree = some t) : .tree t ∈ es := by
  rw [← entries_of key es]
  simp [entries, fill, Entry.ofTree?, h]

theorem mem_of_found? {gap : Gap} {key : String} {leaf : Leaf} {rest : List NodeEntry}
    (h : gap.found? key = some (leaf, rest)) : gap.after = .leaf leaf :: rest ∧ leaf.key = key := by
  unfold found? at h
  split at h
  · split at h <;> simp_all
  · simp at h

end Gap

namespace NodeOf

def gap (node : Node) (key : String) : Gap := Gap.of key node.entries

theorem tree_mem_of_gap {node : Node} {key : String} {t : Subtree}
    (h : (node.gap key).subtree = some t) : .tree t ∈ node.entries :=
  Gap.tree_mem_of_subtree h

end NodeOf

end MerkleSearch
