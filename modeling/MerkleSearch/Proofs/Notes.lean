import MerkleSearch.Proofs.Blocks

/-!
This module contains what a difference says about nodes if the notes it is made of come in any order
and with any addresses. The notes of leaves share the set of what is gone with those of nodes. The
main statement is when this makes itself felt: where a node is added about which the set says
something else than the nodes alone would.
-/

namespace MerkleSearch

inductive Note where
  | addLeaf (leaf : Leaf)
  | updateLeaf (key : String) (prev value : Cid)
  | deleteLeaf (leaf : Leaf)
  | addNode (block : Block)
  | deleteNode (address : Cid)

namespace Note

def apply (d : Diff) : Note → Diff
  | .addLeaf leaf => d.addLeaf leaf
  | .updateLeaf key prev value => d.updateLeaf key prev value
  | .deleteLeaf leaf => d.deleteLeaf leaf
  | .addNode block => d.addNode block
  | .deleteNode address => d.deleteNode address

def isNode : Note → Bool
  | .addNode _ | .deleteNode _ => true
  | _ => false

def values : Note → List Cid
  | .addLeaf leaf | .deleteLeaf leaf => [leaf.value]
  | .updateLeaf _ prev _ => [prev]
  | _ => []

end Note

namespace Diff

variable {d d' : Diff} {notes : List Note} {note : Note} {block : Block} {address : Cid}

def ofNotes (notes : List Note) : Diff := notes.foldl Note.apply {}

theorem ofNotes_concat (notes : List Note) (note : Note) :
    ofNotes (notes ++ [note]) = note.apply (ofNotes notes) :=
  List.foldl_concat ..

section

variable (d : Diff) (block : Block) (gone address : Cid)

theorem getElem?_newBlocks_addNode :
    (d.addNode block).newBlocks[address]? = if block.address = address ∧
    block.address ∉ d.removed then some block.bytes else d.newBlocks[address]? := by
  unfold addNode
  split
  · next hmem => rw [if_neg fun h => h.2 hmem]
  · next hmem =>
    have hnot : block.address ∉ d.removed := hmem
    simp [Std.TreeMap.getElem?_insert, hnot]

theorem mem_removed_addNode :
    address ∈ (d.addNode block).removed ↔ address ∈ d.removed ∧ block.address ≠ address := by
  unfold addNode
  split
  · simp [and_comm]
  · next hnot =>
    refine ⟨fun hmem => ⟨hmem, ?_⟩, And.left⟩
    rintro rfl
    exact hnot hmem

theorem mem_removedBlocks_addNode : address ∈ (d.addNode block).removedBlocks ↔
    address ∈ d.removedBlocks ∧ ¬(block.address = address ∧ block.address ∈ d.removed) := by
  unfold addNode
  split
  · next hmem =>
    have hgone : block.address ∈ d.removed := hmem
    simp [and_comm, hgone]
  · next hmem =>
    have hnot : block.address ∉ d.removed := hmem
    simp [hnot]

theorem getElem?_newBlocks_deleteNode :
    (d.deleteNode gone).newBlocks[address]? = if gone =
      address then none else d.newBlocks[address]? := by
  unfold deleteNode
  split
  · simp [Std.TreeMap.getElem?_erase]
  · next hmem =>
    split
    · next heq => rw [← heq, Std.TreeMap.getElem?_eq_none hmem]
    · rfl

theorem mem_removed_deleteNode : address ∈ (d.deleteNode gone).removed ↔
    address ∈ d.removed ∨ gone = address ∧ gone ∉ d.newBlocks := by
  unfold deleteNode
  split
  · next hmem =>
    have hnew : gone ∈ d.newBlocks := hmem
    simp [hnew]
  · next hmem =>
    have hnew : gone ∉ d.newBlocks := hmem
    simp [hnew, or_comm]

theorem mem_removedBlocks_deleteNode : address ∈ (d.deleteNode gone).removedBlocks ↔
    address ∈ d.removedBlocks ∨ gone = address ∧ gone ∉ d.newBlocks := by
  unfold deleteNode
  split
  · next hmem =>
    have hnew : gone ∈ d.newBlocks := hmem
    simp [hnew]
  · next hmem =>
    have hnew : gone ∉ d.newBlocks := hmem
    simp [hnew, or_comm]

end

structure AgreesAt (address : Cid) (d d' : Diff) : Prop where
  newBlocks : d.newBlocks[address]? = d'.newBlocks[address]?
  removedBlocks : address ∈ d.removedBlocks ↔ address ∈ d'.removedBlocks

def Paired (address : Cid) (d : Diff) : Prop := address ∈ d.removed ↔ address ∈ d.removedBlocks

/--
To add the node comes to the same if only the nodes that are gone are asked.
-/
def Undisturbed (d : Diff) (block : Block) : Prop :=
  (block.address ∈ d.removedBlocks → block.address ∈ d.removed) ∧
    (block.address ∈ d.removed → block.address ∈ d.removedBlocks ∨
      d.newBlocks[block.address]? = some block.bytes)

theorem agreesAt_leaf (hleaf : note.isNode = false) (d : Diff) :
    AgreesAt address (note.apply d) d := by
  cases note with
  | addNode block => cases hleaf
  | deleteNode gone => cases hleaf
  | _ => constructor <;> simp [Note.apply]

theorem Paired.undisturbed (h : Paired block.address d) : d.Undisturbed block :=
  ⟨h.2, fun hmem => .inl (h.1 hmem)⟩

theorem Paired.node (h : Paired address d) (hnode : note.isNode = true) :
    Paired address (note.apply d) := by
  cases note with
  | addNode block =>
    rw [Paired, Note.apply, mem_removed_addNode, mem_removedBlocks_addNode]
    constructor
    · exact fun ⟨hmem, hne⟩ => ⟨h.1 hmem, fun heq => hne heq.1⟩
    · rintro ⟨hmem, hnot⟩
      refine ⟨h.2 hmem, ?_⟩
      rintro rfl
      exact hnot ⟨rfl, h.2 hmem⟩
  | deleteNode gone =>
    rw [Paired, Note.apply, mem_removed_deleteNode, mem_removedBlocks_deleteNode]
    exact or_congr_left h
  | _ => cases hnode

theorem Paired.leaf (h : Paired address d) (hleaf : note.isNode = false)
    (hvalues : address ∉ note.values) :
    Paired address (note.apply d) := by
  have hremoved : address ∈ (note.apply d).removed ↔ address ∈ d.removed := by
    cases note with
    | addLeaf leaf =>
      have hne : leaf.value ≠ address := fun heq => hvalues (heq ▸ List.mem_singleton_self _)
      unfold Note.apply addLeaf
      dsimp only
      split <;> simp [hne]
    | updateLeaf key prev value =>
      have hne : prev ≠ address := fun heq => hvalues (heq ▸ List.mem_singleton_self _)
      unfold Note.apply updateLeaf
      dsimp only
      split <;> simp [hne]
    | deleteLeaf leaf =>
      have hne : leaf.value ≠ address := fun heq => hvalues (heq ▸ List.mem_singleton_self _)
      unfold Note.apply deleteLeaf
      dsimp only
      split <;> simp [hne]
    | _ => cases hleaf
  exact hremoved.trans (h.trans (agreesAt_leaf hleaf d).removedBlocks.symm)

theorem AgreesAt.mem_newBlocks (h : AgreesAt address d d') :
    address ∈ d.newBlocks ↔ address ∈ d'.newBlocks := by
  rw [Std.TreeMap.mem_iff_isSome_getElem?, h.newBlocks, Std.TreeMap.mem_iff_isSome_getElem?]

theorem AgreesAt.deleteNode (h : AgreesAt address d d') (gone : Cid) :
    AgreesAt address (d.deleteNode gone) (d'.deleteNode gone) := by
  constructor
  · rw [getElem?_newBlocks_deleteNode, getElem?_newBlocks_deleteNode, h.newBlocks]
  · rw [mem_removedBlocks_deleteNode, mem_removedBlocks_deleteNode, h.removedBlocks]
    refine or_congr_right (and_congr_right ?_)
    rintro rfl
    exact not_congr h.mem_newBlocks

theorem AgreesAt.addNode_of_ne (h : AgreesAt address d d') (hne : block.address ≠ address) :
    AgreesAt address (d.addNode block) (d'.addNode block) := by
  constructor
  · rw [getElem?_newBlocks_addNode, getElem?_newBlocks_addNode, h.newBlocks, if_neg fun h =>
      hne h.1, if_neg fun h => hne h.1]
  · rw [mem_removedBlocks_addNode, mem_removedBlocks_addNode, h.removedBlocks]
    simp [hne]

theorem AgreesAt.addNode_iff (h : AgreesAt block.address d d') (hpaired : Paired block.address d') :
    AgreesAt block.address (d.addNode block) (d'.addNode block) ↔ d.Undisturbed block := by
  have hgone : block.address ∈ d'.removed ↔ block.address ∈ d.removedBlocks :=
    hpaired.trans h.removedBlocks.symm
  have hnew : (d.addNode block).newBlocks[block.address]? =
      (d'.addNode block).newBlocks[block.address]? ↔
      (block.address ∈ d.removed → block.address ∈ d.removedBlocks ∨
        d.newBlocks[block.address]? = some block.bytes) ∧
      (block.address ∈ d.removedBlocks → block.address ∈ d.removed ∨
        d.newBlocks[block.address]? = some block.bytes) := by
    rw [getElem?_newBlocks_addNode, getElem?_newBlocks_addNode, ← h.newBlocks]
    by_cases hremoved : block.address ∈ d.removed <;> by_cases hblocks : block.address ∈
      d.removedBlocks <;>
      simp [hgone, hremoved, hblocks, eq_comm]
  have hremoved :
      (block.address ∈ (d.addNode block).removedBlocks ↔
        block.address ∈ (d'.addNode block).removedBlocks) ↔
        (block.address ∈ d.removedBlocks → block.address ∈ d.removed) := by
    rw [mem_removedBlocks_addNode, mem_removedBlocks_addNode, ← h.removedBlocks, hgone]
    tauto
  constructor
  · exact fun hagrees => ⟨hremoved.1 hagrees.removedBlocks, (hnew.1 hagrees.newBlocks).1⟩
  · exact fun hund => ⟨hnew.2 ⟨hund.2, fun hmem => .inl (hund.1 hmem)⟩, hremoved.2 hund.1⟩

theorem AgreesAt.trans {d'' : Diff} (h : AgreesAt address d d') (h' : AgreesAt address d' d'') :
    AgreesAt address d d'' :=
  ⟨h.newBlocks.trans h'.newBlocks, h.removedBlocks.trans h'.removedBlocks⟩

theorem paired_ofNotes (hvalues : ∀ note ∈ notes, note.isNode = true ∨ address ∉ note.values) :
    Paired address (ofNotes notes) := by
  induction notes using List.reverseRecOn with
  | nil => exact Iff.rfl
  | append_singleton notes note ih =>
    rw [ofNotes_concat]
    have hpaired := ih fun other hmem => hvalues other (List.mem_append_left _ hmem)
    by_cases hnode : note.isNode = true
    · exact hpaired.node hnode
    · exact hpaired.leaf (Bool.eq_false_iff.2 hnode) ((hvalues note (by simp)).resolve_left hnode)

theorem paired_ofNotes_filter (notes : List Note) (address : Cid) :
    Paired address (ofNotes (notes.filter Note.isNode)) :=
  paired_ofNotes fun _ hmem => .inl (List.mem_filter.1 hmem).2

/--
The nodes that are added under the address find what is gone in order.
-/
def Orderly (address : Cid) (notes : List Note) : Prop :=
  ∀ earlier block, earlier ++ [.addNode block] <+: notes → block.address = address →
    (ofNotes earlier).Undisturbed block

theorem Orderly.agreesAt (h : Orderly address notes) :
    AgreesAt address (ofNotes notes) (ofNotes (notes.filter Note.isNode)) := by
  induction notes using List.reverseRecOn with
  | nil => exact ⟨rfl, Iff.rfl⟩
  | append_singleton notes note ih =>
    have hagrees :=
      ih fun earlier block hstart => h earlier block (hstart.trans (List.prefix_append _ _))
    rw [ofNotes_concat, List.filter_append]
    by_cases hnode : note.isNode = true
    · rw [List.filter_cons_of_pos hnode, List.filter_nil, ofNotes_concat]
      cases note with
      | addNode block =>
        by_cases heq : block.address = address
        · subst heq
          exact (hagrees.addNode_iff (paired_ofNotes_filter _ _)).2
            (h notes block List.prefix_rfl rfl)
        · exact hagrees.addNode_of_ne heq
      | deleteNode gone => exact hagrees.deleteNode gone
      | _ => cases hnode
    · rw [List.filter_cons_of_neg hnode, List.filter_nil, List.append_nil]
      exact (agreesAt_leaf (Bool.eq_false_iff.2 hnode) _).trans hagrees

/--
What is said about the node at an address is what the notes of nodes alone say, at each point and so
at the end, exactly as long as the nodes that are added there find what is gone in order. They do if
no leaf has the address as its value.
-/
theorem ofNotes_agreesAt (notes : List Note) (address : Cid) :
    ((∀ earlier, earlier <+: notes →
      AgreesAt address (ofNotes earlier) (ofNotes (earlier.filter Note.isNode))) ↔
      Orderly address notes) ∧
    ((∀ note ∈ notes, address ∉ note.values) →
      AgreesAt address (ofNotes notes) (ofNotes (notes.filter Note.isNode))) := by
  refine ⟨⟨?_, ?_⟩, ?_⟩
  · rintro h earlier block hstart rfl
    have hbefore := h earlier ((List.prefix_append _ _).trans hstart)
    have hafter := h _ hstart
    rw [List.filter_append, List.filter_cons_of_pos (by rfl), List.filter_nil, ofNotes_concat,
      ofNotes_concat] at hafter
    exact (hbefore.addNode_iff (paired_ofNotes_filter _ _)).1 hafter
  · intro h earlier hearlier
    exact Orderly.agreesAt fun before block hstart => h before block (hstart.trans hearlier)
  · intro hvalues
    refine Orderly.agreesAt ?_
    rintro earlier block hstart rfl
    refine (paired_ofNotes fun note hmem => .inr (hvalues note ?_)).undisturbed
    exact hstart.subset (List.mem_append_left _ hmem)

end Diff

namespace Coincident

/-!
A node whose address is also the value of a leaf, of one that goes or of one that comes while the
node is gone.
-/

def block : Block := ⟨Sample.pointer 1, [0]⟩

def other : Cid := Sample.low.value

def silencing : List Note := [.deleteLeaf ⟨"a/b", block.address⟩, .addNode block]

def reviving : List Note :=
  [.deleteNode block.address, .addLeaf ⟨"a/b", block.address⟩, .addNode block]

def apart : List Note := [.deleteNode block.address, .addLeaf ⟨"a/b", other⟩, .addNode block]

theorem unreported : (Diff.ofNotes silencing).newBlocks[block.address]? = none ∧
    (Diff.ofNotes (silencing.filter Note.isNode)).newBlocks[block.address]? = some block.bytes := by
  constructor <;> cbv

/--
A note of a leaf hides a node that is new, and lets one be reported as new and as gone that has only
moved.
-/
theorem unreported_or_still_reported :
    ((Diff.ofNotes silencing).newBlocks[block.address]? = none ∧
      (Diff.ofNotes (silencing.filter Note.isNode)).newBlocks[block.address]? = some block.bytes) ∧
    (block.address ∈ (Diff.ofNotes reviving).newBlocks ∧
      block.address ∈ (Diff.ofNotes reviving).removedBlocks) ∧
    block.address ∉ (Diff.ofNotes (reviving.filter Note.isNode)).newBlocks ∧
      block.address ∉ (Diff.ofNotes (reviving.filter Note.isNode)).removedBlocks := by
  refine ⟨unreported, ⟨?_, ?_⟩, ?_, ?_⟩ <;> decide

end Coincident

theorem Diff.ofNotes_agreesAt_of_coincident :
    ¬Diff.Orderly Coincident.block.address Coincident.silencing ∧
      (∀ note ∈ Coincident.apart, Coincident.block.address ∉ note.values) ∧
      Diff.AgreesAt Coincident.block.address (Diff.ofNotes Coincident.apart)
        (Diff.ofNotes (Coincident.apart.filter Note.isNode)) := by
  have hvalues : ∀ note ∈ Coincident.apart, Coincident.block.address ∉ note.values := by
    simp [Coincident.apart, Note.values]
    decide
  refine ⟨fun horderly => ?_, hvalues, (Diff.ofNotes_agreesAt _ _).2 hvalues⟩
  have hagrees := (Diff.ofNotes_agreesAt _ _).1.2 horderly Coincident.silencing List.prefix_rfl
  have hnew := hagrees.newBlocks
  rw [Coincident.unreported.1, Coincident.unreported.2] at hnew
  cases hnew

end MerkleSearch
