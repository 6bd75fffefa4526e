import MerkleSearch.Node

/-!
This module contains the order in which every descent into a tree ends. A subtree is below the node
that holds it, and a subtree known only by its address is below any other with a higher hint.
Nothing can go down for ever, and neither can a list of entries in which the first one is replaced
by entries below it.
-/

namespace MerkleSearch

namespace Hint

inductive Lt : Hint → Hint → Prop
  | layer {m n : Nat} (h : m < n) : Lt (.layer m) (.layer n)
  | known {m k : Nat} : Lt (.layer m) (.unknown k)
  | descents {j k : Nat} (h : j < k) : Lt (.unknown j) (.unknown k)

theorem acc_layer (n : Nat) : Acc Lt (.layer n) := by
  induction n using Nat.strongRecOn with
  | _ n ih => exact .intro _ fun _ h => by cases h with | layer h => exact ih _ h

theorem acc (h : Hint) : Acc Lt h := by
  match h with
  | .layer n => exact acc_layer n
  | .unknown k =>
    induction k using Nat.strongRecOn with
    | _ k ih =>
      refine .intro _ fun _ h => ?_
      cases h with
      | known => exact acc_layer _
      | descents h => exact ih _ h

end Hint

namespace Subtree

inductive Below : Subtree → Subtree → Prop
  | child {t : Subtree} {node : Node} (h : .tree t ∈ node.entries) : Below t (.resolved node)
  | hint {a b : Cid} {h k : Hint} (hlt : Hint.Lt h k) : Below (.unresolved a h) (.unresolved b k)

theorem acc_unresolved (a : Cid) (h : Hint) : Acc Below (.unresolved a h) := by
  induction h.acc generalizing a with
  | intro h _ ih => exact .intro _ fun _ ht => by cases ht with | hint hlt => exact ih _ hlt _

theorem acc (t : Subtree) : Acc Below t :=
  match t with
  | .unresolved a h => acc_unresolved a h
  | .resolved node => .intro _ fun t ht => by cases ht with | child h => exact acc t
termination_by sizeOf t
decreasing_by
  have := List.sizeOf_lt_of_mem ‹_›
  cases node
  simp +arith at this ⊢
  omega

instance : WellFoundedRelation Subtree := ⟨Below, ⟨acc⟩⟩

def Covers (t : Subtree) (node : Node) : Prop := ∀ c, .tree c ∈ node.entries → Below c t

theorem covers_resolved (node : Node) : Covers (.resolved node) node := fun _ => .child

end Subtree

structure Pending where
  entries : List NodeEntry

namespace Pending

inductive Lt : Pending → Pending → Prop
  | drop {e : NodeEntry} {rest : List NodeEntry} : Lt ⟨rest⟩ ⟨e :: rest⟩
  | expand {t : Subtree} {node : Node} {rest : List NodeEntry} (h : t.Covers node) :
    Lt ⟨node.entries ++ rest⟩ ⟨.tree t :: rest⟩

theorem acc_nil : Acc Lt ⟨[]⟩ := .intro _ fun _ h => nomatch h

theorem acc_leaf {l : Leaf} {rest : List NodeEntry} (h : Acc Lt ⟨rest⟩) :
    Acc Lt ⟨.leaf l :: rest⟩ :=
  .intro _ fun _ hlt => by cases hlt with | drop => exact h

theorem acc_append {es rest : List NodeEntry} (h : Acc Lt ⟨rest⟩)
    (hes : ∀ t, .tree t ∈ es → ∀ rest, Acc Lt ⟨rest⟩ → Acc Lt ⟨.tree t :: rest⟩) :
    Acc Lt ⟨es ++ rest⟩ := by
  induction es with
  | nil => exact h
  | cons e es ih =>
    have := ih fun t ht => hes t (List.mem_cons_of_mem _ ht)
    cases e with
    | leaf l => exact acc_leaf this
    | tree t => exact hes t List.mem_cons_self _ this

theorem acc_tree (t : Subtree) : ∀ rest, Acc Lt ⟨rest⟩ → Acc Lt ⟨.tree t :: rest⟩ := by
  induction t.acc with
  | intro t _ ih =>
    refine fun rest h => .intro _ fun _ hlt => ?_
    cases hlt with
    | drop => exact h
    | expand hcovers => exact acc_append h fun c hc => ih c (hcovers c hc)

theorem acc (p : Pending) : Acc Lt p := by
  have := @acc_append p.entries [] acc_nil fun t _ => acc_tree t
  simpa using this

instance : WellFoundedRelation Pending := ⟨Lt, ⟨acc⟩⟩

end Pending

end MerkleSearch
