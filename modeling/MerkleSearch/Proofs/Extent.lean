import MerkleSearch.Proofs.Holds

/-!
This module contains trees as they are seen from outside: each subtree is given by its height and
its leaves. This decides on the subtrees inside it, and no two of them are the same.
-/

namespace MerkleSearch

structure Extent where
  height : Nat
  leaves : List Leaf
deriving DecidableEq

variable {config : Config} {layer height : Nat} {ls : List Leaf} {us vs : List (Entry Extent)}
variable {e : Extent}

namespace Extent

def entries (config : Config) : Extent → List (Entry Extent)
  | ⟨0, _⟩ => []
  | ⟨layer + 1, ls⟩ => (Leaves.groups config layer ls).map (Entry.map (⟨layer, ·⟩))

/--
The subtree with the given height and leaves, and those inside it.
-/
def spread (config : Config) : (height : Nat) → List Leaf → List Extent
  | 0, _ => []
  | layer + 1, ls => ⟨layer + 1, ls⟩ :: (Leaves.groups config layer ls).flatMap fun
    | .leaf _ => []
    | .tree ts => spread config layer ts

def nodes (config : Config) (us : List (Entry Extent)) : List Extent :=
  us.flatMap fun
    | .leaf _ => []
    | .tree e => spread config e.height e.leaves

def content (us : List (Entry Extent)) : List Leaf :=
  us.flatMap fun
    | .leaf l => [l]
    | .tree e => e.leaves

@[simp]
theorem content_nil : content [] = [] := rfl

@[simp]
theorem content_leaf (l : Leaf) : content (.leaf l :: us) = l :: content us := rfl

@[simp]
theorem content_tree : content (.tree e :: us) = e.leaves ++ content us := rfl

@[simp]
theorem content_append : content (us ++ vs) = content us ++ content vs := List.flatMap_append

theorem content_singleton : content [.tree e] = e.leaves := List.append_nil _

@[simp]
theorem nodes_nil : nodes config [] = [] := rfl

@[simp]
theorem nodes_leaf (l : Leaf) : nodes config (.leaf l :: us) = nodes config us := rfl

theorem nodes_tree_cons :
    nodes config (.tree e :: us) = spread config e.height e.leaves ++ nodes config us :=
  rfl

theorem nodes_singleton : nodes config [.tree e] = spread config e.height e.leaves :=
  List.append_nil _

@[simp]
theorem nodes_append : nodes config (us ++ vs) = nodes config us ++ nodes config vs :=
  List.flatMap_append

theorem spread_succ :
    spread config (layer + 1) ls =
      ⟨layer + 1, ls⟩ :: nodes config (entries config ⟨layer + 1, ls⟩) := by
  rw [spread, nodes, entries, List.flatMap_map]
  congr 2
  funext g
  cases g <;> rfl

@[simp]
theorem nodes_tree :
    nodes config (.tree ⟨layer + 1, ls⟩ :: us) =
      ⟨layer + 1, ls⟩ :: nodes config (entries config ⟨layer + 1, ls⟩ ++ us) := by
  rw [nodes_append, ← List.cons_append, ← spread_succ, nodes_tree_cons]

theorem content_groups :
    content ((Leaves.groups config layer ls).map (Entry.map (⟨layer, ·⟩))) = ls := by
  induction ls with
  | nil => rfl
  | cons l ls ih =>
    rw [Leaves.groups]
    split
    · rw [List.map_cons, Entry.map_leaf, content_leaf, ih]
    · split
      · next heq =>
        rw [heq, List.map_cons, Entry.map_tree, content_tree] at ih
        rw [List.map_cons, Entry.map_tree, content_tree, List.cons_append, ih]
      · rw [List.map_cons, Entry.map_tree, content_tree, ih, List.singleton_append]

@[simp]
theorem content_entries : content (entries config ⟨layer + 1, ls⟩) = ls := content_groups

theorem content_enter :
    content (entries config ⟨layer + 1, ls⟩ ++ us) = content (.tree ⟨layer + 1, ls⟩ :: us) := by
  rw [content_append, content_entries, content_tree]

theorem mem_nodes_iff :
    e ∈ nodes config us ↔ ∃ u, .tree u ∈ us ∧ e ∈ spread config u.height u.leaves := by
  rw [nodes, List.mem_flatMap]
  constructor
  · rintro ⟨_ | u, hu, he⟩
    · exact ⟨_, hu, he⟩
    · cases he
  · rintro ⟨u, hu, he⟩
    exact ⟨.tree u, hu, he⟩

theorem mem_entries_iff {u : Extent} :
    .tree u ∈ entries config ⟨layer + 1, ls⟩ ↔ u.height = layer ∧
    .tree u.leaves ∈ Leaves.groups config layer ls := by
  rw [entries, List.mem_map]
  constructor
  · rintro ⟨_ | _, hts, heq⟩ <;> cases heq
    exact ⟨rfl, hts⟩
  · rintro ⟨rfl, hts⟩
    exact ⟨.tree u.leaves, hts, rfl⟩

theorem mem_spread_succ {ts : List Leaf} (hts : .tree ts ∈ Leaves.groups config layer ls)
    (he : e ∈ spread config layer ts) :
    e ∈ spread config (layer + 1) ls := by
  rw [spread_succ]
  apply List.mem_cons_of_mem
  exact mem_nodes_iff.2 ⟨⟨layer, ts⟩, mem_entries_iff.2 ⟨rfl, hts⟩, he⟩

theorem of_mem_spread (hlow : ∀ l ∈ ls, config.layerOf l.key < height)
    (he : e ∈ spread config height ls) :
    e.height ≤ height ∧ e.leaves.Sublist ls ∧ (ls ≠ [] → e.leaves ≠ []) := by
  induction height generalizing ls with
  | zero => cases he
  | succ layer ih =>
    rw [spread_succ, List.mem_cons, mem_nodes_iff] at he
    rcases he with rfl | ⟨u, hu, he⟩
    · exact ⟨le_rfl, List.Sublist.refl _, id⟩
    · obtain ⟨hheight, hts⟩ := mem_entries_iff.1 hu
      obtain ⟨_, rfl, hne, hbelow, hsub⟩ :=
        (Leaves.spells_groups fun l hl => Nat.le_of_lt_succ (hlow l hl)).of_tree_mem hts
      rw [hheight] at he
      obtain ⟨hle, hsub', hne'⟩ := ih hbelow he
      exact ⟨hle.trans (Nat.le_succ layer), hsub'.trans hsub, fun _ => hne' hne⟩

theorem nodup_nodes_groups {gs : List (Entry (List Leaf))} (h : Spells config Eq layer gs ls)
    (hls : Listing ls)
    (ih : ∀ ts, Listing ts → (∀ l ∈ ts, config.layerOf l.key < layer) →
      (spread config layer ts).Nodup) :
    (nodes config (gs.map (Entry.map (⟨layer, ·⟩)))).Nodup := by
  induction h with
  | nil => exact .nil
  | leaf _ _ ihrest => exact ihrest hls.tail
  | @tree t gs ts ls ht hne hlow h ihrest =>
    cases ht
    rw [List.map_cons, Entry.map_tree, ← List.singleton_append, nodes_append, List.nodup_append]
    refine ⟨?_, ihrest hls.right, ?_⟩
    · rw [nodes_singleton]
      exact ih t hls.left hlow
    · -- What is inside of two neighbours has leaves, and these are apart.
      rintro a ha _ hb rfl
      rw [nodes_singleton] at ha
      obtain ⟨-, hsub, hne⟩ := of_mem_spread hlow ha
      obtain ⟨l, hl⟩ := List.exists_mem_of_ne_nil _ (hne ‹_›)
      obtain ⟨v, hv, hb⟩ := mem_nodes_iff.1 hb
      obtain ⟨_ | _, hts, heq⟩ := List.mem_map.1 hv <;> cases heq
      obtain ⟨_, rfl, -, hbelow, hsub'⟩ := h.of_tree_mem hts
      exact lt_irrefl l.key
        (hls.lt_of_append (hsub.subset hl) (hsub'.subset ((of_mem_spread hbelow hb).2.1.subset hl)))

theorem nodup_spread (hls : Listing ls) (hlow : ∀ l ∈ ls, config.layerOf l.key < height) :
    (spread config height ls).Nodup := by
  induction height generalizing ls with
  | zero => exact .nil
  | succ layer ih =>
    have hspells := Leaves.spells_groups fun l hl => Nat.le_of_lt_succ (hlow l hl)
    rw [spread_succ, List.nodup_cons]
    refine ⟨?_, nodup_nodes_groups hspells hls fun ts => ih⟩
    -- Nothing inside of a subtree is as high as this.
    intro hmem
    obtain ⟨u, hu, hmem⟩ := mem_nodes_iff.1 hmem
    obtain ⟨hheight, hts⟩ := mem_entries_iff.1 hu
    obtain ⟨_, rfl, -, hbelow, -⟩ := hspells.of_tree_mem hts
    rw [hheight] at hmem
    exact Nat.not_succ_le_self layer (of_mem_spread hbelow hmem).1

end Extent

theorem NodeOf.Holds.forall₂_entries {archive : Archive config} {node : Node}
    {R : Subtree → Extent → Prop} (h : node.Holds archive (Subtree.Holds archive layer) layer ls)
    (hR : ∀ c ts, Subtree.Holds archive layer c ts → .tree c ∈ node.entries →
      .tree ts ∈ Leaves.groups config layer ls → R c ⟨layer, ts⟩) :
    List.Forall₂ (Entry.Rel R) node.entries (Extent.entries config ⟨layer + 1, ls⟩) := by
  have hgroups :
      List.Forall₂ (Entry.Rel fun c ts => R c ⟨layer, ts⟩) node.entries
        (Leaves.groups config layer ls) :=
    Entry.forall₂_imp (h.spells.groups h.apart) hR
  rw [Extent.entries, List.forall₂_map_right_iff]
  exact hgroups.imp fun _ _ => Entry.Rel.map_right

end MerkleSearch
