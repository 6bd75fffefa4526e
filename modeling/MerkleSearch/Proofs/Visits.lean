import MerkleSearch.Proofs.Built
import MerkleSearch.Proofs.Extent
import MerkleSearch.Proofs.Walk

/-!
This module contains what a walk over a subtree comes to if it is known which leaves the subtree
holds. The leaves decide on the whole sequence of visits, whatever of the subtree is in memory and
whatever is not.
-/

namespace MerkleSearch

variable {config : Config} {archive : Archive config} {store : Blockstore Id} {layer height : Nat}
variable {ls : List Leaf} {t : Subtree} {tree : Tree} {es vs : List NodeEntry}
variable {us : List (Entry Extent)}

namespace Extent

def visits (config : Config) : (height : Nat) → List Leaf → List (Entry Extent)
  | 0, _ => []
  | layer + 1, ls => .tree ⟨layer + 1, ls⟩ :: (Leaves.groups config layer ls).flatMap fun
    | .leaf l => [.leaf l]
    | .tree ts => visits config layer ts

def visitsOf (config : Config) (us : List (Entry Extent)) : List (Entry Extent) :=
  us.flatMap fun
    | .leaf l => [.leaf l]
    | .tree e => visits config e.height e.leaves

theorem visits_succ :
    visits config (layer + 1) ls =
      .tree ⟨layer + 1, ls⟩ :: visitsOf config (entries config ⟨layer + 1, ls⟩) := by
  rw [visits, visitsOf, entries, List.flatMap_map]
  congr 2
  funext g
  cases g <;> rfl

theorem leaves_visitsOf
    (h : ∀ e, .tree e ∈ us → Entry.leaves (visits config e.height e.leaves) = e.leaves) :
    Entry.leaves (visitsOf config us) = content us := by
  induction us with
  | nil => rfl
  | cons u us ih =>
    have hrest := ih fun e he => h e (List.mem_cons_of_mem _ he)
    rw [visitsOf, List.flatMap_cons, Entry.leaves_append, ← visitsOf, hrest]
    cases u with
    | leaf l => rfl
    | tree e => exact congrArg (· ++ content us) (h e List.mem_cons_self)

theorem leaves_visits (hlow : ∀ l ∈ ls, config.layerOf l.key < height) :
    Entry.leaves (visits config height ls) = ls := by
  induction height generalizing ls with
  | zero => exact (List.eq_nil_iff_forall_not_mem.2 fun l hl => Nat.not_lt_zero _ (hlow l hl)).symm
  | succ layer ih =>
    have hspells := Leaves.spells_groups fun l hl => Nat.le_of_lt_succ (hlow l hl)
    rw [visits_succ, Entry.leaves_tree, leaves_visitsOf, content_entries]
    intro e he
    obtain ⟨hheight, hts⟩ := mem_entries_iff.1 he
    obtain ⟨_, rfl, -, hbelow, -⟩ := hspells.of_tree_mem hts
    rw [hheight]
    exact ih hbelow

end Extent

abbrev Shows (archive : Archive config) : List NodeEntry → List (Entry Extent) → Prop :=
  List.Forall₂ (Entry.Rel fun t e => t.Holds archive e.height e.leaves)

theorem exists_walked_visitsOf
    (h : List.Forall₂ (Entry.Rel fun c e => ∃ vs, Walked store config [.tree c] vs ∧
      Shows archive vs (Extent.visits config e.height e.leaves)) es us) :
    ∃ vs, Walked store config es vs ∧ Shows archive vs (Extent.visitsOf config us) := by
  induction h with
  | nil => exact ⟨[], .nil, .nil⟩
  | cons hrel _ ih =>
    obtain ⟨vs, hvs, hshows⟩ := ih
    cases hrel with
    | leaf l => exact ⟨_, .leaf hvs, .cons (.leaf l) hshows⟩
    | tree hc =>
      obtain ⟨below, hbelow, hshowsBelow⟩ := hc
      exact ⟨_, hbelow.append hvs, List.rel_append hshowsBelow hshows⟩

theorem Subtree.Holds.exists_walked (h : t.Holds archive height ls) (hls : Listing ls)
    (hstore : archive.Agrees store) (hreadable : t.Readable store config) :
    ∃ vs, Walked store config [.tree t] vs ∧ Shows archive vs (Extent.visits config height ls) := by
  induction height generalizing t ls with
  | zero => exact h.elim
  | succ layer ih =>
    obtain ⟨n, hn, below⟩ := hreadable
    have hnode := h.of_resolve hls hstore hn
    obtain ⟨vs, hvs, hshows⟩ : ∃ vs, Walked store config n.val.entries vs ∧
        Shows archive vs (Extent.visitsOf config (Extent.entries config ⟨layer + 1, ls⟩)) := by
      apply exists_walked_visitsOf
      apply hnode.forall₂_entries
      intro c ts hc hmem hts
      obtain ⟨_, rfl, -, -, hsub⟩ := (Leaves.spells_groups hnode.spells.layer_le).of_tree_mem hts
      exact ih hc (hls.sublist hsub) (below c hmem)
    refine ⟨_, .of_resolve hn hvs, ?_⟩
    rw [Extent.visits_succ]
    exact .cons (.tree hnode) hshows

theorem Tree.Holds.leaves_run (h : tree.Holds archive ls) (hstore : archive.Agrees store)
    (hreadable : tree.Readable store) :
    (tree.leaves store).run = .ok ls := by
  obtain ⟨layer, htops, hroot⟩ := h.root
  cases h.config_eq
  obtain ⟨vs, hvs, hshows⟩ := hroot.exists_walked h.listing hstore hreadable
  refine Tree.run_leaves_eq_ok_iff.2 ⟨vs, hvs, ?_⟩
  rw [Entry.leaves_eq_of_forall₂ hshows, Extent.leaves_visits]
  exact fun l hl => Nat.lt_succ_of_le (hroot.layer_le l hl)

end MerkleSearch
