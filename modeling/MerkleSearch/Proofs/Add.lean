import MerkleSearch.Proofs.Split
import MerkleSearch.Tree.Add

/-!
This module contains the insertion of a key into a subtree that holds a list of leaves. The result
holds one leaf more, and is as high as that leaf needs it to be.
-/

namespace MerkleSearch

variable {config : Config} {layer height n : Nat} {ls bs as : List Leaf} {archive : Archive config}
variable {store : Blockstore Id} {t : Subtree} {left right : Option Subtree} {leaf : Leaf}

theorem Subtree.Holds.raise (h : t.Holds archive (layer + 1) ls) (hls : ls ≠ []) :
    (t.raise layer n).Holds archive (layer + n + 1) ls := by
  induction n with
  | zero => exact h
  | succ n ih =>
    apply NodeOf.Holds.of_spells (.singleton _)
    apply Spells.singleton ih hls
    intro l hl
    have := h.layer_le l hl
    omega

theorem Spells.raise {part : Option Subtree}
    (h : Spells config (Subtree.Holds archive (layer + 1)) (layer + 1) (Entry.ofTree? part) ls) :
    Spells config (Subtree.Holds archive (layer + n + 1)) (layer + n + 1)
      (Entry.ofTree? (part.map (·.raise layer n))) ls := by
  cases part with
  | none =>
    rw [h.of_nil]
    exact .nil
  | some t =>
    obtain ⟨ht, hne, hlow⟩ := h.of_singleton
    apply Spells.singleton (ht.raise hne) hne
    intro l hl
    have := hlow l hl
    omega

namespace Leaf

theorem between_apart (leaf : Leaf) (left right : Option Subtree) :
    (leaf.between left right).IsChain Entry.Apart := by
  apply Entry.apart_append_of_head
  · exact Entry.apart_ofTree? left
  · rw [List.isChain_cons]
    exact ⟨fun e _ => by simp [Entry.Apart, Entry.isTree], Entry.apart_ofTree? right⟩
  · rintro _ ⟨⟩
    rfl

theorem spells_between {holds : Subtree → List Leaf → Prop}
    (hlayer : config.layerOf leaf.key = layer)
    (hleft : Spells config holds layer (Entry.ofTree? left) (Leaves.before leaf.key ls))
    (hright : Spells config holds layer (Entry.ofTree? right) (Leaves.after leaf.key ls)) :
    Spells config holds layer (leaf.between left right) (Leaves.insert leaf ls) :=
  hleft.append (.leaf hlayer hright)

end Leaf

theorem Subtree.Holds.single (leaf : Leaf) (hlayer : config.layerOf leaf.key = layer) :
    (Subtree.ofEntries [.leaf leaf] (some layer)).Holds archive (layer + 1) [leaf] :=
  NodeOf.Holds.of_spells (.singleton _) (.leaf hlayer .nil)

theorem Config.key_ne_of_layer_ne {key key' : String}
    (h : config.layerOf key ≠ config.layerOf key') :
    key ≠ key' := by
  rintro rfl
  exact h rfl

namespace NodeOf.Holds

variable {node : Node} {ss : List Leaf}

theorem insertHere (h : node.Holds archive (Subtree.Holds archive layer) layer ls)
    (parts : (node.gap leaf.key).Parts config (Subtree.Holds archive layer) layer leaf.key bs ss as)
    (hlt : ∀ l ∈ as, leaf.key < l.key) (hlayer : config.layerOf leaf.key = layer)
    (hleft : Spells config (Subtree.Holds archive layer) layer (Entry.ofTree? left)
      (Leaves.before leaf.key ss))
    (hright : Spells config (Subtree.Holds archive layer) layer (Entry.ofTree? right)
      (Leaves.after leaf.key ss)) :
    (node.withEntries ((node.gap leaf.key).fill (leaf.between left right))).Holds archive
      (Subtree.Holds archive layer) layer (Leaves.insert leaf (bs ++ ss ++ as)) := by
  rw [parts.insert_eq hlt]
  apply h.fill parts (leaf.between_apart left right)
  exact leaf.spells_between hlayer hleft hright

theorem insertAbove (hhigher : layer < config.layerOf leaf.key)
    (hleft : Spells config (Subtree.Holds archive (layer + 1)) (layer + 1) (Entry.ofTree? left)
      (Leaves.before leaf.key ls))
    (hright : Spells config (Subtree.Holds archive (layer + 1)) (layer + 1) (Entry.ofTree? right)
      (Leaves.after leaf.key ls)) :
    NodeOf.Holds archive (Subtree.Holds archive (config.layerOf leaf.key)) (config.layerOf leaf.key)
      { entries := leaf.between (left.map (·.raise layer (config.layerOf leaf.key - layer - 1)))
          (right.map (·.raise layer (config.layerOf leaf.key - layer - 1)))
        layer := some (config.layerOf leaf.key) } (Leaves.insert leaf ls) := by
  have hheight : layer + (config.layerOf leaf.key - layer - 1) + 1 = config.layerOf leaf.key := by
    omega
  have hleft := hleft.raise (n := config.layerOf leaf.key - layer - 1)
  have hright := hright.raise (n := config.layerOf leaf.key - layer - 1)
  rw [hheight] at hleft hright
  apply NodeOf.Holds.of_spells (leaf.between_apart _ _)
  exact leaf.spells_between rfl hleft hright

end NodeOf.Holds

theorem Subtree.Holds.raise_single (hlower : config.layerOf leaf.key < layer) :
    ((Subtree.ofEntries [.leaf leaf] (some (config.layerOf leaf.key))).raise
      (config.layerOf leaf.key) (layer - 1 - config.layerOf leaf.key)).Holds archive layer
      [leaf] := by
  have hheight : config.layerOf leaf.key + (layer - 1 - config.layerOf leaf.key) + 1 = layer := by
    omega
  have hchild := (single leaf rfl : Holds archive _ _ _).raise (List.cons_ne_nil leaf [])
    (n := layer - 1 - config.layerOf leaf.key)
  rwa [hheight] at hchild

theorem Subtree.Holds.add (h : t.Holds archive height ls) (hls : Listing ls)
    (hstore : archive.Agrees store) :
    Settles (t.Readable store config) (t.add store config leaf (config.layerOf leaf.key))
      (fun node => (∀ l ∈ ls, l.key ≠ leaf.key) ∧
        (Subtree.resolved node).Holds archive (max height (config.layerOf leaf.key + 1))
          (Leaves.insert leaf ls)) (fun e =>
            e = .keyExists leaf.key ∧ ∃ l ∈ ls, l.key = leaf.key) := by
  induction height generalizing t ls with
  | zero => exact h.elim
  | succ layer ih =>
    rw [Subtree.add]
    apply ((h.resolve hls hstore).settles id).bind
    rintro ⟨node, covers⟩ ⟨hnode, hreadable⟩
    dsimp only at hnode hreadable ⊢
    obtain ⟨bs, ss, as, rfl, parts⟩ := hnode.exists_parts hls leaf.key
    have hbelow : ∀ below, (node.gap leaf.key).subtree = some below → t.Readable store config →
        below.Readable store config :=
      fun below hsubtree havailable => hreadable havailable below (NodeOf.tree_mem_of_gap hsubtree)
    rw [hnode.layerOf covers, pure_bind]
    split
    -- The leaf belongs into this node, and splits the subtree in its place.
    · next hlayer =>
      rw [hlayer, max_self]
      split
      · next hfound =>
        obtain ⟨⟨found, rest⟩, hfound⟩ := Option.isSome_iff_exists.1 hfound
        obtain ⟨_, rfl, hkey, -⟩ := parts.of_found hfound
        apply Settles.throw
        refine ⟨rfl, found, ?_, hkey⟩
        simp
      · next hfound =>
        have hlt := parts.lt_after hls.right (by simpa using hfound)
        split
        · next below hsubtree =>
          obtain ⟨hheld, -, hlow⟩ := parts.of_subtree_some hsubtree
          have hne : ∀ l ∈ ss, l.key ≠ leaf.key := by
            intro l hl
            apply Config.key_ne_of_layer_ne
            rw [hlayer]
            exact (hlow l hl).ne
          apply ((hheld.split hls.left.right hstore hne).settles (hbelow below hsubtree)).bind
          rintro ⟨left, right⟩ ⟨hleft, hright⟩
          apply Settles.pure
          exact ⟨parts.forall_ne hne hlt, hnode.insertHere parts hlt hlayer hleft hright⟩
        · next hsubtree =>
          cases parts.of_subtree_none hsubtree
          have hnone : Spells config (Subtree.Holds archive layer) layer (Entry.ofTree? none) [] :=
            .nil
          apply Settles.pure
          exact ⟨parts.forall_ne (List.forall_mem_nil _) hlt,
            hnode.insertHere parts hlt hlayer hnone hnone⟩
    · next hlayer =>
      split
      -- It belongs below this node.
      · next hlower =>
        have hlt := parts.lt_after hls.right (parts.found?_eq_none hlayer)
        rw [max_eq_left (Nat.succ_le_succ hlower.le)]
        split
        · next below hsubtree =>
          obtain ⟨hheld, -, hlow⟩ := parts.of_subtree_some hsubtree
          apply ((ih hheld hls.left.right).imp (hbelow below hsubtree) (fun _ => id) _).bind
          · rintro child ⟨hne, hchild⟩
            rw [max_eq_left (Nat.succ_le_of_lt hlower)] at hchild
            apply Settles.pure
            exact ⟨parts.forall_ne hne hlt, hnode.insertBelow parts hlt hlower hlow hchild⟩
          · rintro _ ⟨rfl, l, hl, hkey⟩
            refine ⟨rfl, l, ?_, hkey⟩
            simp [hl]
        · next hsubtree =>
          cases parts.of_subtree_none hsubtree
          apply Settles.pure
          refine ⟨parts.forall_ne (List.forall_mem_nil _) hlt, ?_⟩
          exact hnode.insertBelow parts hlt hlower (List.forall_mem_nil _) (raise_single hlower)
      -- It belongs above this node, and splits all of it.
      · next hlower =>
        have hhigher : layer < config.layerOf leaf.key := by omega
        have hne : ∀ l ∈ bs ++ ss ++ as, l.key ≠ leaf.key := by
          intro l hl
          apply Config.key_ne_of_layer_ne
          exact ((hnode.spells.layer_le l hl).trans_lt hhigher).ne
        have hresolved : (Subtree.resolved node).Holds archive (layer + 1) (bs ++ ss ++ as) := hnode
        rw [max_eq_right (Nat.succ_le_succ hhigher.le)]
        apply ((hresolved.split hls hstore hne).settles _).bind
        · rintro ⟨left, right⟩ ⟨hleft, hright⟩
          apply Settles.pure
          exact ⟨hne, NodeOf.Holds.insertAbove hhigher hleft hright⟩
        · exact fun havailable => Subtree.readable_resolved (hreadable havailable)

end MerkleSearch
