import Mathlib.Data.List.Chain
import MerkleSearch.Proofs.Record
import MerkleSearch.Tree

/-!
This module contains the one shape that a tree with given leaves can have. A node on a layer has the
leaves of that layer, and between them a subtree for each run of leaves below it; the leaves of a
tree thus decide on its nodes, and on the blocks and addresses of these.
-/

namespace MerkleSearch

variable {config : Config} {layer : Nat} {ls ts : List Leaf}

namespace Entry

inductive Rel {α β : Type} (R : α → β → Prop) : Entry α → Entry β → Prop
  | tree {a : α} {b : β} (h : R a b) : Rel R (.tree a) (.tree b)
  | leaf (l : Leaf) : Rel R (.leaf l) (.leaf l)

theorem Rel.isTree_eq {α β : Type} {R : α → β → Prop} {a : Entry α} {b : Entry β} (h : Rel R a b) :
    a.isTree = b.isTree := by
  cases h <;> rfl

theorem Rel.map_eq {α β γ : Type} {R : α → β → Prop} {f : α → γ} {g : β → γ} {a : Entry α}
    {b : Entry β} (h : Rel R a b) (hR : ∀ a b, R a b → f a = g b) :
    a.map f = b.map g := by
  cases h with
  | tree h => rw [map_tree, map_tree, hR _ _ h]
  | leaf => rfl

theorem Rel.flip {α β : Type} {R : α → β → Prop} {a : Entry α} {b : Entry β} (h : Rel R a b) :
    Rel (flip R) b a := by
  cases h with
  | tree h => exact .tree h
  | leaf l => exact .leaf l

theorem Rel.map_left {α β γ : Type} {R : γ → β → Prop} {f : α → γ} {a : Entry α} {b : Entry β}
    (h : Rel (fun a b => R (f a) b) a b) : Rel R (a.map f) b := by
  cases h with
  | tree h => exact .tree h
  | leaf l => exact .leaf l

theorem isChain_apart_map {α β : Type} (f : α → β) {es : List (Entry α)} :
    (es.map (map f)).IsChain Apart ↔ es.IsChain Apart := by
  simp only [List.isChain_map, apart_map]

theorem map_comp_map {α β γ : Type} (f : α → β) (g : β → γ) : map g ∘ map f = map (g ∘ f) := by
  funext e
  exact map_map f g e

theorem map_id {α : Type} : map (id : α → α) = id := by
  funext e
  cases e <;> rfl

theorem forall₂_of_map_eq {α β γ : Type} {R : α → β → Prop} {f : α → γ} {g : β → γ}
    {as : List (Entry α)} {bs : List (Entry β)} (h : as.map (map f) = bs.map (map g))
    (hR : ∀ a b, f a = g b → .tree a ∈ as → .tree b ∈ bs → R a b) :
    List.Forall₂ (Rel R) as bs := by
  induction as generalizing bs with
  | nil =>
    rw [List.map_nil, eq_comm, List.map_eq_nil_iff] at h
    rw [h]
    exact .nil
  | cons a as ih =>
    rw [List.map_cons, eq_comm, List.map_eq_cons_iff] at h
    obtain ⟨b, bs, rfl, hab, h⟩ := h
    have hrest := ih h.symm fun a b heq ha hb =>
      hR a b heq (List.mem_cons_of_mem _ ha) (List.mem_cons_of_mem _ hb)
    refine .cons ?_ hrest
    cases a <;> cases b <;> simp only [map_tree, map_leaf, tree.injEq, leaf.injEq,
      reduceCtorEq] at hab
    · exact .tree (hR _ _ hab.symm List.mem_cons_self List.mem_cons_self)
    · rw [hab]
      exact .leaf _

theorem exists_tree_of_forall₂ {α β : Type} {R : α → β → Prop} {as : List (Entry α)}
    {bs : List (Entry β)} (h : List.Forall₂ (Rel R) as bs) {b : β} (hb : .tree b ∈ bs) :
    ∃ a, .tree a ∈ as ∧ R a b := by
  induction h with
  | nil => cases hb
  | cons hrel _ ih =>
    rcases List.mem_cons.1 hb with rfl | hb
    · cases hrel with
      | tree hR => exact ⟨_, List.mem_cons_self, hR⟩
    · obtain ⟨a, ha, hR⟩ := ih hb
      exact ⟨a, List.mem_cons_of_mem _ ha, hR⟩

theorem exists_tree_of_forall₂_left {α β : Type} {R : α → β → Prop} {as : List (Entry α)}
    {bs : List (Entry β)} (h : List.Forall₂ (Rel R) as bs) {a : α} (ha : .tree a ∈ as) :
    ∃ b, .tree b ∈ bs ∧ R a b := by
  have hflip : List.Forall₂ (Rel (flip R)) bs as := (h.imp fun _ _ => Rel.flip).flip
  exact exists_tree_of_forall₂ hflip ha

theorem forall₂_imp {α β : Type} {R S : α → β → Prop} {as : List (Entry α)} {bs : List (Entry β)}
    (h : List.Forall₂ (Rel R) as bs) (himp : ∀ a b, R a b → .tree a ∈ as → .tree b ∈ bs → S a b) :
    List.Forall₂ (Rel S) as bs := by
  induction h with
  | nil => exact .nil
  | cons hrel _ ih =>
    apply List.Forall₂.cons
    · cases hrel with
      | tree hR => exact .tree (himp _ _ hR List.mem_cons_self List.mem_cons_self)
      | leaf l => exact .leaf l
    · apply ih
      exact fun a b hR ha hb => himp a b hR (List.mem_cons_of_mem _ ha) (List.mem_cons_of_mem _ hb)

theorem forall₂_join {α β γ : Type} {R : α → γ → Prop} {S : β → γ → Prop} {as : List (Entry α)}
    {bs : List (Entry β)} {cs : List (Entry γ)} (h : List.Forall₂ (Rel R) as cs)
    (h' : List.Forall₂ (Rel S) bs cs) :
    List.Forall₂ (Rel fun a b => ∃ c, .tree c ∈ cs ∧ R a c ∧ S b c) as bs := by
  induction h generalizing bs with
  | nil =>
    cases h'
    exact .nil
  | cons hrel _ ih =>
    cases h' with
    | cons hrel' hrest' =>
      apply List.Forall₂.cons
      · cases hrel with
        | tree hR =>
          cases hrel' with
          | tree hS => exact .tree ⟨_, List.mem_cons_self, hR, hS⟩
        | leaf l =>
          cases hrel'
          exact .leaf l
      · apply forall₂_imp (ih hrest')
        rintro a b ⟨c, hc, hboth⟩ - -
        exact ⟨c, List.mem_cons_of_mem _ hc, hboth⟩

theorem Rel.map_right {α β γ : Type} {R : α → γ → Prop} {f : β → γ} {a : Entry α} {b : Entry β}
    (h : Rel (fun a b => R a (f b)) a b) : Rel R a (b.map f) := by
  cases h with
  | tree h => exact .tree h
  | leaf l => exact .leaf l

theorem leaves_eq_of_forall₂ {α β : Type} {R : α → β → Prop} {as : List (Entry α)}
    {bs : List (Entry β)} (h : List.Forall₂ (Rel R) as bs) :
    leaves as = leaves bs := by
  induction h with
  | nil => rfl
  | cons hrel _ ih =>
    cases hrel with
    | tree => exact ih
    | leaf l => exact congrArg (l :: ·) ih

theorem map_eq_of_forall₂ {α β γ : Type} {R : α → β → Prop} {f : α → γ} {g : β → γ}
    {as : List (Entry α)} {bs : List (Entry β)} (h : List.Forall₂ (Rel R) as bs)
    (hR : ∀ a b, R a b → f a = g b) :
    as.map (map f) = bs.map (map g) := by
  induction h with
  | nil => rfl
  | cons hrel _ ih => rw [List.map_cons, List.map_cons, hrel.map_eq hR, ih]

end Entry

namespace Leaves

/--
The leaves of a node on `layer`, and between them the leaves of each subtree.
-/
def groups (config : Config) (layer : Nat) : List Leaf → List (Entry (List Leaf))
  | [] => []
  | l :: ls =>
    if config.layerOf l.key = layer then
      .leaf l :: groups config layer ls
    else
      match groups config layer ls with
      | .tree below :: rest => .tree (l :: below) :: rest
      | rest => .tree [l] :: rest

theorem groups_append (hts : ts ≠ []) (hlow : ∀ l ∈ ts, config.layerOf l.key < layer)
    (hls : ∀ e ∈ (groups config layer ls).head?, e.isTree = false) :
    groups config layer (ts ++ ls) = .tree ts :: groups config layer ls := by
  induction ts with
  | nil => exact absurd rfl hts
  | cons l ts ih =>
    simp only [List.mem_cons, forall_eq_or_imp] at hlow
    rw [List.cons_append, groups, if_neg hlow.1.ne]
    by_cases hnil : ts = []
    · subst hnil
      rw [List.nil_append]
      split
      · next heq =>
        rw [heq] at hls
        simp [Entry.isTree] at hls
      · rfl
    · rw [ih hnil hlow.2]

theorem mem_groups (config : Config) (layer : Nat) {l : Leaf} (hl : l ∈ ls) :
    .leaf l ∈ groups config layer ls ∧ config.layerOf l.key = layer ∨
      ∃ ts, .tree ts ∈ groups config layer ls ∧ l ∈ ts := by
  induction ls with
  | nil => cases hl
  | cons k ls ih =>
    unfold groups
    split
    · next hlayer =>
      rcases List.mem_cons.1 hl with rfl | hl
      · exact .inl ⟨List.mem_cons_self, hlayer⟩
      · rcases ih hl with ⟨hmem, hlayer⟩ | ⟨ts, hmem, hl⟩
        · exact .inl ⟨List.mem_cons_of_mem _ hmem, hlayer⟩
        · exact .inr ⟨ts, List.mem_cons_of_mem _ hmem, hl⟩
    · split
      · next below rest heq =>
        rcases List.mem_cons.1 hl with rfl | hl
        · exact .inr ⟨l :: below, List.mem_cons_self, List.mem_cons_self⟩
        · rw [heq] at ih
          rcases ih hl with ⟨hmem, hlayer⟩ | ⟨ts, hmem, hl⟩
          · simp only [List.mem_cons, reduceCtorEq, false_or] at hmem
            exact .inl ⟨List.mem_cons_of_mem _ hmem, hlayer⟩
          · rw [List.mem_cons, Entry.tree.injEq] at hmem
            rcases hmem with rfl | hmem
            · exact .inr ⟨k :: ts, List.mem_cons_self, List.mem_cons_of_mem _ hl⟩
            · exact .inr ⟨ts, List.mem_cons_of_mem _ hmem, hl⟩
      · rcases List.mem_cons.1 hl with rfl | hl
        · exact .inr ⟨[l], List.mem_cons_self, List.mem_cons_self⟩
        · rcases ih hl with ⟨hmem, hlayer⟩ | ⟨ts, hmem, hl⟩
          · exact .inl ⟨List.mem_cons_of_mem _ hmem, hlayer⟩
          · exact .inr ⟨ts, List.mem_cons_of_mem _ hmem, hl⟩

end Leaves

/--
A subtree of the given height with the given leaves; its node is on the layer below that number.
-/
def canonical (config : Config) : (height : Nat) → List Leaf → Subtree
  | 0, _ => .ofEntries [] none
  | layer + 1, ls =>
    .ofEntries ((Leaves.groups config layer ls).map (Entry.map (canonical config layer)))
      (some layer)

def canonicalNode (config : Config) (layer : Nat) (ls : List Leaf) : Node where
  entries := (Leaves.groups config layer ls).map (Entry.map (canonical config layer))
  layer := some layer

def canonicalBlock (config : Config) (layer : Nat) (ls : List Leaf) : Except Error Block :=
  (canonicalNode config layer ls).block config

theorem NodeCodec.block_eq_ok {codec : NodeCodec} {record : NodeRecord} {block : Block} :
    codec.block record = .ok block ↔
      codec.encode record = .ok block.bytes ∧ codec.address block.bytes = .ok block.address := by
  constructor
  · intro h
    obtain ⟨bytes, hencode, h⟩ := exists_of_bind_eq_ok h
    obtain ⟨address, haddress, h⟩ := exists_of_bind_eq_ok h
    cases h
    exact ⟨mapError_eq_ok.1 hencode, mapError_eq_ok.1 haddress⟩
  · rintro ⟨hencode, haddress⟩
    unfold NodeCodec.block
    rw [mapError_eq_ok.2 hencode]
    simp only [bind, Except.bind, mapError_eq_ok.2 haddress]
    rfl

theorem entryAddresses_eq_map (es : List NodeEntry) :
    entryAddresses config es = es.map (Entry.map (Subtree.address config)) := by
  induction es with
  | nil => rfl
  | cons e es ih => cases e <;> simp [entryAddresses, ih]

theorem Subtree.address_resolved {node : Node} (h : node.address = none) :
    (Subtree.resolved node).address config = return (← node.block config).address := by
  obtain ⟨es, layer, address, serial⟩ := node
  cases h
  rw [Subtree.address, NodeOf.block, NodeOf.record, bind_assoc]

theorem address_canonical :
    (canonical config (layer + 1) ls).address config =
      return (← canonicalBlock config layer ls).address :=
  Subtree.address_resolved rfl

end MerkleSearch
