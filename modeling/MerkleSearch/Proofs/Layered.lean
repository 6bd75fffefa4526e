import MerkleSearch.Proofs.Accepted
import MerkleSearch.Proofs.Faults

/-!
This module contains what is known about the layers of nodes whoever stored them. Where a layer is
known, every node that can be fetched below it is on the layer that is due there (`Subtree.Hinted`,
`Subtree.Layered`); nothing can be known only of a chain of nodes without keys (`Subtree.Bare`). Any
address leads to one or the other.
-/

namespace MerkleSearch

variable {config : Config} {store : Blockstore Id} {layer height : Nat} {address : Cid}
variable {hint : Hint} {record : NodeRecord} {node : Node} {t : Subtree}

def Entry.On (config : Config) (below : Subtree → Prop) (layer : Nat) : NodeEntry → Prop
  | .leaf l => config.layerOf l.key = layer
  | .tree t => below t

structure NodeOf.Layered (config : Config) (below : Subtree → Prop) (layer : Nat)
    (node : Node) : Prop where
  layer_eq : node.layer = none ∨ node.layer = some layer
  entries : ∀ e ∈ node.entries, e.On config below layer

def NodeOf.Told (node : Node) : Prop := node.layer = none → node.entries ≠ []

theorem NodeOf.Told.of_layer {node : Node} {n : Nat} (h : node.layer = some n) : node.Told :=
  fun hnone => absurd (h.symm.trans hnone) (Option.some_ne_none n)

/--
The nodes in memory are on the layers below the height, one below the other, and wherever only the
address of a subtree is known its layer is noted. This says the same of every store.
-/
def Subtree.Hinted (config : Config) : (height : Nat) → Subtree → Prop
  | 0, _ => False
  | layer + 1, .resolved node => node.Layered config (Hinted config layer) layer ∧ node.Told
  | layer + 1, .unresolved _ hint => hint = .layer layer

/--
As far as the subtree can be fetched from the store, its nodes are on the layers below the height.
Layers that are not noted are those of nodes that lead to a single other one.
-/
def Subtree.Layered (store : Blockstore Id) (config : Config) : (height : Nat) → Subtree → Prop
  | 0, _ => False
  | layer + 1, t =>
    (∀ k, t.hintedLayer? = some k → k = layer) ∧ ∀ n, (t.resolve store config).run = .ok n →
      n.val.Layered config (Hinted config layer) layer ∧ n.val.Told ∨
        n.val.layer = none ∧ ∃ c, n.val.entries = [.tree c] ∧ Layered store config layer c

/--
One node below the other without a key or a known layer, down to one that is empty.
-/
inductive Subtree.Bare (store : Blockstore Id) (config : Config) : Subtree → Prop
  | intro {t : Subtree} {n : { node : Node // t.Covers node }} {below : Option Subtree}
    (hn : (t.resolve store config).run = .ok n) (hlayer : n.val.layer = none)
    (hentries : n.val.entries = Entry.ofTree? below) (h : ∀ c ∈ below, Bare store config c) :
    Bare store config t

theorem NodeRecord.key_mem_of_mem_toEntries {keys : List String} {l : Leaf}
    (h : .leaf l ∈ record.toEntries keys) :
    l.key ∈ keys := by
  rw [toEntries_eq, List.mem_append, List.mem_flatMap] at h
  rcases h with h | ⟨⟨leaf, key⟩, hmem, h⟩
  · cases hleft : record.left with
    | none =>
      rw [hleft] at h
      cases h
    | some left =>
      rw [hleft] at h
      cases h with | tail _ h => cases h
  · rcases List.mem_cons.1 h with h | h
    · cases h
      exact (List.of_mem_zip hmem).2
    · cases hright : leaf.right with
      | none =>
        rw [hright] at h
        cases h
      | some right =>
        rw [hright] at h
        cases h with | tail _ h => cases h

namespace NodeOf

theorem exists_described (h : ofStored config address hint record = .ok node) :
    ∃ keys, record.Sound config hint.layer? keys ∧
      node = { described config hint record keys with address := some address } := by
  unfold ofStored at h
  obtain ⟨bare, hbare, h⟩ := exists_of_bind_eq_ok h
  obtain ⟨keys, hsound, rfl⟩ := ofRecord_iff_exists.1 hbare
  exact ⟨keys, hsound, (Except.ok.inj h).symm⟩

theorem layer_eq_of_hint (h : ofStored config address hint record = .ok node)
    (hhint : hint.layer? = some layer) :
    node.layer = some layer := by
  obtain ⟨keys, -, rfl⟩ := exists_described h
  show NodeRecord.layer? config hint.layer? keys = some layer
  rw [hhint]
  rfl

theorem layer_eq_of_leaf (h : ofStored config address hint record = .ok node) {l : Leaf}
    (hl : .leaf l ∈ node.entries) :
    node.layer = some (config.layerOf l.key) := by
  obtain ⟨keys, hsound, rfl⟩ := exists_described h
  obtain ⟨_ | _, hmem, heq⟩ := List.mem_map.1 hl <;> cases heq
  exact hsound.layer _ (NodeRecord.key_mem_of_mem_toEntries hmem)

theorem on_of_ofStored (h : ofStored config address hint record = .ok node)
    (hlayer : node.layer = some layer) :
    ∀ e ∈ node.entries,
      e.On config (fun c => ∃ n address, layer = n + 1 ∧ c = .unresolved address (.layer n))
      layer := by
  intro e he
  cases e with
  | leaf l => exact Option.some.inj ((layer_eq_of_leaf h he).symm.trans hlayer)
  | tree c =>
    obtain ⟨keys, hsound, rfl⟩ := exists_described h
    have hlayer : NodeRecord.layer? config hint.layer? keys = some layer := hlayer
    rcases below_of_mem_described hsound he with ⟨n, hn, hhint⟩ | ⟨hnone, -⟩
    · obtain ⟨_ | _, -, heq⟩ := List.mem_map.1 he <;> cases heq
      rw [hhint]
      exact ⟨n, _, Option.some.inj (hlayer.symm.trans hn), rfl⟩
    · cases hnone.symm.trans hlayer

theorem entries_of_layer_eq_none {descents : Nat}
    (h : ofStored config address (.unknown descents) record = .ok node)
    (hlayer : node.layer = none) :
    ∃ left : Option Cid,
      node.entries = Entry.ofTree? (left.map (.unresolved · (.unknown (descents - 1)))) := by
  obtain ⟨keys, -, rfl⟩ := exists_described h
  cases keys with
  | cons key keys => cases hlayer
  | nil =>
    refine ⟨record.left, ?_⟩
    show (described config (.unknown descents) record []).entries = _
    unfold described
    rw [NodeRecord.toEntries_eq, List.zip_nil_right, List.flatMap_nil, List.append_nil]
    cases record.left <;> rfl

theorem hinted_of_ofStored (h : ofStored config address hint record = .ok node)
    (hlayer : node.layer = some layer) :
    node.Layered config (Subtree.Hinted config layer) layer ∧ node.Told := by
  refine ⟨⟨.inr hlayer, fun e he => ?_⟩, .of_layer hlayer⟩
  have hon := on_of_ofStored h hlayer e he
  cases e with
  | leaf l => exact hon
  | tree c =>
    obtain ⟨below, address, rfl, rfl⟩ := hon
    rfl

end NodeOf

namespace Subtree

theorem layer_eq_of_hint {n : { node : Node // t.Covers node }}
    (hn : (t.resolve store config).run = .ok n) (hhint : t.hintedLayer? = some layer) :
    n.val.layer = some layer := by
  cases t with
  | resolved node => cases hhint
  | unresolved address hint =>
    obtain ⟨-, _, _, -, -, -, hstored⟩ := resolve_unresolved hn
    exact NodeOf.layer_eq_of_hint hstored hhint

namespace Hinted

theorem of_resolve (h : t.Hinted config (layer + 1)) {n : { node : Node // t.Covers node }}
    (hn : (t.resolve store config).run = .ok n) :
    n.val.Layered config (Hinted config layer) layer ∧ n.val.Told := by
  match t, h, n, hn with
  | .resolved node, h, _, rfl => exact h
  | .unresolved address hint, h, n, hn =>
    have hlayer : hint = .layer layer := h
    have hknown := layer_eq_of_hint hn (congrArg Hint.layer? hlayer)
    obtain ⟨-, _, _, -, -, -, hstored⟩ := resolve_unresolved hn
    exact NodeOf.hinted_of_ofStored hstored hknown

theorem layered (h : t.Hinted config height) : t.Layered store config height := by
  cases height with
  | zero => exact h
  | succ layer =>
    refine ⟨fun k hk => ?_, fun n hn => .inl (h.of_resolve hn)⟩
    match t, h with
    | .resolved node, _ => cases hk
    | .unresolved address hint, h =>
      have hlayer : hint = .layer layer := h
      cases hlayer
      exact (Option.some.inj hk).symm

end Hinted

theorem layered_of_resolve {n : { node : Node // (unresolved address hint).Covers node }}
    (hn : ((unresolved address hint).resolve store config).run = .ok n)
    (hlayer : n.val.layer = some layer) :
    (unresolved address hint).Layered store config (layer + 1) := by
  constructor
  · intro k hk
    exact Option.some.inj ((layer_eq_of_hint hn hk).symm.trans hlayer)
  · intro n' hn'
    cases hn.symm.trans hn'
    obtain ⟨-, _, _, -, -, -, hstored⟩ := resolve_unresolved hn
    exact .inl (NodeOf.hinted_of_ofStored hstored hlayer)

theorem Layered.over {c : Subtree} {n : { node : Node // t.Covers node }}
    (h : c.Layered store config height) (hn : (t.resolve store config).run = .ok n)
    (hhint : t.hintedLayer? = none) (hlayer : n.val.layer = none)
    (hentries : n.val.entries = [.tree c]) :
    t.Layered store config (height + 1) := by
  constructor
  · intro k hk
    cases hhint.symm.trans hk
  · intro n' hn'
    cases hn.symm.trans hn'
    exact .inr ⟨hlayer, c, hentries, h⟩

theorem exists_layered_or_bare (store : Blockstore Id) (config : Config) (address : Cid)
    (descents : Nat) :
    (∃ height, (unresolved address (.unknown descents)).Layered store config height) ∨
      (unresolved address (.unknown descents)).Bare store config := by
  induction descents using Nat.strong_induction_on generalizing address with
  | h descents ih =>
    cases hrun : ((unresolved address (.unknown descents)).resolve store config).run with
    | error e =>
      refine .inl ⟨1, nofun, fun n hn => ?_⟩
      cases hrun.symm.trans hn
    | ok n =>
      cases hlayer : n.val.layer with
      | some layer => exact .inl ⟨layer + 1, layered_of_resolve hrun hlayer⟩
      | none =>
        obtain ⟨hhint, _, _, -, -, -, hstored⟩ := resolve_unresolved hrun
        obtain ⟨left, hentries⟩ := NodeOf.entries_of_layer_eq_none hstored hlayer
        cases left with
        | none => exact .inr (.intro hrun hlayer hentries nofun)
        | some left =>
          have hlt : descents - 1 < descents := by
            apply Nat.sub_one_lt
            rintro rfl
            exact hhint rfl
          rcases ih (descents - 1) hlt left with ⟨height, hlayered⟩ | hbare
          · exact .inl ⟨height + 1, hlayered.over hrun rfl hlayer hentries⟩
          · refine .inr (.intro hrun hlayer hentries ?_)
            rintro _ ⟨⟩
            exact hbare

end Subtree

end MerkleSearch
