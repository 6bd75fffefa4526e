import MerkleSearch.Proofs.Built
import MerkleSearch.Proofs.Equations
import MerkleSearch.Proofs.Layered
import MerkleSearch.Proofs.Table

/-!
This module contains the fact that two subtrees are only merged if they are on the same layer. That
a merge asks for it is a check of what every edit keeps: the subtrees of a node are all one layer
below it.
-/

namespace MerkleSearch

section

variable {config : Config} {store : Blockstore Id} {layer height keyLayer : Nat} {key : String}
variable {leaf : Leaf} {node : Node} {t left right : Subtree} {part : Option Subtree}
variable {es es' : List NodeEntry} {e : Error}

def Error.NotAcross (e : Error) : Prop :=
  ∀ left right, e ≠ .malformedNode (.mergeAcrossLayers left right)

theorem Error.InFetch.notAcross (h : e.InFetch) : e.NotAcross := by
  rintro left right rfl
  rcases h.of_malformedNode with heq | ⟨_, _, heq⟩ | hrecord
  · cases heq
  · cases heq
  · cases hrecord

theorem Settles.findSomeM? {α β : Type} {available : Prop} {f : α → ExceptT Error Id (Option β)}
    {as : List α} {b : β} {E : Error → Prop} (hne : as ≠ [])
    (h : ∀ a ∈ as, Settles available (f a) (· = some b) E) :
    Settles available (as.findSomeM? f) (· = some b) E := by
  cases as with
  | nil => exact (hne rfl).elim
  | cons a as =>
    rw [List.findSomeM?]
    apply (h a List.mem_cons_self).bind
    rintro _ rfl
    exact Settles.pure rfl

theorem Settles.findSomeM?_none {α β : Type} {available : Prop}
    {f : α → ExceptT Error Id (Option β)} {as : List α} {E : Error → Prop}
    (h : ∀ a ∈ as, Settles available (f a) (· = none) E) :
    Settles available (as.findSomeM? f) (· = none) E := by
  induction as with
  | nil => exact Settles.pure rfl
  | cons a as ih =>
    rw [List.findSomeM?]
    apply (h a List.mem_cons_self).bind
    rintro _ rfl
    exact ih fun b hb => h b (List.mem_cons_of_mem _ hb)

namespace Subtree

theorem resolve_settles (t : Subtree) : Settles True (t.resolve store config)
    (fun n => (t.resolve store config).run = .ok n) Error.NotAcross := by
  unfold Settles
  split
  · next hn => exact hn
  · next he =>
    apply Or.inl
    rcases inFetch_of_resolve_error he with h | ⟨rfl, -⟩
    · exact h.notAcross
    · exact nofun

theorem Layered.of_resolve (h : t.Layered store config (layer + 1))
    {n : { node : Node // t.Covers node }} (hn : (t.resolve store config).run = .ok n) :
    n.val.Layered config (Subtree.Layered store config layer) layer ∧ n.val.Told := by
  rcases h.2 n hn with ⟨hnode, htold⟩ | ⟨hlayer, c, hentries, hc⟩
  · refine ⟨⟨hnode.layer_eq, fun e he => ?_⟩, htold⟩
    have hon := hnode.entries e he
    cases e with
    | leaf l => exact hon
    | tree c => exact Hinted.layered hon
  · rw [NodeOf.Told, hentries]
    refine ⟨⟨.inl hlayer, ?_⟩, fun _ => List.cons_ne_nil _ _⟩
    rw [hentries]
    exact List.forall_mem_singleton.2 hc

theorem Layered.resolved (h : t.Layered store config (layer + 1))
    {n : { node : Node // t.Covers node }} (hn : (t.resolve store config).run = .ok n) :
    (resolved n.val).Layered store config (layer + 1) := by
  refine ⟨nofun, fun n' hn' => ?_⟩
  cases hn'
  exact h.2 n hn

theorem Layered.layer? (h : t.Layered store config (layer + 1))
    {n : { node : Node // t.Covers node }} (hn : (t.resolve store config).run = .ok n) :
    Settles True (t.layer? store config n.val n.property) (· = some layer) Error.NotAcross := by
  induction layer using Nat.strong_induction_on generalizing t n with
  | h layer ih =>
    obtain ⟨hnode, htold⟩ := h.of_resolve hn
    rw [Subtree.layer?]
    split
    · next k hk =>
      rcases hnode.layer_eq with hnone | hsome
      · cases hk.symm.trans hnone
      · exact Settles.pure (hk.symm.trans hsome)
    · next l rest _ hleaves =>
      have hl : l ∈ n.val.leaves := by
        rw [hleaves]
        exact List.mem_cons_self
      obtain ⟨_ | _, hmem, heq⟩ := List.mem_filterMap.1 hl <;> cases heq
      exact Settles.pure (congrArg some (hnode.entries _ hmem))
    -- There are only subtrees, and there is one, so the first of them tells the layer.
    · next hlayer hleaves =>
      have hsubtrees : n.val.subtrees ≠ [] := by
        obtain ⟨e, he⟩ := List.exists_mem_of_ne_nil _ (htold hlayer)
        cases e with
        | tree c => exact List.ne_nil_of_mem (NodeOf.mem_subtrees.2 he)
        | leaf l =>
          have hl : l ∈ n.val.leaves := List.mem_filterMap.2 ⟨_, he, rfl⟩
          rw [hleaves] at hl
          cases hl
      apply Settles.findSomeM? (by simpa using hsubtrees)
      rintro ⟨c, hc⟩ -
      have hlayered : c.Layered store config layer := hnode.entries _ (NodeOf.mem_subtrees.1 hc)
      cases layer with
      | zero => exact hlayered.elim
      | succ below =>
        dsimp only
        split
        · next k hk =>
          rw [hlayered.1 k hk]
          exact Settles.pure rfl
        · apply c.resolve_settles.bind
          intro child hchild
          apply (ih below (Nat.lt_succ_self below) hlayered hchild).bind
          rintro _ rfl
          exact Settles.pure rfl

theorem Layered.layerOf (h : t.Layered store config (layer + 1))
    {n : { node : Node // t.Covers node }} (hn : (t.resolve store config).run = .ok n) :
    Settles True (t.layerOf store config n.val n.property) (· = layer) Error.NotAcross := by
  apply (h.layer? hn).bind
  rintro _ rfl
  exact Settles.pure rfl

end Subtree

abbrev AllOn (config : Config) (layer : Nat) (es : List NodeEntry) : Prop :=
  ∀ e ∈ es, e.On config (Subtree.Hinted config layer) layer

theorem allOn_append :
    AllOn config layer (es ++ es') ↔ AllOn config layer es ∧ AllOn config layer es' :=
  List.forall_mem_append

theorem allOn_ofTree? {part : Option Subtree} :
    AllOn config layer (Entry.ofTree? part) ↔ ∀ t ∈ part, t.Hinted config layer := by
  cases part with
  | none => exact ⟨fun _ => nofun, fun _ => nofun⟩
  | some t =>
    constructor
    · rintro h _ ⟨⟩
      exact h _ List.mem_cons_self
    · intro h
      exact List.forall_mem_singleton.2 (h t rfl)

theorem allOn_gap (h : AllOn config layer node.entries) (key : String) :
    AllOn config layer (node.gap key).before ∧
    (∀ t ∈ (node.gap key).subtree, t.Hinted config layer) ∧
      AllOn config layer (node.gap key).after := by
  rw [← Gap.entries_of key node.entries, Gap.entries, Gap.fill, allOn_append, allOn_append,
    allOn_ofTree?, and_assoc] at h
  exact h

namespace NodeOf

/--
Nothing is asked of the subtree that the key belongs into.
-/
structure Sided (config : Config) (layer : Nat) (node : Node) (key : String) : Prop where
  layer_eq : node.layer = none ∨ node.layer = some layer
  before : AllOn config layer (node.gap key).before
  after : AllOn config layer (node.gap key).after

theorem gap_of_entries {below : Option Subtree} (hentries : node.entries = Entry.ofTree? below)
    (key : String) :
    node.gap key = ⟨[], below, []⟩ := by
  rw [NodeOf.gap, hentries]
  cases below <;> rfl

theorem Layered.resolved (h : node.Layered config (Subtree.Hinted config layer) layer)
    (htold : node.Told) :
    (Subtree.resolved node).Hinted config (layer + 1) :=
  ⟨h, htold⟩

theorem Layered.withAfter (h : node.Layered config (Subtree.Hinted config layer) layer)
    (key : String) (hes : AllOn config layer es) :
    (node.withEntries { node.gap key with after := es }.entries).Layered config
      (Subtree.Hinted config layer) layer := by
  obtain ⟨hbefore, hsubtree, -⟩ := allOn_gap h.entries key
  refine ⟨h.layer_eq, ?_⟩
  show AllOn config layer _
  rw [NodeOf.withEntries, Gap.entries, Gap.fill, allOn_append, allOn_append, allOn_ofTree?]
  exact ⟨⟨hbefore, hsubtree⟩, hes⟩

namespace Sided

theorem withEntries (h : node.Sided config layer key) (hes : AllOn config layer es) :
    (node.withEntries es).Layered config (Subtree.Hinted config layer) layer :=
  ⟨h.layer_eq, hes⟩

theorem fill (h : node.Sided config layer key) (hes : AllOn config layer es) :
    (node.withEntries ((node.gap key).fill es)).Layered config (Subtree.Hinted config layer)
      layer := by
  apply h.withEntries
  rw [Gap.fill, allOn_append, allOn_append]
  exact ⟨⟨h.before, hes⟩, h.after⟩

theorem filled (h : node.Sided config layer key) (hes : AllOn config layer es) (hne : es ≠ []) :
    (node.withEntries ((node.gap key).fill es)).Layered config (Subtree.Hinted config layer) layer ∧
      (node.withEntries ((node.gap key).fill es)).Told := by
  refine ⟨h.fill hes, fun _ => ?_⟩
  simp [NodeOf.withEntries, Gap.fill, hne]

theorem ofEntries? (h : node.Sided config layer key) (hes : AllOn config layer es) :
    ∀ t ∈ Subtree.ofEntries? es node.layer, t.Hinted config (layer + 1) := by
  unfold Subtree.ofEntries?
  split
  · exact nofun
  · next hne =>
    rw [List.isEmpty_iff] at hne
    rintro _ ⟨⟩
    have hlayered := h.withEntries hes
    exact hlayered.resolved fun _ => hne

end Sided

end NodeOf

theorem Subtree.Hinted.raise (h : t.Hinted config (layer + 1)) (n : Nat) :
    (t.raise layer n).Hinted config (layer + 1 + n) := by
  induction n with
  | zero => exact h
  | succ n ih =>
    have hnode : NodeOf.Layered config (Subtree.Hinted config (layer + 1 + n)) (layer + 1 + n)
        { entries := [.tree (t.raise layer n)], layer := some (layer + n + 1) } :=
      ⟨.inr (congrArg some (Nat.add_right_comm layer n 1)), List.forall_mem_singleton.2 ih⟩
    exact hnode.resolved (.of_layer rfl)

theorem Subtree.Hinted.merge (hleft : left.Hinted config (layer + 1))
    (hright : right.Hinted config (layer + 1)) :
    Settles True (left.merge store config right) (fun node =>
      node.Layered config (Subtree.Hinted config layer) layer ∧ node.Told) Error.NotAcross := by
  induction layer using Nat.strong_induction_on generalizing left right with
  | h layer ih =>
    rw [Subtree.merge_eq]
    apply left.resolve_settles.bind
    intro l hl
    apply right.resolve_settles.bind
    intro r hr
    apply (hleft.layered.layerOf hl).bind
    intro leftLayer hleftLayer
    apply (hright.layered.layerOf hr).bind
    intro rightLayer hrightLayer
    obtain ⟨hlnode, -⟩ := hleft.of_resolve hl
    obtain ⟨hrnode, -⟩ := hright.of_resolve hr
    rw [hleftLayer, hrightLayer, if_neg (not_not.2 rfl)]
    split
    -- The subtrees that meet are both one layer below.
    · next a b rest hlast hentries =>
      have ha : a.Hinted config layer := hlnode.entries _ (List.mem_of_getLast? hlast)
      have hrentries := hrnode.entries
      rw [hentries, List.forall_mem_cons] at hrentries
      cases layer with
      | zero => exact ha.elim
      | succ below =>
        apply (ih below (Nat.lt_succ_self below) ha hrentries.1).bind
        rintro merged ⟨hmerged, htold⟩
        refine Settles.pure ⟨⟨.inr rfl, ?_⟩, .of_layer rfl⟩
        rw [List.forall_mem_append, List.forall_mem_cons]
        refine ⟨fun e he => hlnode.entries e (List.dropLast_subset _ he), ?_, hrentries.2⟩
        exact hmerged.resolved htold
    · refine Settles.pure ⟨⟨.inr rfl, ?_⟩, .of_layer rfl⟩
      exact List.forall_mem_append.2 ⟨hlnode.entries, hrnode.entries⟩

namespace Subtree.Layered

theorem sided (h : t.Layered store config (layer + 1)) {n : { node : Node // t.Covers node }}
    (hn : (t.resolve store config).run = .ok n) (key : String) :
    n.val.Sided config layer key ∧ ∀ c ∈ (n.val.gap key).subtree, c.Layered store config layer := by
  rcases h.2 n hn with ⟨hnode, -⟩ | ⟨hlayer, c, hentries, hc⟩
  · obtain ⟨hbefore, hsubtree, hafter⟩ := allOn_gap hnode.entries key
    exact ⟨⟨hnode.layer_eq, hbefore, hafter⟩, fun c hc => (hsubtree c hc).layered⟩
  · have hentries : n.val.entries = Entry.ofTree? (some c) := hentries
    have hgap := NodeOf.gap_of_entries hentries key
    refine ⟨⟨.inl hlayer, ?_, ?_⟩, ?_⟩ <;> rw [hgap]
    · exact List.forall_mem_nil _
    · exact List.forall_mem_nil _
    · rintro _ ⟨⟩
      exact hc

theorem of_found (h : t.Layered store config (layer + 1)) {n : { node : Node // t.Covers node }}
    (hn : (t.resolve store config).run = .ok n) {found : Leaf × List NodeEntry}
    (hfound : (n.val.gap key).found? key = some found) :
    n.val.Layered config (Hinted config layer) layer := by
  rcases h.2 n hn with ⟨hnode, -⟩ | ⟨-, c, hentries, -⟩
  · exact hnode
  · have hentries : n.val.entries = Entry.ofTree? (some c) := hentries
    rw [NodeOf.gap_of_entries hentries] at hfound
    cases hfound

theorem split (h : t.Layered store config height) :
    Settles True (t.split store config key) (fun parts =>
      (∀ p ∈ parts.1, p.Hinted config height) ∧ ∀ p ∈ parts.2,
        p.Hinted config height) Error.NotAcross := by
  induction height generalizing t with
  | zero => exact h.elim
  | succ layer ih =>
    rw [Subtree.split_eq]
    apply t.resolve_settles.bind
    intro n hn
    obtain ⟨hnode, hsubtree⟩ := h.sided hn key
    split
    · next below hbelow =>
      apply (ih (hsubtree below hbelow)).bind
      intro parts hparts
      apply Settles.pure
      constructor
      · apply hnode.ofEntries?
        rw [allOn_append, allOn_ofTree?]
        exact ⟨hnode.before, hparts.1⟩
      · apply hnode.ofEntries?
        rw [allOn_append, allOn_ofTree?]
        exact ⟨hparts.2, hnode.after⟩
    · exact Settles.pure ⟨hnode.ofEntries? hnode.before, hnode.ofEntries? hnode.after⟩

theorem delete (h : t.Layered store config (layer + 1)) :
    Settles True (t.delete store config key) (NodeOf.Layered config (Hinted config layer) layer)
      Error.NotAcross := by
  induction layer using Nat.strong_induction_on generalizing t with
  | h layer ih =>
    rw [delete_eq]
    apply t.resolve_settles.bind
    intro n hn
    obtain ⟨hsided, hsubtree⟩ := h.sided hn key
    split
    · next right rest left hfound hleft =>
      obtain ⟨heq, -⟩ := Gap.mem_of_found? hfound
      obtain ⟨hbefore, hlefts, hafter⟩ := allOn_gap (h.of_found hn hfound).entries key
      rw [heq, AllOn, List.forall_mem_cons, List.forall_mem_cons] at hafter
      obtain ⟨-, hright, hrest⟩ := hafter
      cases layer with
      | zero => exact (hlefts left hleft).elim
      | succ below =>
        apply (Hinted.merge (hlefts left hleft) hright).bind
        rintro merged ⟨hmerged, htold⟩
        apply Settles.pure
        apply hsided.withEntries
        rw [allOn_append, AllOn, AllOn, List.forall_mem_cons]
        exact ⟨hbefore, hmerged.resolved htold, hrest⟩
    · next rest hfound _ =>
      obtain ⟨heq, -⟩ := Gap.mem_of_found? hfound
      have hafter := hsided.after
      rw [heq, AllOn, List.forall_mem_cons] at hafter
      exact Settles.pure ((h.of_found hn hfound).withAfter key hafter.2)
    · next below hfound hbelow =>
      cases layer with
      | zero => exact (hsubtree below hbelow).elim
      | succ layer =>
        apply (ih layer (Nat.lt_succ_self layer) (hsubtree below hbelow)).bind
        intro child hchild
        apply Settles.pure
        apply hsided.fill
        split
        · exact nofun
        · next hne =>
          rw [List.isEmpty_iff] at hne
          exact List.forall_mem_singleton.2 (hchild.resolved fun _ => hne)
    · exact Settles.throw fun _ _ => Error.noConfusion

theorem update (h : t.Layered store config (layer + 1)) :
    Settles True (t.update store config leaf) (fun node =>
      node.Layered config (Hinted config layer) layer ∧ node.Told) Error.NotAcross := by
  induction layer using Nat.strong_induction_on generalizing t with
  | h layer ih =>
    rw [update_eq]
    apply t.resolve_settles.bind
    intro n hn
    obtain ⟨hsided, hsubtree⟩ := h.sided hn leaf.key
    split
    · next found rest _ hfound =>
      obtain ⟨heq, hkey⟩ := Gap.mem_of_found? hfound
      have hafter := hsided.after
      rw [heq, AllOn, List.forall_mem_cons] at hafter
      refine Settles.pure
        ⟨(h.of_found hn hfound).withAfter leaf.key (List.forall_mem_cons.2 ⟨?_, hafter.2⟩),
          fun _ => ?_⟩
      · rw [Entry.On, ← hkey]
        exact hafter.1
      · simp [NodeOf.withEntries, Gap.entries, Gap.fill]
    · next below hfound hbelow =>
      cases layer with
      | zero => exact (hsubtree below hbelow).elim
      | succ layer =>
        apply (ih layer (Nat.lt_succ_self layer) (hsubtree below hbelow)).bind
        rintro child ⟨hchild, htold⟩
        exact Settles.pure
          (hsided.filled (List.forall_mem_singleton.2 (hchild.resolved htold))
            (List.cons_ne_nil _ _))
    · exact Settles.throw fun _ _ => Error.noConfusion

theorem push (h : ∀ p ∈ part, p.Hinted config (layer + 1)) (hlt : layer < keyLayer) :
    AllOn config keyLayer (Entry.ofTree? (part.map (·.raise layer (keyLayer - layer - 1)))) := by
  rw [allOn_ofTree?]
  intro t ht
  obtain ⟨p, hp, rfl⟩ := Option.mem_map.1 ht
  have hraised := (h p hp).raise (keyLayer - layer - 1)
  rwa [show layer + 1 + (keyLayer - layer - 1) = keyLayer by omega] at hraised

theorem add (h : t.Layered store config (layer + 1)) (hkey : config.layerOf leaf.key = keyLayer) :
    Settles True (t.add store config leaf keyLayer) (fun node =>
      node.Layered config (Hinted config (max layer keyLayer)) (max layer keyLayer) ∧
      node.Told) Error.NotAcross := by
  induction layer using Nat.strong_induction_on generalizing t with
  | h layer ih =>
    rw [add_eq]
    apply t.resolve_settles.bind
    intro n hn
    apply (h.layerOf hn).bind
    intro k hk
    obtain ⟨hsided, hsubtree⟩ := h.sided hn leaf.key
    rw [hk]
    split
    · next heq =>
      have hleaf : AllOn config layer [.leaf leaf] := List.forall_mem_singleton.2 (hkey.trans heq)
      rw [heq, max_self]
      split
      · exact Settles.throw fun _ _ => Error.noConfusion
      · split
        · next below hbelow =>
          apply (split (hsubtree below hbelow)).bind
          rintro ⟨left, right⟩ ⟨hleft, hright⟩
          refine Settles.pure (hsided.filled ?_ (by simp [Leaf.between]))
          rw [Leaf.between, allOn_append, allOn_ofTree?, AllOn, List.forall_mem_cons]
          exact ⟨hleft, hkey.trans heq, allOn_ofTree?.2 hright⟩
        · exact Settles.pure (hsided.filled hleaf (List.cons_ne_nil _ _))
    · split
      · next hlt =>
        rw [max_eq_left hlt.le]
        cases layer with
        | zero => exact (Nat.not_lt_zero _ hlt).elim
        | succ layer =>
          split
          · next below hbelow =>
            apply (ih layer (Nat.lt_succ_self layer) (hsubtree below hbelow)).bind
            rw [max_eq_left (Nat.le_of_lt_succ hlt)]
            rintro child ⟨hchild, htold⟩
            have hes : AllOn config (layer + 1) [.tree (.resolved child)] :=
              List.forall_mem_singleton.2 (hchild.resolved htold)
            exact Settles.pure (hsided.filled hes (List.cons_ne_nil _ _))
          · have hsingle : NodeOf.Layered config (Hinted config keyLayer) keyLayer
                { entries := [.leaf leaf], layer := some keyLayer } :=
              ⟨.inr rfl, List.forall_mem_singleton.2 hkey⟩
            have hraised :=
              Hinted.raise (hsingle.resolved (.of_layer rfl)) (layer + 1 - 1 - keyLayer)
            rw [show keyLayer + 1 + (layer + 1 - 1 - keyLayer) = layer + 1 by omega] at hraised
            exact Settles.pure
              (hsided.filled (List.forall_mem_singleton.2 hraised) (List.cons_ne_nil _ _))
      · next hne hle =>
        have hlt : layer < keyLayer := by omega
        rw [max_eq_right hlt.le]
        apply (split (h.resolved hn)).bind
        rintro ⟨left, right⟩ ⟨hleft, hright⟩
        refine Settles.pure ⟨⟨.inr rfl, ?_⟩, .of_layer rfl⟩
        rw [Leaf.between, ← AllOn, allOn_append, AllOn, AllOn, List.forall_mem_cons]
        exact ⟨push hleft hlt, hkey, push hright hlt⟩

end Subtree.Layered

theorem Subtree.Hinted.trim (covers : t.Covers node)
    (h : node.Layered config (Hinted config layer) layer) :
    Settles True (t.trim store config node covers) (fun root =>
      ∃ layer, root.Layered config (Hinted config layer) layer) Error.NotAcross := by
  induction layer using Nat.strong_induction_on generalizing t node with
  | h layer ih =>
    rw [trim_eq]
    split
    · next only hentries =>
      have honly : only.Hinted config layer :=
        h.entries (.tree only) (by rw [hentries]; exact List.mem_cons_self)
      apply only.resolve_settles.bind
      intro n hn
      cases layer with
      | zero => exact honly.elim
      | succ layer => exact ih layer (Nat.lt_succ_self layer) n.property (honly.of_resolve hn).1
    · exact Settles.pure ⟨layer, h⟩

namespace Subtree.Bare

theorem layer? (h : t.Bare store config) {n : { node : Node // t.Covers node }}
    (hn : (t.resolve store config).run = .ok n) :
    Settles True (t.layer? store config n.val n.property) (· = none) Error.NotAcross := by
  induction h with
  | @intro t n' below hn' hlayer hentries hbelow ih =>
    cases hn.symm.trans hn'
    rw [Subtree.layer?]
    split
    · next hsome => cases hlayer.symm.trans hsome
    · next l rest _ hleaves =>
      rw [NodeOf.leaves, hentries] at hleaves
      cases below <;> cases hleaves
    · apply Settles.findSomeM?_none
      rintro ⟨c, hc⟩ -
      have hmem : c ∈ below := by
        rw [NodeOf.mem_subtrees, hentries] at hc
        cases below with
        | none => cases hc
        | some c' =>
          cases List.mem_singleton.1 hc
          rfl
      obtain ⟨hchild, hnone, -, -⟩ := hbelow c hmem
      dsimp only
      split
      · next k hk => cases hnone.symm.trans (layer_eq_of_hint hchild hk)
      · apply c.resolve_settles.bind
        intro child hchild
        apply (ih c hmem hchild).bind
        rintro _ rfl
        exact Settles.pure rfl

theorem layerOf (h : t.Bare store config) {n : { node : Node // t.Covers node }}
    (hn : (t.resolve store config).run = .ok n) :
    Settles True (t.layerOf store config n.val n.property) (· = 0) Error.NotAcross := by
  apply (h.layer? hn).bind
  rintro _ rfl
  exact Settles.pure rfl

theorem split (h : t.Bare store config) :
    Settles True (t.split store config key) (· = (none, none)) Error.NotAcross := by
  induction h with
  | @intro t n below hn hlayer hentries _ ih =>
    rw [split_eq]
    apply (Settles.of_run_ok hn rfl).bind
    rintro _ rfl
    rw [NodeOf.gap_of_entries hentries]
    cases below with
    | none => exact Settles.pure rfl
    | some c =>
      apply (ih c rfl).bind
      rintro _ rfl
      exact Settles.pure rfl

theorem delete (h : t.Bare store config) :
    Settles True (t.delete store config key) (fun _ => False) Error.NotAcross := by
  induction h with
  | @intro t n below hn hlayer hentries _ ih =>
    rw [delete_eq]
    apply (Settles.of_run_ok hn rfl).bind
    rintro _ rfl
    rw [NodeOf.gap_of_entries hentries]
    cases below with
    | none => exact Settles.throw fun _ _ => Error.noConfusion
    | some c => exact (ih c rfl).bind fun _ => False.elim

theorem update (h : t.Bare store config) :
    Settles True (t.update store config leaf) (fun _ => False) Error.NotAcross := by
  induction h with
  | @intro t n below hn hlayer hentries _ ih =>
    rw [update_eq]
    apply (Settles.of_run_ok hn rfl).bind
    rintro _ rfl
    rw [NodeOf.gap_of_entries hentries]
    cases below with
    | none => exact Settles.throw fun _ _ => Error.noConfusion
    | some c => exact (ih c rfl).bind fun _ => False.elim

theorem add (h : t.Bare store config) (hkey : config.layerOf leaf.key = keyLayer) :
    Settles True (t.add store config leaf keyLayer) (fun node =>
      node.Layered config (Hinted config keyLayer) keyLayer ∧ node.Told) Error.NotAcross := by
  have hsplit : Settles True (t.split store config leaf.key) (· = (none, none)) Error.NotAcross :=
    h.split
  have hbare := h
  obtain @⟨t, n, below, hn, hlayer, hentries, hbelow⟩ := h
  rw [add_eq]
  apply (Settles.of_run_ok hn rfl).bind
  rintro _ rfl
  apply (hbare.layerOf hn).bind
  rintro _ rfl
  have hleaf : AllOn config keyLayer [.leaf leaf] := List.forall_mem_singleton.2 hkey
  rw [NodeOf.gap_of_entries hentries]
  split
  · next hzero =>
    rw [if_neg nofun]
    cases below with
    | none => exact Settles.pure ⟨⟨.inl hlayer, hleaf⟩, fun _ => List.cons_ne_nil _ _⟩
    | some c =>
      apply (hbelow c rfl).split.bind
      rintro _ rfl
      exact Settles.pure ⟨⟨.inl hlayer, hleaf⟩, fun _ => List.cons_ne_nil _ _⟩
  · rw [if_neg (Nat.not_lt_zero _), split_resolved hn]
    apply hsplit.bind
    rintro _ rfl
    exact Settles.pure ⟨⟨.inr rfl, hleaf⟩, .of_layer rfl⟩

end Subtree.Bare

namespace Tree

variable {tree : Tree}

def Hinted (tree : Tree) : Prop :=
  (∃ height, tree.root.Hinted tree.config height) ∨ ∃ address,
    tree.root = .unresolved address (.ofLayer? none)

/--
A tree that has been made or loaded and then edited. Each time the store may be another one, or have
other contents.
-/
inductive Derived : Tree → Prop
  | empty (config : Config) : Derived (.empty config)
  | load (address : Cid) (config : Config) : Derived (.load address config)
  | edit {tree tree' : Tree} {store : Blockstore Id} (edit : Edit) (h : Derived tree)
    (hrun : (edit.apply tree store).run = .ok tree') : Derived tree'

theorem hinted_empty (config : Config) : (empty config).Hinted := by
  have hnode : NodeOf.empty.Layered config (Subtree.Hinted config 0) 0 :=
    ⟨.inr rfl, List.forall_mem_nil _⟩
  exact .inl ⟨1, hnode.resolved (.of_layer rfl)⟩

theorem hinted_withRoot (h : node.Layered tree.config (Subtree.Hinted tree.config layer) layer)
    (htold : node.Told) :
    (tree.withRoot node).Hinted :=
  .inl ⟨layer + 1, h.resolved htold⟩

namespace Hinted

theorem layered_or_bare (h : tree.Hinted) (store : Blockstore Id) :
    (∃ layer, tree.root.Layered store tree.config (layer + 1)) ∨
      tree.root.Bare store tree.config := by
  have hor : (∃ height, tree.root.Layered store tree.config height) ∨
      tree.root.Bare store tree.config := by
    rcases h with ⟨height, h⟩ | ⟨address, h⟩
    · exact .inl ⟨height, h.layered⟩
    · rw [h]
      exact Subtree.exists_layered_or_bare store tree.config address Hint.horizon
  refine hor.imp_left ?_
  rintro ⟨height, h⟩
  cases height with
  | zero => exact h.elim
  | succ layer => exact ⟨layer, h⟩

theorem add (h : tree.Hinted) (key : String) (value : Cid) :
    Settles True (tree.add store key value) Hinted Error.NotAcross := by
  unfold Tree.add
  split
  · rcases h.layered_or_bare store with ⟨layer, h⟩ | h
    · apply (h.add rfl).bind
      exact fun root hroot => Settles.pure (hinted_withRoot hroot.1 hroot.2)
    · apply (h.add rfl).bind
      exact fun root hroot => Settles.pure (hinted_withRoot hroot.1 hroot.2)
  · exact Settles.throw fun _ _ => Error.noConfusion

theorem update (h : tree.Hinted) (key : String) (value : Cid) :
    Settles True (tree.update store key value) Hinted Error.NotAcross := by
  unfold Tree.update
  split
  · rcases h.layered_or_bare store with ⟨layer, h⟩ | h
    · apply h.update.bind
      exact fun root hroot => Settles.pure (hinted_withRoot hroot.1 hroot.2)
    · exact h.update.bind fun _ => False.elim
  · exact Settles.throw fun _ _ => Error.noConfusion

theorem delete (h : tree.Hinted) (key : String) :
    Settles True (tree.delete store key) Hinted Error.NotAcross := by
  unfold Tree.delete
  split
  · rcases h.layered_or_bare store with ⟨layer, h⟩ | h
    · apply h.delete.bind
      intro altered haltered
      apply (Subtree.Hinted.trim (Subtree.covers_resolved altered) haltered).bind
      rintro root ⟨layer, hroot⟩
      apply Settles.pure
      split
      · exact hinted_empty _
      · next hne =>
        rw [List.isEmpty_iff] at hne
        exact hinted_withRoot hroot fun _ => hne
    · exact h.delete.bind fun _ => False.elim
  · exact Settles.throw fun _ _ => Error.noConfusion

theorem edit (h : tree.Hinted) (edit : Edit) :
    Settles True (edit.apply tree store) Hinted Error.NotAcross := by
  cases edit with
  | add key value => exact h.add key value
  | update key value => exact h.update key value
  | delete key => exact h.delete key

end Hinted

theorem Derived.hinted (h : tree.Derived) : tree.Hinted := by
  induction h with
  | empty config => exact hinted_empty config
  | load address config => exact .inr ⟨address, rfl⟩
  | edit edit _ hrun ih => exact (ih.edit edit).of_ok hrun

theorem Derived.delete_notAcross (h : tree.Derived) (store : Blockstore Id) (key : String) :
    ∀ e, (tree.delete store key).run = .error e →
      ∀ left right, e ≠ .malformedNode (.mergeAcrossLayers left right) :=
  fun _ he => (h.hinted.delete key).of_error trivial he

end Tree

end

namespace Hollow

/-!
A stored tree that nobody would write: above the node with the only key of its layer there is one
without keys, and the subtree to the left of that key is empty.
-/

open Sample (low high)

def last : Leaf := ⟨"a/d", .v1 Cid.raw ⟨0, [6], by decide⟩⟩

def known : List NodeRecord := [
  ⟨none, []⟩,
  ⟨none, [⟨0, Bytes.ofText last.key, last.value, none⟩]⟩,
  ⟨some (Sample.pointer 0), [⟨0, Bytes.ofText high.key, high.value, some (Sample.pointer 1)⟩]⟩,
  ⟨some (Sample.pointer 2), []⟩]

def config : Config := { codec := .table known, hasher := .tail }

def pointer (place : Nat) : Cid := NodeCodec.tableAddress (List.replicate place 0)

def shelf : BlockMap :=
  (List.range 4).foldl (fun blocks place =>
    blocks.insert (pointer place) (List.replicate place 0)) {}

def lowNode : Node := { entries := [.leaf low], layer := some 0 }

def highNode : Node where
  entries := [.tree (.resolved lowNode), .leaf high, .tree (.unresolved (pointer 1) (.layer 0))]
  layer := some 1

def grown : Tree := ⟨.resolved { entries := [.tree (.resolved highNode)], layer := none }, config⟩

theorem add_low :
    (Edit.apply (.add low.key low.value) (.load (pointer 3) config) (.snapshot shelf)).run =
      .ok grown := by
  cbv

theorem derived : grown.Derived := .edit _ (.load (pointer 3) config) add_low

theorem delete_high : (grown.delete (.snapshot shelf) high.key).run =
    .ok ⟨.resolved { entries := [.leaf low, .leaf last], layer := some 0 }, config⟩ := by
  cbv

end Hollow

theorem Tree.Derived.delete_notAcross_of_hollow :
    (Hollow.grown.delete (.snapshot Hollow.shelf) Sample.high.key).run =
      .ok ⟨.resolved { entries := [.leaf Sample.low, .leaf Hollow.last], layer := some 0 },
        Hollow.config⟩ ∧
    ∀ e, (Hollow.grown.delete (.snapshot Hollow.shelf) Sample.high.key).run = .error e →
      ∀ left right, e ≠ .malformedNode (.mergeAcrossLayers left right) :=
  ⟨Hollow.delete_high, Hollow.derived.delete_notAcross _ Sample.high.key⟩

end MerkleSearch
