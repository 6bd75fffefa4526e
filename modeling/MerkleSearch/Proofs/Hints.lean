import MerkleSearch.Proofs.Descents
import MerkleSearch.Proofs.Shape
import MerkleSearch.Proofs.WellFormed

/-!
This module contains what is known of the layer of a node when some of the layers that were once
noted are missing. A node that is read from a record tells its layer by its keys, or else passes on
what it was told; the main statement is `NodeOf.Stands.layers_agree`, that whatever tells the layer
of a well-formed node tells the same.
-/

namespace MerkleSearch

section

variable {store : Blockstore Id} {config : Config} {layer : Nat} {lower upper : Option String}
variable {keys : List String} {address : Cid} {hint : Hint} {record : NodeRecord} {node : Node}
variable {t c : Subtree} {l : Leaf} {below : Option String → Option String → Subtree → Prop}

/--
The layer is noted, or it is missing and there are descents enough to get to the lowest layer. There
are `Hint.horizon` of them to begin with.
-/
def Hint.Allows (hint : Hint) (layer : Nat) : Prop :=
  hint = .layer layer ∨ ∃ descents > layer, hint = .unknown descents

/--
A well-formed node on the layer, with the nearest leaf keys at either side. Its own layer may be
missing.
-/
structure NodeOf.Stands (config : Config) (below : Option String → Option String → Subtree → Prop)
    (layer : Nat) (lower upper : Option String) (node : Node) : Prop where
  layer_eq : node.layer = none ∨ node.layer = some layer
  ordered : node.Ordered config layer lower upper
  subtrees : ∀ left c right, node.entries = left ++ .tree c :: right →
    below (((Entry.leaves left).getLast?.map (·.key)).or lower)
      (((Entry.leaves right).head?.map (·.key)).or upper) c

/--
A subtree of a well-formed node, on the layer below the height. The layers that are noted in its
nodes and for its subtrees are the right ones, but any of them may be missing; so a block is looked
at as that of a node on the layer, whatever is noted for it. No subtree is empty.
-/
def Subtree.Stands (store : Blockstore Id) (config : Config) :
    (height : Nat) → (lower upper : Option String) → Subtree → Prop
  | 0, _, _, _ => False
  | layer + 1, lower, upper, .resolved node =>
    node.Stands config (Stands store config layer) layer lower upper ∧ node.entries ≠ []
  | layer + 1, lower, upper, .unresolved address hint => hint.Allows layer ∧
    ∃ node, (unresolved address (.layer layer)).Loads store config node ∧
      node.Stands config (Stands store config layer) layer lower upper ∧ node.entries ≠ []

namespace NodeRecord

theorem Sound.of_layer (h : record.Sound config (some layer) keys) :
    (layer? config none keys = some layer ∨ layer? config none keys = none ∧ keys = []) ∧
      record.Sound config none keys := by
  have htold : layer? config none keys = some layer ∨ layer? config none keys = none ∧
      keys = [] := by
    cases keys with
    | nil => exact .inr ⟨rfl, rfl⟩
    | cons key keys => exact .inl (h.layer key List.mem_cons_self).symm
  refine ⟨htold, h.shared, h.text, h.valid, h.sorted, ?_, ?_⟩
  · intro key hkey
    rcases htold with hlayer | ⟨-, rfl⟩
    · rw [hlayer]
      exact h.layer key hkey
    · cases hkey
  · intro hzero
    rcases htold with hlayer | ⟨hnone, -⟩
    · exact h.bottom (hlayer.symm.trans hzero)
    · cases hnone.symm.trans hzero

end NodeRecord

namespace Hint

theorem Allows.layer?_eq (h : hint.Allows layer) :
    hint.layer? = none ∨ hint.layer? = some layer := by
  rcases h with rfl | ⟨_, -, rfl⟩
  · exact .inr rfl
  · exact .inl rfl

theorem Allows.ne_unknown_zero (h : hint.Allows layer) : hint ≠ .unknown 0 := by
  rcases h with rfl | ⟨descents, hlt, rfl⟩
  · exact nofun
  · rintro ⟨⟩
    exact Nat.not_lt_zero layer hlt

theorem allows_ofLayer?_none (h : layer < horizon) : (ofLayer? none).Allows layer :=
  .inr ⟨horizon, h, rfl⟩

end Hint

namespace NodeOf

theorem entries_ne_nil_of_contains (hl : (Subtree.resolved node).Contains store config l) :
    node.entries ≠ [] := by
  intro hnil
  obtain ⟨found, hfound, hmem⟩ := hl
  rcases Subtree.reaches_resolved.1 hfound with rfl | ⟨c, hc, -⟩
  · rw [leaves, hnil] at hmem
    cases hmem
  · rw [hnil] at hc
    cases hc

theorem leaves_eq_of_map {α : Type} {f g : α → Subtree} {cs : List (Entry α)} {node' : Node}
    (hentries : node.entries = cs.map (Entry.map f))
    (hentries' : node'.entries = cs.map (Entry.map g)) :
    node'.leaves = node.leaves := by
  have hmap := (Entry.leaves_map g cs).trans (Entry.leaves_map f cs).symm
  rwa [← hentries, ← hentries'] at hmap

theorem Ordered.of_map {α : Type} {f g : α → Subtree} {cs : List (Entry α)} {node' : Node}
    (h : node.Ordered config layer lower upper) (hentries : node.entries = cs.map (Entry.map f))
    (hentries' : node'.entries = cs.map (Entry.map g)) :
    node'.Ordered config layer lower upper := by
  obtain ⟨hvalid, hsorted, hlayer, hbetween, hapart, hlowest⟩ := h
  rw [← leaves_eq_of_map hentries hentries'] at hvalid hsorted hlayer hbetween
  refine ⟨hvalid, hsorted, hlayer, hbetween, ?_, ?_⟩
  · rw [hentries, Entry.isChain_apart_map] at hapart
    rwa [hentries', Entry.isChain_apart_map]
  · intro hzero
    rw [List.eq_nil_iff_forall_not_mem]
    intro c hc
    rw [mem_subtrees, hentries'] at hc
    obtain ⟨e, he, heq⟩ := List.mem_map.1 hc
    cases e with
    | leaf l => cases heq
    | tree a =>
      have hmem : f a ∈ node.subtrees := by
        rw [mem_subtrees, hentries]
        exact List.mem_map.2 ⟨.tree a, he, rfl⟩
      rw [hlowest hzero] at hmem
      cases hmem

theorem Stands.of_map {α : Type} {f g : α → Subtree} {cs : List (Entry α)} {node' : Node}
    (h : node.Stands config below layer lower upper)
    (hentries : node.entries = cs.map (Entry.map f))
    (hentries' : node'.entries = cs.map (Entry.map g))
    (hlayer : node'.layer = none ∨ node'.layer = some layer)
    (hbelow : ∀ a lower upper, below lower upper (f a) → below lower upper (g a)) :
    node'.Stands config below layer lower upper := by
  refine ⟨hlayer, h.ordered.of_map hentries hentries', ?_⟩
  intro left c right hsplit
  rw [hentries'] at hsplit
  obtain ⟨left, rest, rfl, rfl, hrest⟩ := List.map_eq_append_iff.1 hsplit
  obtain ⟨e, right, rfl, he, rfl⟩ := List.map_eq_cons_iff.1 hrest
  cases e with
  | leaf l => cases he
  | tree a =>
    cases he
    rw [Entry.leaves_map, Entry.leaves_map]
    apply hbelow
    have hold := h.subtrees (left.map (Entry.map f)) (f a) (right.map (Entry.map f))
    rw [Entry.leaves_map, Entry.leaves_map] at hold
    apply hold
    rw [hentries, List.map_append, List.map_cons, Entry.map_tree]

theorem ofStored_of_sound (h : record.Sound config hint.layer? keys) :
    ofStored config address hint record =
      .ok { described config hint record keys with address := some address } := by
  unfold ofStored
  rw [ofRecord_of_sound h]
  rfl

theorem Stands.of_hint
    (h : NodeOf.Stands config (Subtree.Stands store config layer) layer lower upper
      { described config (.layer layer) record keys with address := some address })
    (hsound : record.Sound config (some layer) keys) (hne : record.toEntries keys ≠ [])
    (hhint : hint.Allows layer) :
    ∃ node, ofStored config address hint record = .ok node ∧
      node.Stands config (Subtree.Stands store config layer) layer lower upper ∧
      node.entries ≠ [] := by
  rcases hhint with rfl | ⟨descents, hlt, rfl⟩
  · exact ⟨_, ofStored_of_sound hsound, h, mt List.map_eq_nil_iff.1 hne⟩
  · obtain ⟨htold, hbare⟩ := hsound.of_layer
    refine ⟨_, ofStored_of_sound hbare, h.of_map rfl rfl ?_ ?_, mt List.map_eq_nil_iff.1 hne⟩
    · rcases htold with hlayer | ⟨hnone, -⟩
      · exact .inr hlayer
      · exact .inl hnone
    -- A layer that the keys tell is noted for the subtrees as well, and else they have one descent
    -- less.
    · intro address lower upper hbelow
      cases layer with
      | zero => exact hbelow.elim
      | succ layer =>
        refine ⟨?_, hbelow.2⟩
        rcases htold with hlayer | ⟨hnone, -⟩
        · exact .inl (congrArg (Hint.below _) hlayer)
        · exact .inr ⟨descents - 1, Nat.lt_sub_of_add_lt hlt, congrArg (Hint.below _) hnone⟩

end NodeOf

namespace Subtree.Stands

theorem hintedLayer?_eq (h : t.Stands store config (layer + 1) lower upper) :
    t.hintedLayer? = none ∨ t.hintedLayer? = some layer := by
  cases t with
  | resolved node => exact .inl rfl
  | unresolved address hint => exact h.1.layer?_eq

theorem exists_resolve (h : t.Stands store config (layer + 1) lower upper) :
    ∃ n, (t.resolve store config).run = .ok n ∧
    n.val.Stands config (Subtree.Stands store config layer) layer lower upper ∧
    n.val.entries ≠ [] := by
  cases t with
  | resolved node => exact ⟨⟨node, covers_resolved node⟩, rfl, h⟩
  | unresolved address hint =>
    obtain ⟨hhint, node, hload, hnode, hne⟩ := h
    cases hload with
    | unresolved hget haddress hdecode hstored =>
      obtain ⟨keys, hsound, rfl⟩ := NodeOf.exists_described hstored
      obtain ⟨node, hstored, hnode⟩ := hnode.of_hint hsound (mt List.map_eq_nil_iff.2 hne) hhint
      obtain ⟨covers, hn⟩ :=
        exists_resolve_unresolved hhint.ne_unknown_zero hget haddress hdecode hstored
      exact ⟨_, hn, hnode⟩

end Subtree.Stands

namespace NodeOf.Stands

theorem layer_eq_of_leaf (h : node.Stands config below layer lower upper)
    (hl : .leaf l ∈ node.entries) :
    config.layerOf l.key = layer :=
  h.ordered.layer_eq l (List.mem_filterMap.2 ⟨.leaf l, hl, rfl⟩)

theorem exists_below (h : node.Stands config (Subtree.Stands store config layer) layer lower upper)
    (hc : .tree c ∈ node.entries) :
    ∃ below lower upper, layer = below + 1 ∧ c.Stands store config (below + 1) lower upper := by
  obtain ⟨left, right, hentries⟩ := List.append_of_mem hc
  have hstands := h.subtrees left c right hentries
  cases layer with
  | zero => exact hstands.elim
  | succ below => exact ⟨below, _, _, rfl, hstands⟩

theorem layer?_eq (h : node.Stands config (Subtree.Stands store config layer) layer lower upper)
    (hne : node.entries ≠ []) (covers : t.Covers node) :
    t.layer? store config node covers = pure (some layer) := by
  induction layer using Nat.strong_induction_on generalizing t node lower upper with
  | h layer ih =>
    apply Subtree.layer?_of_below h.layer_eq (fun _ => h.layer_eq_of_leaf) hne
    intro c hc
    obtain ⟨below, _, _, rfl, hstands⟩ := h.exists_below hc
    obtain ⟨n, hn, hnode, hentries⟩ := hstands.exists_resolve
    exact ⟨below, rfl, hstands.hintedLayer?_eq, n, hn,
      ih below (Nat.lt_succ_self below) hnode hentries n.property⟩

theorem layers_agree
    (h : node.Stands config (Subtree.Stands store config layer) layer lower upper)
    (hl : (Subtree.resolved node).Contains store config l) (covers : t.Covers node) :
    (t.layer? store config node covers).run = .ok (some layer) ∧
    (∀ k, node.layer = some k → k = layer) ∧
    (∀ l, .leaf l ∈ node.entries → config.layerOf l.key = layer) ∧
    ∀ c, .tree c ∈ node.entries →
      (∀ k, c.hintedLayer? = some k → k + 1 = layer) ∧
      ∃ n k, (c.resolve store config).run = .ok n ∧
        (c.layer? store config n.val n.property).run = .ok (some k) ∧
        k + 1 = layer := by
  have hne := NodeOf.entries_ne_nil_of_contains hl
  refine ⟨congrArg ExceptT.run (h.layer?_eq hne covers), ?_, fun _ => h.layer_eq_of_leaf, ?_⟩
  · intro k hk
    rcases h.layer_eq with hnone | hsome
    · cases hk.symm.trans hnone
    · exact Option.some.inj (hk.symm.trans hsome)
  · intro c hc
    obtain ⟨below, _, _, rfl, hstands⟩ := h.exists_below hc
    obtain ⟨n, hn, hnode, hne⟩ := hstands.exists_resolve
    refine ⟨?_, n, below, hn, congrArg ExceptT.run (hnode.layer?_eq hne n.property), rfl⟩
    intro k hk
    rcases hstands.hintedLayer?_eq with hnone | hsome
    · cases hk.symm.trans hnone
    · exact congrArg (· + 1) (Option.some.inj (hk.symm.trans hsome))

theorem singleton (hlayer : node.layer = none ∨ node.layer = some (layer + 1))
    (hentries : node.entries = [.tree c]) (hc : below lower upper c) :
    node.Stands config below (layer + 1) lower upper := by
  have hleaves : node.leaves = [] := by
    rw [leaves, hentries]
    rfl
  refine ⟨hlayer, ⟨?_, ?_, ?_, ?_, ?_, fun hzero => absurd hzero (Nat.succ_ne_zero layer)⟩, ?_⟩
  · simp [hleaves]
  · simp [hleaves]
  · simp [hleaves]
  · simp [hleaves]
  · rw [hentries]
    exact .singleton _
  · intro left c' right hsplit
    rw [hentries] at hsplit
    obtain ⟨rfl, rfl, rfl⟩ : left = [] ∧ c' = c ∧ right = [] := by
      simpa [List.cons_eq_append_iff] using hsplit
    exact hc

end NodeOf.Stands

end

namespace Unmarked

/-!
A key on layer zero, below two nodes without keys. Nothing is noted of their layers.
-/

def known : List NodeRecord := [
  ⟨none, [⟨0, Bytes.ofText Sample.low.key, Sample.low.value, none⟩]⟩,
  ⟨some (Sample.pointer 0), []⟩]

def config : Config := { codec := .table known, hasher := .tail }

def shelf : BlockMap := (({} : BlockMap).insert (Sample.pointer 0) []).insert (Sample.pointer 1) [0]

def bottom : Node :=
  { entries := [.leaf Sample.low], layer := some 0, address := some (Sample.pointer 0) }

def middle : Node where
  entries := [.tree (.unresolved (Sample.pointer 0) (.layer 0))]
  layer := some 1
  address := some (Sample.pointer 1)

def bare : Node where
  entries := [.tree (.unresolved (Sample.pointer 0) (.unknown (Hint.horizon - 1)))]
  layer := none
  address := some (Sample.pointer 1)

def top : Node :=
  { entries := [.tree (.unresolved (Sample.pointer 1) (.ofLayer? none))], layer := none }

theorem get?_bottom :
    ((Blockstore.snapshot shelf).get? (Sample.pointer 0)).run = .ok (some []) := by
  have hget : shelf[Sample.pointer 0]? = some [] := by cbv
  exact congrArg Except.ok hget

theorem get?_middle :
    ((Blockstore.snapshot shelf).get? (Sample.pointer 1)).run = .ok (some [0]) := by
  have hget : shelf[Sample.pointer 1]? = some [0] := by cbv
  exact congrArg Except.ok hget

theorem stands_bottom (hint : Hint) (h : hint.Allows 0) :
    (Subtree.unresolved (Sample.pointer 0) hint).Stands (.snapshot shelf) config 1 none none := by
  refine ⟨h, bottom, .unresolved get?_bottom rfl rfl (by cbv), ⟨.inr rfl, ?_, ?_⟩, by decide⟩
  · exact
      ⟨by decide, by decide, by decide, fun _ _ => ⟨by simp, by simp⟩, .singleton _, fun _ => rfl⟩
  · intro left c right hsplit
    simp [bottom, List.cons_eq_append_iff] at hsplit

theorem stands_top : top.Stands config (Subtree.Stands (.snapshot shelf) config 2) 2 none none := by
  have hmiddle : middle.Stands config (Subtree.Stands (.snapshot shelf) config 1) 1 none none :=
    .singleton (.inr rfl) rfl (stands_bottom (.layer 0) (.inl rfl))
  apply NodeOf.Stands.singleton (.inl rfl) rfl
  exact ⟨Hint.allows_ofLayer?_none (by decide), middle, .unresolved get?_middle rfl rfl (by cbv),
    hmiddle, by decide⟩

theorem contains_low : (Subtree.resolved top).Contains (.snapshot shelf) config Sample.low := by
  obtain ⟨_, hmiddle⟩ : ∃ covers, ((Subtree.unresolved (Sample.pointer 1) (.ofLayer? none)).resolve
      (.snapshot shelf) config).run = .ok ⟨bare, covers⟩ :=
    Subtree.exists_resolve_unresolved (by decide) get?_middle rfl rfl rfl
  obtain ⟨_, hbottom⟩ : ∃ covers,
      ((Subtree.unresolved (Sample.pointer 0) (.unknown (Hint.horizon - 1))).resolve
        (.snapshot shelf) config).run = .ok ⟨bottom, covers⟩ :=
    Subtree.exists_resolve_unresolved (by decide) get?_bottom rfl rfl (by cbv)
  have hnode : (Subtree.resolved top).Reaches (.snapshot shelf) config bottom :=
    Subtree.reaches_resolved.2
      (.inr ⟨_, List.mem_cons_self, .deeper hmiddle List.mem_cons_self (.here hbottom)⟩)
  exact ⟨bottom, hnode, List.mem_cons_self⟩

end Unmarked

theorem NodeOf.Stands.layers_agree_of_two_unmarked :
    ((Subtree.resolved Unmarked.top).layer? (.snapshot Unmarked.shelf) Unmarked.config Unmarked.top
      (Subtree.covers_resolved _)).run = .ok (some 2) ∧ Unmarked.top.layer = none ∧
    Unmarked.config.layerOf Sample.low.key = 0 := by
  have hagree := Unmarked.stands_top.layers_agree Unmarked.contains_low (Subtree.covers_resolved _)
  exact ⟨hagree.1, rfl, by cbv⟩

end MerkleSearch
