import MerkleSearch.Proofs.Lockstep
import MerkleSearch.Proofs.Place

/-!
This module contains what two runs of one operation have in common if their stores are the same
around its key. They come to the same (`Coincides`), and what they come to has all subtrees from
before, but for those around the key (`Keeps`). A place is steady as long as this is so, and so are
the places around the key inside of it.
-/

namespace MerkleSearch

def Coincides {α : Type} (A : α → Prop) (x y : ExceptT Error Id α) : Prop :=
  Matches (fun a b => a = b ∧ A a) x y

namespace Coincides

variable {α β : Type} {A : α → Prop} {B : β → Prop} {x y : ExceptT Error Id α}
variable {f g : α → ExceptT Error Id β}

theorem pure {a : α} (h : A a) : Coincides A (pure a) (pure a) := Matches.pure ⟨rfl, h⟩

theorem throw (e : Error) : Coincides A (throw e) (throw e) := Matches.throw e

theorem bind (h : Coincides A x y) (hf : ∀ a, A a → Coincides B (f a) (g a)) :
    Coincides B (x >>= f) (y >>= g) := by
  apply Matches.bind h
  rintro a _ ⟨rfl, ha⟩
  exact hf a ha

theorem bind_run (heq : y = x) (hf : ∀ a, x.run = .ok a → Coincides B (f a) (g a)) :
    Coincides B (x >>= f) (y >>= g) := by
  subst heq
  match y, hf with
  | .ok a, hf => exact hf a rfl
  | .error e, _ => exact Matches.throw e

theorem imp {B : α → Prop} (h : Coincides A x y) (hA : ∀ a, A a → B a) : Coincides B x y := by
  cases h with
  | pure h => exact Matches.pure ⟨h.1, hA _ h.2⟩
  | throw e => exact Matches.throw e

theorem of_ok {a : α} (h : Coincides A x y) (hx : x.run = .ok a) : y.run = .ok a ∧ A a := by
  cases h with
  | pure h =>
    obtain ⟨rfl, ha⟩ := h
    cases hx
    exact ⟨rfl, ha⟩
  | throw e => cases hx

end Coincides

inductive Subtree.Within (store : Blockstore Id) (config : Config) (u : Subtree) : Subtree → Prop
  | here : Within store config u u
  | deeper {t c : Subtree} {n : { node : Node // t.Covers node }}
    (hn : (t.resolve store config).run = .ok n) (hc : .tree c ∈ n.val.entries)
    (h : Within store config u c) : Within store config u t

variable {config : Config} {store store' : Blockstore Id} {root t u c : Subtree} {key : String}
variable {span : Span} {es es' : List NodeEntry} {node : Node} {layer : Nat} {bs ss as : List Leaf}

namespace Subtree

theorem Within.trans (h : u.Within store config t) (h' : t.Within store config root) :
    u.Within store config root := by
  induction h' with
  | here => exact h
  | deeper hn hc _ ih => exact .deeper hn hc ih

theorem Within.child (h : t.Within store config root) {n : { node : Node // t.Covers node }}
    (hn : (t.resolve store config).run = .ok n) {c : Subtree} (hc : .tree c ∈ n.val.entries) :
    c.Within store config root :=
  (Within.deeper hn hc .here).trans h

end Subtree

theorem Place.In.within {place outer : Place} (h : place.In store config outer) :
    place.subtree.Within store config outer.subtree := by
  induction h with
  | here => exact .here
  | deeper hn hentries _ ih =>
    refine .deeper hn ?_ ih
    rw [hentries]
    exact List.mem_append_right _ List.mem_cons_self

/--
All subtrees among some entries are inside of `root`, but for those around the key.
-/
def Keeps (store : Blockstore Id) (config : Config) (root : Subtree) (key : String) (span : Span)
    (es : List NodeEntry) : Prop :=
  ∀ place : Place, place.Among store config span es → place.span.Meets key ∨
    place.subtree.Within store config root

namespace Keeps

theorem of_within (h : ∀ c, .tree c ∈ es → c.Within store config root) :
    Keeps store config root key span es := by
  rintro place ⟨left, c, right, rfl, hplace⟩
  exact .inr (hplace.within.trans (h c (List.mem_append_right _ List.mem_cons_self)))

theorem nil : Keeps store config root key span [] := of_within nofun

theorem append (h : Keeps store config root key (span.between [] (Entry.leaves es')) es)
    (h' : Keeps store config root key (span.between (Entry.leaves es) []) es') :
    Keeps store config root key span (es ++ es') :=
  fun place hplace => hplace.of_append.elim (h place) (h' place)

theorem tree (hspan : span.Around key) (h : Keeps store config root key span node.entries) :
    Keeps store config root key span [.tree (.resolved node)] := by
  intro place hplace
  rcases Place.in_resolved.1 (Place.among_singleton.1 hplace) with rfl | hplace
  · exact .inl hspan.meets
  · exact h place hplace

theorem ofEntries? (hspan : span.Around key) (h : Keeps store config root key span es)
    (layer : Option Nat) :
    Keeps store config root key span (Entry.ofTree? (Subtree.ofEntries? es layer)) := by
  unfold Subtree.ofEntries?
  split
  · exact nil
  · exact tree hspan h

theorem raise (hspan : span.Around key) (h : Keeps store config root key span [.tree t]) (n : Nat) :
    Keeps store config root key span [.tree (t.raise layer n)] := by
  induction n with
  | zero => exact h
  | succ n ih => exact tree hspan ih

theorem raise_part {part : Option Subtree} (hspan : span.Around key)
    (h : Keeps store config root key span (Entry.ofTree? part)) (n : Nat) :
    Keeps store config root key span (Entry.ofTree? (part.map (·.raise layer n))) := by
  cases part with
  | none => exact nil
  | some t => exact raise hspan h n

theorem middle {before after : List NodeEntry}
    (hbefore : ∀ span, Keeps store config root key span before)
    (hafter : ∀ span, Keeps store config root key span after)
    (h : Keeps store config root key (span.between (Entry.leaves before) (Entry.leaves after)) es) :
    Keeps store config root key span (before ++ es ++ after) := by
  refine append (append (hbefore _) ?_) (hafter _)
  rw [Span.between_between, List.nil_append, List.nil_append]
  exact h

theorem leaf {l : Leaf} (h : Keeps store config root key ⟨some l.key, span.upper⟩ es) :
    Keeps store config root key span (.leaf l :: es) := by
  have hleaf : Keeps store config root key (span.between [] (Entry.leaves es)) [.leaf l] :=
    of_within (by simp)
  exact hleaf.append h

theorem between {l : Leaf} {left right : Option Subtree}
    (hleft : Keeps store config root key ⟨span.lower, some l.key⟩ (Entry.ofTree? left))
    (hright : Keeps store config root key ⟨some l.key, span.upper⟩ (Entry.ofTree? right)) :
    Keeps store config root key span (l.between left right) := by
  apply append hleft
  cases left <;> exact leaf hright

theorem of_resolve {n : { node : Node // t.Covers node }}
    (h : Keeps store config root key span [.tree t]) (hn : (t.resolve store config).run = .ok n) :
    Keeps store config root key span n.val.entries :=
  fun place hplace => h place (Place.among_singleton.2 ((Place.in_iff hn).2 (.inr hplace)))

end Keeps

/--
As long as there is nothing but one more subtree, the nodes are the same in both stores.
-/
inductive Subtree.TrimsAlike (store store' : Blockstore Id) (config : Config) : Subtree → Prop
  | intro {t : Subtree} (hresolve : t.resolve store' config = t.resolve store config)
    (below : ∀ n, (t.resolve store config).run = .ok n → ∀ c, n.val.entries = [.tree c] →
      TrimsAlike store store' config c) : TrimsAlike store store' config t

def TopsAlike (store store' : Blockstore Id) (config : Config) (es : List NodeEntry) : Prop :=
  ∀ c, es = [.tree c] → c.TrimsAlike store store' config

theorem Subtree.trimsAlike_resolved (h : TopsAlike store store' config node.entries) :
    (Subtree.resolved node).TrimsAlike store store' config := by
  refine .intro rfl ?_
  intro n hn c hentries
  cases hn
  exact h c hentries

namespace TopsAlike

theorem of_last (hlast : ∀ e ∈ es.getLast?, e.isTree = false) :
    TopsAlike store store' config es := by
  rintro c rfl
  cases hlast _ rfl

theorem of_head (hhead : ∀ e ∈ es.head?, e.isTree = false) : TopsAlike store store' config es := by
  rintro c rfl
  cases hhead _ rfl

theorem append (h : TopsAlike store store' config es) (h' : TopsAlike store store' config es') :
    TopsAlike store store' config (es ++ es') := by
  intro c heq
  rcases List.append_eq_singleton_iff.1 heq with ⟨-, hc⟩ | ⟨hc, -⟩
  · exact h' c hc
  · exact h c hc

theorem resolved (h : TopsAlike store store' config node.entries) :
    TopsAlike store store' config (es ++ .tree (.resolved node) :: es') := by
  intro c heq
  rcases List.append_eq_singleton_iff.1 heq with ⟨-, hc⟩ | ⟨-, hnil⟩
  · cases hc
    exact Subtree.trimsAlike_resolved h
  · cases hnil

end TopsAlike

structure Joined (store store' : Blockstore Id) (config : Config) (root : Subtree) (key : String)
    (span : Span) (es : List NodeEntry) : Prop where
  keeps : Keeps store config root key span es
  topsAlike : TopsAlike store store' config es

theorem Joined.middle {before after : List NodeEntry}
    (h : Joined store store' config root key
      (span.between (Entry.leaves before) (Entry.leaves after)) node.entries)
    (hspan : (span.between (Entry.leaves before) (Entry.leaves after)).Around key)
    (hbefore : ∀ span, Keeps store config root key span before)
    (hafter : ∀ span, Keeps store config root key span after) :
    Joined store store' config root key span (before ++ .tree (.resolved node) :: after) := by
  refine ⟨?_, h.topsAlike.resolved⟩
  rw [List.append_cons]
  exact Keeps.middle hbefore hafter (Keeps.tree hspan h.keeps)

/--
The place is around the key and inside of `root`, and the places inside of it that are around the
key have the same nodes in both stores.
-/
structure Place.Steady (store store' : Blockstore Id) (config : Config) (root : Subtree)
    (key : String) (outer : Place) : Prop where
  around : outer.span.Around key
  within : outer.subtree.Within store config root
  resolve_eq : ∀ place : Place, place.In store config outer → place.span.Around key →
    place.subtree.resolve store' config = place.subtree.resolve store config

namespace Entry

theorem leaves_ofTree? (t : Option Subtree) : leaves (ofTree? t) = [] := by
  cases t <;> rfl

theorem eq_some_of_mem_ofTree? {t : Option Subtree} (h : .tree c ∈ ofTree? t) : t = some c := by
  cases t with
  | none => cases h
  | some u =>
    cases List.mem_singleton.1 h
    rfl

end Entry

theorem Gap.entries_eq {gap : Gap} (h : gap.subtree = some c) :
    gap.entries = gap.before ++ .tree c :: gap.after := by
  rw [Gap.entries, h, Gap.fill, List.append_assoc]
  rfl

theorem NodeOf.entries_eq_of_gap {node : Node} (h : (node.gap key).subtree = some c) :
    node.entries = (node.gap key).before ++ .tree c :: (node.gap key).after := by
  rw [← Gap.entries_eq h]
  exact (Gap.entries_of key node.entries).symm

namespace Gap.Parts

variable {gap : Gap} {holds : Subtree → List Leaf → Prop}

theorem leaves_before_le (parts : gap.Parts config holds layer key bs ss as) :
    ∀ l ∈ Entry.leaves gap.before, l.key ≤ key :=
  fun l hl => (parts.before_lt l (parts.before.mem_of_mem_leaves hl)).le

theorem le_leaves_after (parts : gap.Parts config holds layer key bs ss as) :
    ∀ l ∈ Entry.leaves gap.after, key ≤ l.key :=
  fun l hl => parts.le_after l (parts.after.mem_of_mem_leaves hl)

theorem span_around (parts : gap.Parts config holds layer key bs ss as) (h : span.Around key) :
    (span.between (Entry.leaves gap.before) (Entry.leaves gap.after)).Around key :=
  h.between parts.leaves_before_le parts.le_leaves_after

end Gap.Parts

namespace Place.Steady

variable {n : { node : Node // t.Covers node }}

theorem resolve (h : Place.Steady store store' config root key ⟨span, t⟩) :
    t.resolve store' config = t.resolve store config := h.resolve_eq _ .here h.around

theorem child (h : Place.Steady store store' config root key ⟨span, t⟩)
    (hn : (t.resolve store config).run = .ok n) (hentries : n.val.entries = es ++ .tree c :: es')
    (hes : ∀ l ∈ Entry.leaves es, l.key ≤ key) (hes' : ∀ l ∈ Entry.leaves es', key ≤ l.key) :
    Place.Steady store store' config root key
      ⟨span.between (Entry.leaves es) (Entry.leaves es'), c⟩ where
  around := h.around.between hes hes'
  within := by
    apply h.within.child hn
    rw [hentries]
    exact List.mem_append_right _ List.mem_cons_self
  resolve_eq := fun place hplace => h.resolve_eq place (.deeper hn hentries hplace)

theorem only (h : Place.Steady store store' config root key ⟨span, t⟩)
    (hn : (t.resolve store config).run = .ok n) (hentries : n.val.entries = [.tree c]) :
    Place.Steady store store' config root key ⟨span, c⟩ := by
  have hsplit : n.val.entries = [] ++ .tree c :: [] := hentries
  exact h.child hn hsplit nofun nofun

theorem trimsAlike (h : Place.Steady store store' config root key ⟨span, t⟩) :
    t.TrimsAlike store store' config := by
  induction t.acc with
  | intro t _ ih =>
    refine .intro h.resolve ?_
    intro n hn c hentries
    apply ih c
    · apply n.property
      rw [hentries]
      exact List.mem_cons_self
    · exact h.only hn hentries

theorem topsAlike (h : Place.Steady store store' config root key ⟨span, t⟩)
    (hn : (t.resolve store config).run = .ok n) :
    TopsAlike store store' config n.val.entries := fun _ hentries => (h.only hn hentries).trimsAlike

theorem keeps (h : Place.Steady store store' config root key ⟨span, t⟩)
    (hn : (t.resolve store config).run = .ok n)
    (hes : ∀ c, .tree c ∈ es → .tree c ∈ n.val.entries) {span' : Span} :
    Keeps store config root key span' es :=
  Keeps.of_within fun c hc => h.within.child hn (hes c hc)

theorem keeps_before (h : Place.Steady store store' config root key ⟨span, t⟩)
    (hn : (t.resolve store config).run = .ok n) {span' : Span} :
    Keeps store config root key span' (n.val.gap key).before := by
  apply h.keeps hn
  intro c hc
  rw [← Gap.entries_of key n.val.entries]
  exact List.mem_append_left _ (List.mem_append_left _ hc)

theorem keeps_after (h : Place.Steady store store' config root key ⟨span, t⟩)
    (hn : (t.resolve store config).run = .ok n)
    (hes : ∀ c, .tree c ∈ es → .tree c ∈ (n.val.gap key).after) {span' : Span} :
    Keeps store config root key span' es :=
  h.keeps hn fun c hc => NodeOf.mem_of_mem_after (hes c hc)

theorem fill (h : Place.Steady store store' config root key ⟨span, t⟩)
    (hn : (t.resolve store config).run = .ok n)
    (hes : Keeps store config root key
      (span.between (Entry.leaves (n.val.gap key).before) (Entry.leaves (n.val.gap key).after))
      es) :
    Keeps store config root key span ((n.val.gap key).fill es) :=
  Keeps.middle (fun _ => h.keeps_before hn) (fun _ => h.keeps_after hn fun _ => id) hes

theorem withAfter (h : Place.Steady store store' config root key ⟨span, t⟩)
    (hn : (t.resolve store config).run = .ok n)
    (hes : ∀ c, .tree c ∈ es → .tree c ∈ (n.val.gap key).after) :
    Keeps store config root key span { n.val.gap key with after := es }.entries := by
  refine ((h.keeps_before hn).append (h.keeps hn ?_)).append (h.keeps_after hn hes)
  exact fun c hc => NodeOf.tree_mem_of_gap (Entry.eq_some_of_mem_ofTree? hc)

section

variable {holds : Subtree → List Leaf → Prop}

theorem below (h : Place.Steady store store' config root key ⟨span, t⟩)
    (hn : (t.resolve store config).run = .ok n)
    (parts : (n.val.gap key).Parts config holds layer key bs ss as)
    (hsubtree : (n.val.gap key).subtree = some c) :
    Place.Steady store store' config root key
      ⟨span.between (Entry.leaves (n.val.gap key).before) (Entry.leaves (n.val.gap key).after),
        c⟩ := by
  exact h.child hn (NodeOf.entries_eq_of_gap hsubtree) parts.leaves_before_le parts.le_leaves_after

theorem behind {leaf : Leaf} (h : Place.Steady store store' config root leaf.key ⟨span, t⟩)
    (hn : (t.resolve store config).run = .ok n)
    (parts : (n.val.gap leaf.key).Parts config holds layer leaf.key bs ss as)
    (hafter : (n.val.gap leaf.key).after = .leaf leaf :: .tree c :: es) :
    Place.Steady store store' config root leaf.key
      ⟨⟨some leaf.key, (span.between [] (Entry.leaves es)).upper⟩, c⟩ := by
  have hentries : n.val.entries = (n.val.gap leaf.key).before ++
      Entry.ofTree? (n.val.gap leaf.key).subtree ++ [.leaf leaf] ++ .tree c :: es := by
    rw [List.append_assoc _ [Entry.leaf leaf], List.singleton_append, ← hafter]
    exact (Gap.entries_of leaf.key n.val.entries).symm
  have hleaves :
      Entry.leaves ((n.val.gap leaf.key).before ++ Entry.ofTree? (n.val.gap leaf.key).subtree ++
        [.leaf leaf]) = Entry.leaves (n.val.gap leaf.key).before ++ [leaf] := by
    rw [Entry.leaves_append, Entry.leaves_append, Entry.leaves_ofTree?, List.append_nil]
    rfl
  have hsteady := h.child hn hentries ?_ ?_
  · rw [hleaves, Span.between, List.getLast?_concat] at hsteady
    exact hsteady
  · rw [hleaves, List.forall_mem_append]
    exact ⟨parts.leaves_before_le, List.forall_mem_singleton.2 le_rfl⟩
  · intro l hl
    apply parts.le_leaves_after l
    rw [hafter]
    exact List.mem_cons_of_mem _ hl

theorem joined_withAfter {leaf : Leaf}
    (h : Place.Steady store store' config root leaf.key ⟨span, t⟩)
    (hn : (t.resolve store config).run = .ok n)
    (parts : (n.val.gap leaf.key).Parts config holds layer leaf.key bs ss as)
    (hafter : (n.val.gap leaf.key).after = .leaf leaf :: es) :
    Joined store store' config root leaf.key span
      { n.val.gap leaf.key with after := es }.entries := by
  constructor
  · apply h.withAfter hn
    intro c hc
    rw [hafter]
    exact List.mem_cons_of_mem _ hc
  · refine ((TopsAlike.of_last parts.before_last).append ?_).append ?_
    · intro c hc
      have hsubtree := Entry.eq_some_of_mem_ofTree? (hc ▸ List.mem_singleton_self _)
      exact (h.below hn parts hsubtree).trimsAlike
    · rintro c rfl
      exact (h.behind hn parts hafter).trimsAlike

theorem joined_fill {child : Node} (h : Place.Steady store store' config root key ⟨span, t⟩)
    (hn : (t.resolve store config).run = .ok n)
    (parts : (n.val.gap key).Parts config holds layer key bs ss as)
    (hchild : Joined store store' config root key
      (span.between (Entry.leaves (n.val.gap key).before) (Entry.leaves (n.val.gap key).after))
      child.entries) :
    Joined store store' config root key span
      ((n.val.gap key).fill (if child.entries.isEmpty then [] else [.tree (.resolved child)])) := by
  constructor
  · apply h.fill hn
    split
    · exact Keeps.nil
    · exact Keeps.tree (parts.span_around h.around) hchild.keeps
  · refine ((TopsAlike.of_last parts.before_last).append ?_).append
      (TopsAlike.of_head parts.after_head)
    split
    · exact nofun
    · rintro _ ⟨⟩
      exact Subtree.trimsAlike_resolved hchild.topsAlike

end

end Place.Steady

end MerkleSearch
