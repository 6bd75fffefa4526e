import MerkleSearch.Proofs.Address
import MerkleSearch.Proofs.WellFormed

/-!
This module contains the places at which subtrees stand in a tree. Each has a span, which is bounded
by the nearest leaves to either side in the nodes above. The main statement is that the leaves of a
tree are those of a place, with what is before it and what is after it, and that the span is bounded
by the last and the first of these.
-/

namespace MerkleSearch

/--
The keys between two others, as far as there are any. The bounds are not in it.
-/
structure Span where
  lower : Option String
  upper : Option String

namespace Span

def whole : Span := ⟨none, none⟩

def between (span : Span) (left right : List Leaf) : Span where
  lower := (left.getLast?.map (·.key)).or span.lower
  upper := (right.head?.map (·.key)).or span.upper

/--
The key is in the span or one of its bounds.
-/
def Meets (span : Span) (key : String) : Prop :=
  Key.Between span.lower span.upper key ∨ span.lower = some key ∨ span.upper = some key

def Around (span : Span) (key : String) : Prop :=
  (∀ k ∈ span.lower, k ≤ key) ∧ ∀ k ∈ span.upper, key ≤ k

variable {span : Span} {key : String} {bs as bs' as' : List Leaf}

theorem whole_around : whole.Around key := ⟨nofun, nofun⟩

theorem Around.meets (h : span.Around key) : span.Meets key := by
  by_cases hlower : span.lower = some key
  · exact .inr (.inl hlower)
  · by_cases hupper : span.upper = some key
    · exact .inr (.inr hupper)
    · refine .inl ⟨fun k hk => lt_of_le_of_ne (h.1 k hk) ?_, fun k hk =>
        lt_of_le_of_ne (h.2 k hk) ?_⟩
      · rintro rfl
        exact hlower hk
      · rintro rfl
        exact hupper hk

theorem Around.between (h : span.Around key) (hbs : ∀ l ∈ bs, l.key ≤ key)
    (has : ∀ l ∈ as, key ≤ l.key) :
    (span.between bs as).Around key :=
  ⟨forall_mem_map_or (fun l hl => hbs l (List.mem_of_getLast? hl)) h.1,
    forall_mem_map_or (fun l hl => has l (List.mem_of_head? hl)) h.2⟩

theorem Around.left (h : span.Around key) : (⟨span.lower, some key⟩ : Span).Around key := by
  refine ⟨h.1, ?_⟩
  rintro _ ⟨⟩
  exact le_rfl

theorem Around.right (h : span.Around key) : (⟨some key, span.upper⟩ : Span).Around key := by
  refine ⟨?_, h.2⟩
  rintro _ ⟨⟩
  exact le_rfl

@[simp]
theorem between_between :
    (span.between bs as).between bs' as' = span.between (bs ++ bs') (as' ++ as) := by
  unfold between
  simp only [List.getLast?_append, List.head?_append]
  cases bs'.getLast? <;> cases as'.head? <;> rfl

theorem between_congr (hleft : bs.getLast? = bs'.getLast?) (hright : as.head? = as'.head?) :
    span.between bs as = span.between bs' as' := by
  rw [between, between, hleft, hright]

end Span

structure Place where
  span : Span
  subtree : Subtree

namespace Place

inductive In (store : Blockstore Id) (config : Config) : Place → Place → Prop
  | here {place : Place} : In store config place place
  | deeper {place : Place} {span : Span} {t c : Subtree} {left right : List NodeEntry}
    {n : { node : Node // t.Covers node }} (hn : (t.resolve store config).run = .ok n)
    (hentries : n.val.entries = left ++ .tree c :: right)
    (h : In store config place ⟨span.between (Entry.leaves left) (Entry.leaves right), c⟩) :
    In store config place ⟨span, t⟩

def Among (store : Blockstore Id) (config : Config) (place : Place) (span : Span)
    (es : List NodeEntry) : Prop :=
  ∃ left c right, es = left ++ .tree c :: right ∧
    place.In store config ⟨span.between (Entry.leaves left) (Entry.leaves right), c⟩

variable {config : Config} {store : Blockstore Id} {place : Place} {span : Span} {t : Subtree}
variable {es es' : List NodeEntry}

theorem in_iff {n : { node : Node // t.Covers node }} (hn : (t.resolve store config).run = .ok n) :
    place.In store config ⟨span, t⟩ ↔ place = ⟨span, t⟩ ∨
      place.Among store config span n.val.entries := by
  constructor
  · intro h
    cases h with
    | here => exact .inl rfl
    | deeper hn' hentries h =>
      cases hn.symm.trans hn'
      exact .inr ⟨_, _, _, hentries, h⟩
  · rintro (rfl | ⟨left, c, right, hentries, h⟩)
    · exact .here
    · exact .deeper hn hentries h

theorem in_resolved {node : Node} : place.In store config ⟨span, .resolved node⟩ ↔
    place = ⟨span, .resolved node⟩ ∨ place.Among store config span node.entries :=
  in_iff (n := ⟨node, Subtree.covers_resolved node⟩) rfl

theorem among_singleton :
    place.Among store config span [.tree t] ↔ place.In store config ⟨span, t⟩ := by
  constructor
  · rintro ⟨left, c, right, hentries, h⟩
    obtain ⟨rfl, heq⟩ | ⟨_, -, hnil⟩ := List.cons_eq_append_iff.1 hentries
    · cases heq
      exact h
    · simp at hnil
  · intro h
    exact ⟨[], t, [], rfl, h⟩

theorem Among.of_append (h : place.Among store config span (es ++ es')) :
    place.Among store config (span.between [] (Entry.leaves es')) es ∨
      place.Among store config (span.between (Entry.leaves es) []) es' := by
  obtain ⟨left, c, right, hentries, h⟩ := h
  rcases List.append_eq_append_iff.1 hentries with ⟨middle, rfl, hes'⟩ | ⟨middle, rfl, hright⟩
  · refine .inr ⟨middle, c, right, hes', ?_⟩
    rw [Span.between_between, List.append_nil, ← Entry.leaves_append]
    exact h
  · cases middle with
    | nil =>
      refine .inr ⟨[], c, right, hright.symm, ?_⟩
      rw [Span.between_between, Entry.leaves_append, Entry.leaves_nil, List.append_nil,
        List.append_nil, List.append_nil]
      exact h
    | cons e middle =>
      cases hright
      refine .inl ⟨left, c, middle, rfl, ?_⟩
      rw [Span.between_between, List.nil_append, ← Entry.leaves_append]
      exact h

end Place

theorem Entry.isTree_getLast?_of_isChain {α : Type} {t : α} {es es' : List (Entry α)}
    (h : (es ++ .tree t :: es').IsChain Apart) : ∀ e ∈ es.getLast?, e.isTree = false := by
  intro e he
  rw [Bool.eq_false_iff]
  intro htree
  exact (List.isChain_append.1 h).2.2 e he (.tree t) rfl ⟨htree, rfl⟩

section

variable {config : Config} {archive : Archive config} {layer height : Nat} {es : List NodeEntry}
variable {ls : List Leaf}

theorem Spells.getLast?_leaves {τ : Type} {holds : τ → List Leaf → Prop} {es : List (Entry τ)}
    (h : Spells config holds layer es ls) (hlast : ∀ e ∈ es.getLast?, e.isTree = false) :
    (Entry.leaves es).getLast? = ls.getLast? := by
  rcases es.eq_nil_or_concat' with rfl | ⟨init, e, rfl⟩
  · rw [h.of_nil]
    rfl
  · obtain ⟨bs, as, rfl, -, has⟩ := h.of_append
    cases has with
    | leaf _ has =>
      cases has
      rw [Entry.leaves_append, Entry.leaves_leaf, Entry.leaves_nil, List.getLast?_concat,
        List.getLast?_concat]
    | tree => cases hlast _ List.getLast?_concat

theorem Spells.head?_leaves {τ : Type} {holds : τ → List Leaf → Prop} {es : List (Entry τ)}
    (h : Spells config holds layer es ls) (hhead : ∀ e ∈ es.head?, e.isTree = false) :
    (Entry.leaves es).head? = ls.head? := by
  cases h with
  | nil => rfl
  | leaf => rfl
  | tree => cases hhead _ rfl

theorem Spells.of_getLast? {τ : Type} {holds : τ → List Leaf → Prop} {es : List (Entry τ)} {t : τ}
    (h : Spells config holds layer es ls) (hlast : es.getLast? = some (.tree t)) :
    ∃ bs as, ls = bs ++ as ∧ Spells config holds layer es.dropLast bs ∧ holds t as := by
  rw [← List.dropLast_append_getLast? _ hlast] at h
  obtain ⟨bs, as, rfl, hbs, has⟩ := h.of_append
  exact ⟨bs, as, rfl, hbs, has.of_singleton.1⟩

theorem NodeOf.Holds.spells_has {node : Node}
    (h : node.Holds archive (Subtree.Holds archive layer) layer ls)
    (hhas : archive.Has (layer + 1) ls) :
    Spells config (fun c ts => c.Holds archive layer ts ∧ archive.Has layer ts) layer
      node.entries ls := by
  apply (Leaves.spells_groups h.spells.layer_le).of_forall₂
  · exact Entry.forall₂_imp (S := fun c ts => c.Holds archive layer ts ∧ archive.Has layer ts)
      (h.spells.groups h.apart) fun c ts hc _ hts => ⟨hc, hhas.2 ts hts⟩
  · rintro c _ ts hc rfl - -
    exact hc

structure ChildParts (archive : Archive config) (layer : Nat) (left : List NodeEntry) (c : Subtree)
    (right : List NodeEntry) (bl us br : List Leaf) : Prop where
  spells_left :
    Spells config (fun c ts => c.Holds archive layer ts ∧ archive.Has layer ts) layer left bl
  spells_right :
    Spells config (fun c ts => c.Holds archive layer ts ∧ archive.Has layer ts) layer right br
  holds : c.Holds archive layer us
  has : archive.Has layer us
  ne_nil : us ≠ []
  left_last : ∀ e ∈ left.getLast?, e.isTree = false
  right_head : ∀ e ∈ right.head?, e.isTree = false

theorem NodeOf.Holds.exists_child {node : Node} {left right : List NodeEntry} {c : Subtree}
    (h : node.Holds archive (Subtree.Holds archive layer) layer ls)
    (hhas : archive.Has (layer + 1) ls) (hentries : node.entries = left ++ .tree c :: right) :
    ∃ bl us br, ls = bl ++ (us ++ br) ∧ ChildParts archive layer left c right bl us br := by
  have hspells := h.spells_has hhas
  have hapart := h.apart
  rw [hentries] at hspells hapart
  obtain ⟨bl, _, rfl, hleft, hrest⟩ := hspells.of_append
  obtain ⟨us, br, rfl, ⟨hc, hchas⟩, hne, -, hright⟩ := hrest.of_tree_cons
  exact ⟨bl, us, br, rfl, hleft, hright, hc, hchas, hne, Entry.isTree_getLast?_of_isChain hapart,
    Entry.isTree_head?_of_isChain hapart.right_of_append⟩

/--
No two subtrees are adjacent, so the leaves nearest to one are in the node itself unless it ends
there.
-/
theorem ChildParts.span_eq {left right : List NodeEntry} {c : Subtree}
    {bl us br bs as : List Leaf} {span : Span}
    (h : ChildParts archive layer left c right bl us br) :
    (span.between bs as).between (Entry.leaves left) (Entry.leaves right) =
      span.between (bs ++ bl) (br ++ as) := by
  rw [← Span.between_between]
  apply Span.between_congr
  · exact h.spells_left.getLast?_leaves h.left_last
  · exact h.spells_right.head?_leaves h.right_head

end

namespace Place

variable {config : Config} {archive : Archive config} {store : Blockstore Id} {place outer : Place}
variable {span : Span} {t : Subtree} {height : Nat} {bs as ls : List Leaf}

theorem In.exists_leaves (h : place.In store config outer)
    (houter : outer = ⟨span.between bs as, t⟩) (hholds : t.Holds archive height ls)
    (hhas : archive.Has height ls) (hls : Listing ls) (hstore : archive.Agrees store) :
    ∃ height' bs' us as', ls = bs' ++ us ++ as' ∧ place.span =
      span.between (bs ++ bs') (as' ++ as) ∧
      place.subtree.Holds archive height' us ∧ archive.Has height' us ∧
      (us = [] → place = outer ∧ ls = []) := by
  induction h generalizing t height bs as ls with
  | here =>
    subst houter
    refine ⟨height, [], ls, [], ?_, ?_, hholds, hhas, fun hnil => ⟨rfl, hnil⟩⟩
    · rw [List.nil_append, List.append_nil]
    · rw [List.append_nil, List.nil_append]
  | @deeper span' u c left right n hn hentries h ih =>
    cases houter
    cases height with
    | zero => exact hholds.elim
    | succ layer =>
      obtain ⟨bl, us, br, rfl, hchild⟩ :=
        (hholds.of_resolve hls hstore hn).exists_child hhas hentries
      obtain ⟨height', bs', vs, as', rfl, hplace, hholds, hhas, hvs⟩ :=
        ih (by rw [hchild.span_eq]) hchild.holds hchild.has hls.right.left
      refine ⟨height', bl ++ bs', vs, as' ++ br, ?_, ?_, hholds, hhas, ?_⟩
      · simp only [List.append_assoc]
      · rw [hplace, List.append_assoc, List.append_assoc]
      · exact fun hnil => absurd (hvs hnil).2 hchild.ne_nil

end Place

theorem Listing.eq_of_append_eq {bs bs' us as as' : List Leaf} (h : Listing (bs ++ us ++ as))
    (hne : us ≠ []) (heq : bs ++ us ++ as = bs' ++ us ++ as') :
    bs = bs' ∧ as = as' := by
  obtain ⟨l, us, rfl⟩ := List.exists_cons_of_ne_nil hne
  have hbs : bs = bs' := by
    have h' := h
    rw [heq] at h'
    rw [List.append_assoc] at h h' heq
    rw [← h.before_append_cons, ← h'.before_append_cons]
    simpa using congrArg (Leaves.before l.key) heq
  subst hbs
  exact ⟨rfl, List.append_cancel_left heq⟩

theorem Tree.Holds.span_eq {config : Config} {archive : Archive config}
    {store store' : Blockstore Id} {tree : Tree} {ls : List Leaf} {place place' : Place}
    (h : tree.Holds archive ls) (hcovers : archive.Covers tree) (hstore : archive.Agrees store)
    (hstore' : archive.Agrees store') (hplace : place.In store config ⟨.whole, tree.root⟩)
    (hplace' : place'.In store' config ⟨.whole, tree.root⟩)
    (haddress : place.subtree.address config = place'.subtree.address config) :
    place.span = place'.span := by
  obtain ⟨layer, -, hroot⟩ := h.root
  have hhas := hroot.has h.listing hcovers
  have houter : (⟨.whole, tree.root⟩ : Place) = ⟨Span.whole.between [] [], tree.root⟩ := rfl
  obtain ⟨m, bs, us, as, heq, hspan, hholds, hm, hnil⟩ :=
    hplace.exists_leaves houter hroot hhas h.listing hstore
  obtain ⟨m', bs', us', as', heq', hspan', hholds', hm', hnil'⟩ :=
    hplace'.exists_leaves houter hroot hhas h.listing hstore'
  have hls := h.listing
  obtain ⟨n, rfl⟩ := Nat.exists_eq_succ_of_ne_zero hm.height_pos.ne'
  obtain ⟨n', rfl⟩ := Nat.exists_eq_succ_of_ne_zero hm'.height_pos.ne'
  rw [hholds.address_eq, hholds'.address_eq] at haddress
  have hus : us = us' := by
    refine (hm.eq_of_address_eq hm' ?_ ?_ haddress).1
    · rw [heq] at hls
      exact hls.left.right
    · rw [heq'] at hls
      exact hls.left.right
  subst hus
  by_cases hne : us = []
  · rw [(hnil hne).1, (hnil' hne).1]
  · have hls := h.listing
    rw [heq] at hls heq'
    obtain ⟨rfl, rfl⟩ := hls.eq_of_append_eq hne heq'
    rw [hspan, hspan']

end MerkleSearch
