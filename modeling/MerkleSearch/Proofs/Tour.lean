import MerkleSearch.Cursor
import MerkleSearch.Proofs.Confined
import MerkleSearch.Proofs.Visits
import MerkleSearch.Proofs.WellFormed

/-!
This module contains what a cursor shows on its way through a tree. A walk keeps one list of all
that is still to be visited, a cursor one list for each node that it is in; what lies ahead of both
is the same. The main statement is `Tree.Built.passes_tour`: advancing a cursor until it is done
shows the entries of a walk, each with the layer of its node, and a step over a subtree leads to
what is shown after everything inside.
-/

namespace MerkleSearch

variable {config : Config} {archive : Archive config} {store : Blockstore Id} {layer : Nat}
variable {ls : List Leaf} {t : Subtree} {node : Node} {f : Frame} {inner outer base : List Frame}
variable {c next : Cursor} {cs : List Cursor} {e e' : NodeEntry} {es vs : List NodeEntry} {k : Nat}
variable {ps ps' qs : List (NodeEntry × Nat)}

/--
A walk over entries, where next to each entry stands the layer of the node that it is in.
-/
inductive Tour (store : Blockstore Id) (config : Config) :
    List (NodeEntry × Nat) → List (NodeEntry × Nat) → Prop
  | nil : Tour store config [] []
  | leaf {l : Leaf} {k : Nat} {ps qs : List (NodeEntry × Nat)} (h : Tour store config ps qs) :
    Tour store config ((.leaf l, k) :: ps) ((.leaf l, k) :: qs)
  | tree {t : Subtree} {k layer : Nat} {ps qs : List (NodeEntry × Nat)}
    {n : { node : Node // t.Covers node }} (hn : (t.resolve store config).run = .ok n)
    (hlayer : (t.layerOf store config n.val n.property).run = .ok layer)
    (h : Tour store config (n.val.entries.map (·, layer) ++ ps) qs) :
    Tour store config ((.tree t, k) :: ps) ((.tree (.resolved n.val), k) :: qs)

inductive Opens (store : Blockstore Id) (config : Config) :
    NodeEntry → NodeEntry → List NodeEntry → Prop
  | leaf (l : Leaf) : Opens store config (.leaf l) (.leaf l) []
  | tree {t : Subtree} {n : { node : Node // t.Covers node }}
    (hn : (t.resolve store config).run = .ok n) :
    Opens store config (.tree t) (.tree (.resolved n.val)) n.val.entries

theorem Walked.exists_opens {us : List NodeEntry} (h : Walked store config (e :: us) vs) :
    ∃ e' es vs', vs = e' :: vs' ∧ Opens store config e e' es ∧
      Walked store config (es ++ us) vs' := by
  cases h with
  | leaf h => exact ⟨_, [], _, rfl, .leaf _, h⟩
  | tree hn h => exact ⟨_, _, _, rfl, .tree hn, h⟩

namespace Tour

theorem walked (h : Tour store config ps qs) :
    Walked store config (ps.map Prod.fst) (qs.map Prod.fst) := by
  induction h with
  | nil => exact .nil
  | leaf _ ih => exact .leaf ih
  | tree hn _ _ ih =>
    rw [List.map_append, List.map_map, Function.comp_def, List.map_id'] at ih
    exact .tree hn ih

end Tour

def Placed (archive : Archive config) (ps : List (NodeEntry × Nat)) : Prop :=
  ∀ t k, (.tree t, k) ∈ ps → ∃ ls, ls ≠ [] ∧ Listing ls ∧ t.Holds archive k ls

namespace Placed

theorem of_subset (h : Placed archive ps) (hsub : ps' ⊆ ps) : Placed archive ps' :=
  fun t k ht => h t k (hsub ht)

theorem append (h : Placed archive ps) (h' : Placed archive ps') : Placed archive (ps ++ ps') := by
  intro t k ht
  rcases List.mem_append.1 ht with ht | ht
  · exact h t k ht
  · exact h' t k ht

end Placed

theorem NodeOf.Holds.placed (h : node.Holds archive (Subtree.Holds archive layer) layer ls)
    (hls : Listing ls) :
    Placed archive (node.entries.map (·, layer)) := by
  intro t k ht
  obtain ⟨e, he, heq⟩ := List.mem_map.1 ht
  cases heq
  obtain ⟨ts, hts, hne, -, hsub⟩ := h.spells.of_tree_mem he
  exact ⟨ts, hne, hls.sublist hsub, hts⟩

namespace Opens

def Fits (archive : Archive config) (e : NodeEntry) (k : Nat) : Prop :=
  ∀ t, e = .tree t → ∃ ls, Listing ls ∧ t.Holds archive k ls

theorem placed (h : Opens store config e e' es) (hfits : Fits archive e k)
    (hstore : archive.Agrees store) :
    Placed archive (es.map (·, k - 1)) := by
  cases h with
  | leaf l => exact nofun
  | @tree t n hn =>
    obtain ⟨ls, hls, hholds⟩ := hfits t rfl
    cases k with
    | zero => exact hholds.elim
    | succ layer => exact (hholds.of_resolve hls hstore hn).placed hls

theorem tour (h : Opens store config e e' es) (hfits : Fits archive e k)
    (hstore : archive.Agrees store) (hrest : Tour store config (es.map (·, k - 1) ++ ps) qs) :
    Tour store config ((e, k) :: ps) ((e', k) :: qs) := by
  cases h with
  | leaf l => exact .leaf hrest
  | @tree t n hn =>
    obtain ⟨ls, hls, hholds⟩ := hfits t rfl
    cases k with
    | zero => exact hholds.elim
    | succ layer =>
      apply Tour.tree hn _ hrest
      rw [(hholds.of_resolve hls hstore hn).layerOf]
      rfl

theorem entries_ne_nil (h : Opens store config e e' es) (he : e'.isTree)
    (hplaced : Placed archive [(e, k)]) (hstore : archive.Agrees store) :
    k ≠ 0 ∧ es ≠ [] := by
  cases h with
  | leaf l => cases he
  | @tree t n hn =>
    obtain ⟨ls, hne, hls, hholds⟩ := hplaced t k List.mem_cons_self
    cases k with
    | zero => exact hholds.elim
    | succ layer =>
      have hspells := (hholds.of_resolve hls hstore hn).spells
      exact ⟨Nat.succ_ne_zero layer, fun hnil => hne (hspells.eq_nil_iff.1 hnil)⟩

theorem rel (h : Opens store config e e' es) :
    Entry.Rel (fun t t' => t.address config = t'.address config) e e' := by
  cases h with
  | leaf l => exact .leaf l
  | tree hn => exact .tree (Subtree.address_of_resolve hn).symm

end Opens

theorem Placed.fits (h : Placed archive ps) (he : (e, k) ∈ ps) : Opens.Fits archive e k := by
  rintro t rfl
  obtain ⟨ls, -, hls, hholds⟩ := h t k he
  exact ⟨ls, hls, hholds⟩

namespace Cursor

def behind (frames : List Frame) : List (NodeEntry × Nat) :=
  frames.flatMap fun f => f.rest.map (·, f.layer)

/--
All that a cursor with these frames has still to show, apart from what is inside the subtrees.
-/
def ahead : List Frame → List (NodeEntry × Nat)
  | [] => []
  | f :: outer => (f.current, f.layer) :: behind (f :: outer)

/--
The frames of a cursor that goes on in some nodes, if there is anything left in them, or else behind
what they are in.
-/
def resume (inner base : List Frame) : List Frame :=
  if inner = [] then stepOver.go base else inner ++ base

theorem ahead_go : ahead (stepOver.go outer) = behind outer := by
  induction outer with
  | nil => rfl
  | cons g outer ih =>
    unfold stepOver.go
    split
    · next heq => simp [ahead, behind, heq]
    · next heq => simp [ih, behind, heq]

theorem go_append : stepOver.go (inner ++ base) = resume (stepOver.go inner) base := by
  induction inner with
  | nil => rfl
  | cons f inner ih =>
    rw [List.cons_append]
    unfold stepOver.go
    split
    · rfl
    · exact ih

def first (entries : List NodeEntry) (layer : Nat) : List Frame :=
  match entries with
  | [] => []
  | current :: rest => [{ current, rest, index := 0, layer }]

theorem ahead_first (es : List NodeEntry) (layer : Nat) :
    ahead (first es layer) = es.map (·, layer) := by
  cases es <;> simp [first, ahead, behind]

theorem resume_append : resume inner (outer ++ base) = resume (resume inner outer) base := by
  by_cases hinner : inner = []
  · rw [resume, if_pos hinner, go_append, resume.eq_def inner, if_pos hinner]
  · have hne : inner ++ outer ≠ [] := List.append_ne_nil_of_left_ne_nil hinner outer
    rw [resume, if_neg hinner, resume.eq_def inner, if_neg hinner, resume, if_neg hne,
      List.append_assoc]

theorem ahead_resume : ahead (resume inner outer) = ahead inner ++ behind outer := by
  cases inner with
  | nil => exact ahead_go
  | cons f inner => simp [resume, ahead, behind]

theorem enter_eq_ok_iff :
    enter f outer node = .ok next ↔ f.layer ≠ 0 ∧ (node.entries = [] → outer = []) ∧
    next = ⟨resume (first node.entries (f.layer - 1)) (f :: outer)⟩ := by
  unfold enter
  split
  · next hzero =>
    simp [hzero, throw, throwThe, MonadExceptOf.throw]
  · next hlayer =>
    split
    · next heq =>
      simp only [heq, first, resume, pure, Except.pure]
      simp [hlayer, eq_comm]
    · next heq =>
      simp only [heq, first, resume, pure, Except.pure]
      simp [hlayer, eq_comm, stepOver]
    · next heq => simp [heq, throw, throwThe, MonadExceptOf.throw]

theorem resolveCurrent_ok {n : { node : Node // t.Covers node }} (hcurrent : f.current = .tree t)
    (hn : (t.resolve store config).run = .ok n) :
    (⟨f :: outer⟩ : Cursor).resolveCurrent store config =
      pure (.ok n.val, ⟨{ f with current := .tree (.resolved n.val) } :: outer⟩) := by
  have hn : (t.resolve store config).run = pure (.ok n) := hn
  unfold resolveCurrent
  dsimp only
  rw [hcurrent]
  dsimp only
  rw [hn, pure_bind]

theorem resolveCurrent_error {e : Error} (hcurrent : f.current = .tree t)
    (he : (t.resolve store config).run = .error e) :
    (⟨f :: outer⟩ : Cursor).resolveCurrent store config = pure (.error e, ⟨f :: outer⟩) := by
  have he : (t.resolve store config).run = pure (.error e) := he
  unfold resolveCurrent
  dsimp only
  rw [hcurrent]
  dsimp only
  rw [he, pure_bind]

theorem advance_tree_eq_ok_iff (hcurrent : f.current = .tree t) :
    (⟨f :: outer⟩ : Cursor).advance store config = (.ok (), next) ↔
      ∃ n, (t.resolve store config).run = .ok n ∧
      f.layer ≠ 0 ∧ (n.val.entries = [] → outer = []) ∧
      next =
        ⟨resume (first n.val.entries (f.layer - 1))
          ({ f with current := .tree (.resolved n.val) } :: outer)⟩ := by
  have hadvance : (⟨f :: outer⟩ : Cursor).advance store config =
      (⟨f :: outer⟩ : Cursor).stepInto store config := by
    unfold advance current?
    dsimp only [List.head?_cons, Option.map_some]
    rw [hcurrent]
  rw [hadvance, stepInto, if_neg (show ¬(⟨f :: outer⟩ : Cursor).isDone = true from nofun)]
  cases hresolve : (t.resolve store config).run with
  | error e =>
    rw [resolveCurrent_error hcurrent hresolve, pure_bind]
    constructor
    · intro h
      cases h
    · rintro ⟨n, hn, -⟩
      cases hn
  | ok n =>
    rw [resolveCurrent_ok hcurrent hresolve, pure_bind]
    dsimp only
    have henter : enter { f with current := .tree (.resolved n.val) } outer n.val = .ok next ↔ _ :=
      enter_eq_ok_iff
    constructor
    · intro h
      split at h
      · cases h
      · next hnext =>
        cases h
        exact ⟨n, rfl, henter.1 hnext⟩
    · rintro ⟨_, hn, h⟩
      cases hn
      rw [henter.2 h]
      rfl

theorem advance_leaf {l : Leaf} (hcurrent : f.current = .leaf l) :
    (⟨f :: outer⟩ : Cursor).advance store config = (.ok (), ⟨stepOver.go (f :: outer)⟩) := by
  unfold advance current?
  dsimp only [List.head?_cons, Option.map_some]
  rw [hcurrent]
  rfl

theorem advance_eq_ok_iff : (⟨f :: outer⟩ : Cursor).advance store config = (.ok (), next) ↔
    ∃ e es, Opens store config f.current e es ∧ (e.isTree → f.layer ≠ 0 ∧ (es = [] → outer = [])) ∧
      next = ⟨resume (first es (f.layer - 1)) ({ f with current := e } :: outer)⟩ := by
  cases hcurrent : f.current with
  | leaf l =>
    rw [advance_leaf hcurrent]
    constructor
    · intro h
      cases h
      exact ⟨_, _, .leaf l, nofun, by rw [← hcurrent]; rfl⟩
    · rintro ⟨e, es, hopens, -, rfl⟩
      cases hopens
      rw [← hcurrent]
      rfl
  | tree t =>
    rw [advance_tree_eq_ok_iff hcurrent]
    constructor
    · rintro ⟨n, hn, hlayer, hes, rfl⟩
      exact ⟨_, _, .tree hn, fun _ => ⟨hlayer, hes⟩, rfl⟩
    · rintro ⟨e, es, hopens, hentered, rfl⟩
      cases hopens with
      | tree hn => exact ⟨_, hn, (hentered rfl).1, (hentered rfl).2, rfl⟩

inductive Passes (store : Blockstore Id) (config : Config) : Cursor → List Cursor → Prop
  | done : Passes store config ⟨[]⟩ []
  | move {f : Frame} {outer : List Frame} {next : Cursor} {cs : List Cursor}
    (h : (⟨f :: outer⟩ : Cursor).advance store config = (.ok (), next))
    (hrest : Passes store config next cs) : Passes store config ⟨f :: outer⟩ (⟨f :: outer⟩ :: cs)

def Below (bound : Nat) (c : Cursor) : Prop := ∀ f ∈ c.frames, f.layer < bound

theorem Below.stepOver {bound : Nat} (h : Below bound ⟨outer⟩) :
    Below bound ⟨stepOver.go outer⟩ := by
  induction outer with
  | nil => exact h
  | cons f outer ih =>
    unfold stepOver.go
    obtain ⟨hf, houter⟩ := List.forall_mem_cons.1 h
    split
    · exact List.forall_mem_cons.2 ⟨hf, houter⟩
    · exact ih houter

theorem Below.resume_first {bound : Nat} (h : Below bound ⟨outer⟩) (hk : k < bound) :
    Below bound ⟨resume (first es k) outer⟩ := by
  cases es with
  | nil => exact h.stepOver
  | cons e es => exact List.forall_mem_cons.2 ⟨hk, h⟩

theorem Below.advance {bound : Nat} (h : c.Below bound)
    (hadvance : c.advance store config = (.ok (), next)) : next.Below bound := by
  obtain ⟨_ | ⟨f, outer⟩⟩ := c
  · cases hadvance
    exact h
  · obtain ⟨e, es, -, -, rfl⟩ := advance_eq_ok_iff.1 hadvance
    obtain ⟨hf, houter⟩ := List.forall_mem_cons.1 h
    apply Below.resume_first
    · exact List.forall_mem_cons.2 ⟨hf, houter⟩
    · exact Nat.lt_of_le_of_lt (Nat.sub_le f.layer 1) hf

theorem Passes.forall_below {bound : Nat} (h : Passes store config c cs) (hc : c.Below bound) :
    ∀ d ∈ cs, d.Below bound := by
  induction h with
  | done => exact nofun
  | move hadvance _ ih => exact List.forall_mem_cons.2 ⟨hc, ih (hc.advance hadvance)⟩

structure IsAt (config : Config) (c : Cursor) (q : NodeEntry × Nat) : Prop where
  current : ∃ e, c.current? = some e ∧
    Entry.Rel (fun t t' => t.address config = t'.address config) e q.1
  layer : c.layer = .ok q.2

theorem IsAt.of_opens (h : Opens store config f.current e es) :
    IsAt config ⟨f :: outer⟩ (e, f.layer) :=
  ⟨⟨f.current, rfl, h.rel⟩, rfl⟩

theorem ahead_entered : ahead (resume (first es k) ({ f with current := e } :: outer)) =
    es.map (·, k) ++ behind (f :: outer) := by
  rw [ahead_resume, ahead_first]
  rfl

theorem Passes.leave (h : Passes store config ⟨resume inner base⟩ cs)
    (hplaced : Placed archive (ahead inner)) (hstore : archive.Agrees store) :
    ∃ inside post qs, cs = inside ++ post ∧ Passes store config ⟨stepOver.go base⟩ post ∧
      Tour store config (ahead inner) qs ∧ List.Forall₂ (IsAt config) inside qs := by
  generalize hc : (⟨resume inner base⟩ : Cursor) = c at h
  induction h generalizing inner with
  | done =>
    cases inner with
    | nil =>
      refine ⟨[], [], [], rfl, ?_, .nil, .nil⟩
      rw [resume, if_pos rfl] at hc
      rw [hc]
      exact .done
    | cons f inner => cases hc
  | @move f outer next cs hadvance hrest ih =>
    cases inner with
    | nil =>
      refine ⟨[], _, [], rfl, ?_, .nil, .nil⟩
      rw [resume, if_pos rfl] at hc
      rw [hc]
      exact .move hadvance hrest
    | cons g inner =>
      cases hc
      obtain ⟨e, es, hopens, -, rfl⟩ := advance_eq_ok_iff.1 hadvance
      have hfits := hplaced.fits List.mem_cons_self
      have hframes : Placed archive (es.map (·, f.layer - 1) ++ behind (f :: inner)) :=
        (hopens.placed hfits hstore).append (hplaced.of_subset (List.subset_cons_self _ _))
      rw [← ahead_entered] at hframes
      obtain ⟨inside, post, qs, rfl, hpost, htour, hat⟩ :=
        ih hframes (congrArg Cursor.mk resume_append.symm)
      rw [ahead_entered] at htour
      exact ⟨_ :: inside, post, _ :: qs, rfl, hpost, hopens.tour hfits hstore htour,
        .cons (.of_opens hopens) hat⟩

theorem Passes.inside (h : Passes store config ⟨f :: outer⟩ cs)
    (hfits : Opens.Fits archive f.current f.layer) (hstore : archive.Agrees store) :
    ∃ inside post qs, cs = ⟨f :: outer⟩ :: (inside ++ post) ∧
      Passes store config (⟨f :: outer⟩ : Cursor).stepOver post ∧
      Tour store config [(f.current, f.layer)] qs ∧
      List.Forall₂ (IsAt config) (⟨f :: outer⟩ :: inside) qs := by
  cases h with
  | move hadvance hrest =>
    obtain ⟨e, es, hopens, -, rfl⟩ := advance_eq_ok_iff.1 hadvance
    have hplaced := hopens.placed hfits hstore
    rw [← ahead_first] at hplaced
    obtain ⟨inside, post, qs, rfl, hpost, htour, hat⟩ := hrest.leave hplaced hstore
    rw [ahead_first, ← List.append_nil (es.map _)] at htour
    exact ⟨inside, post, _ :: qs, rfl, hpost, hopens.tour hfits hstore htour,
      .cons (.of_opens hopens) hat⟩

def Fits (archive : Archive config) : List Frame → Prop
  | [] => True
  | f :: outer => Opens.Fits archive f.current f.layer ∧ Placed archive (behind (f :: outer))

theorem Fits.of_placed (h : Placed archive (ahead inner)) : Fits archive inner := by
  cases inner with
  | nil => trivial
  | cons f outer => exact ⟨h.fits List.mem_cons_self, h.of_subset (List.subset_cons_self _ _)⟩

theorem Passes.fits {before after : List Cursor}
    (h : Passes store config c (before ++ next :: after)) (hfits : Fits archive c.frames)
    (hstore : archive.Agrees store) :
    Passes store config next (next :: after) ∧ Fits archive next.frames := by
  induction before generalizing c with
  | nil =>
    cases h with
    | move hadvance hrest => exact ⟨.move hadvance hrest, hfits⟩
  | cons d before ih =>
    cases h with
    | @move f outer _ _ hadvance hrest =>
      obtain ⟨e, es, hopens, -, rfl⟩ := advance_eq_ok_iff.1 hadvance
      apply ih hrest
      apply Fits.of_placed
      rw [ahead_entered]
      exact (hopens.placed hfits.1 hstore).append hfits.2

theorem exists_passes (h : Walked store config ((ahead c.frames).map Prod.fst) vs)
    (hplaced : Placed archive (ahead c.frames)) (hstore : archive.Agrees store) :
    ∃ cs, Passes store config c cs := by
  obtain ⟨frames⟩ := c
  induction vs generalizing frames with
  | nil =>
    cases frames with
    | nil => exact ⟨[], .done⟩
    | cons f outer =>
      obtain ⟨_, _, _, hnil, -⟩ := h.exists_opens
      cases hnil
  | cons v vs ih =>
    cases frames with
    | nil => cases h
    | cons f outer =>
      obtain ⟨_, es, _, heq, hopens, hwalked⟩ := h.exists_opens
      cases heq
      have hentered : v.isTree → f.layer ≠ 0 ∧ (es = [] → outer = []) := by
        intro he
        obtain ⟨hlayer, hes⟩ :=
          hopens.entries_ne_nil he (k := f.layer) (hplaced.of_subset (by simp [ahead])) hstore
        exact ⟨hlayer, fun hnil => (hes hnil).elim⟩
      have hinside := hopens.placed (hplaced.fits List.mem_cons_self) hstore
      obtain ⟨cs, hcs⟩ := ih (resume (first es (f.layer - 1)) ({ f with current := v } :: outer))
        (by
          rw [ahead_entered, List.map_append, List.map_map, Function.comp_def, List.map_id']
          exact hwalked)
        (by
          rw [ahead_entered]
          exact hinside.append (hplaced.of_subset (List.subset_cons_self _ _)))
      exact ⟨_, .move (advance_eq_ok_iff.2 ⟨v, es, hopens, hentered, rfl⟩) hcs⟩

theorem Passes.eq_head (h : Passes store config c cs) : c = cs.head?.getD ⟨[]⟩ := by
  cases h <;> rfl

end Cursor

namespace Tree

variable {tree : Tree}

def rootFrame (node : Node) (layer : Nat) : Frame where
  current := .tree (.resolved node)
  rest := []
  index := 0
  layer := layer + 1

theorem start_eq_ok_iff :
    (Cursor.start store tree).run = .ok c ↔ ∃ n layer,
    (tree.root.resolve store tree.config).run = .ok n ∧
      (tree.root.layerOf store tree.config n.val n.property).run = .ok layer ∧
      c = ⟨[rootFrame n.val layer]⟩ := by
  unfold Cursor.start
  constructor
  · intro h
    obtain ⟨n, hn, h⟩ := exists_of_run_bind_eq_ok h
    obtain ⟨layer, hlayer, h⟩ := exists_of_run_bind_eq_ok h
    cases h
    exact ⟨n, layer, hn, hlayer, rfl⟩
  · rintro ⟨n, layer, hn, hlayer, rfl⟩
    have hn : tree.root.resolve store tree.config = pure n := hn
    have hlayer : tree.root.layerOf store tree.config n.val n.property = pure layer := hlayer
    rw [hn, pure_bind]
    dsimp only
    rw [hlayer]
    rfl

theorem layer_eq_ok {n : { node : Node // tree.root.Covers node }}
    (hn : (tree.root.resolve store tree.config).run = .ok n)
    (hlayer : (tree.root.layerOf store tree.config n.val n.property).run = .ok layer) :
    (tree.layer store).run = .ok layer := by
  have hn : tree.root.resolve store tree.config = pure n := hn
  unfold Tree.layer
  rw [hn, pure_bind]
  exact hlayer

theorem exists_passes_root (h : node.Holds archive (Subtree.Holds archive layer) layer ls)
    (hls : Listing ls) (hstore : archive.Agrees store)
    (hwalk : Walked store config node.entries vs) :
    ∃ cs, Cursor.Passes store config ⟨[rootFrame node layer]⟩ cs := by
  have hopens : Opens store config (.tree (.resolved node)) (.tree (.resolved node)) node.entries :=
    .tree (n := ⟨node, Subtree.covers_resolved node⟩) rfl
  let next : Cursor := ⟨Cursor.resume (Cursor.first node.entries layer) [rootFrame node layer]⟩
  have hadvance : (⟨[rootFrame node layer]⟩ : Cursor).advance store config = (.ok (), next) :=
    Cursor.advance_eq_ok_iff.2 ⟨_, _, hopens, fun _ => ⟨Nat.succ_ne_zero layer, fun _ => rfl⟩, rfl⟩
  have hahead : Cursor.ahead next.frames = node.entries.map (·, layer) := by
    rw [Cursor.ahead_resume, Cursor.ahead_first]
    exact List.append_nil _
  have hwalked : Walked store config ((Cursor.ahead next.frames).map Prod.fst) vs := by
    rw [hahead, List.map_map, Function.comp_def, List.map_id']
    exact hwalk
  have hplaced : Placed archive (Cursor.ahead next.frames) := by
    rw [hahead]
    exact h.placed hls
  obtain ⟨cs, hcs⟩ := Cursor.exists_passes hwalked hplaced hstore
  exact ⟨_, .move hadvance hcs⟩

theorem Built.passes_below (h : tree.Built archive) (hstore : archive.Agrees store)
    (hstart : (Cursor.start store tree).run = .ok c)
    (hpasses : Cursor.Passes store tree.config c cs) : ∀ d ∈ cs, d.Below UInt32.size := by
  obtain ⟨ls, hls⟩ := h.holds
  obtain ⟨layer, htops, hroot⟩ := hls.root
  cases hls.config_eq
  obtain ⟨n, layer', hn, hlayer, rfl⟩ := start_eq_ok_iff.1 hstart
  rw [(hroot.of_resolve hls.listing hstore hn).layerOf] at hlayer
  cases hlayer
  apply hpasses.forall_below
  intro f hf
  cases List.mem_singleton.1 hf
  exact htops.layer_lt

theorem Built.passes_tour (h : tree.Built archive) (hstore : archive.Agrees store) :
    ((∃ vs, (tree.entries store).run = .ok vs) →
      ∃ c cs, (Cursor.start store tree).run = .ok c ∧ Cursor.Passes store tree.config c cs) ∧
    ∀ c cs, (Cursor.start store tree).run = .ok c → Cursor.Passes store tree.config c cs →
      ∃ layer qs,
      (tree.layer store).run = .ok layer ∧
      Tour store tree.config [(.tree tree.root, layer + 1)] qs ∧
      (tree.entries store).run = .ok (qs.map Prod.fst) ∧
      List.Forall₂ (Cursor.IsAt tree.config) cs qs ∧
      ∀ before d after, cs = before ++ d :: after →
        ∀ t k, d.current? = some (.tree t) → d.layer = .ok k →
        ∃ inside post rs, after = inside ++ post ∧ Tour store tree.config [(.tree t, k)] rs ∧
          List.Forall₂ (Cursor.IsAt tree.config) (d :: inside) rs ∧
          d.stepOver = post.head?.getD ⟨[]⟩ := by
  obtain ⟨ls, hls⟩ := h.holds
  obtain ⟨layer, -, hroot⟩ := hls.root
  cases hls.config_eq
  constructor
  · rintro ⟨vs, hvs⟩
    obtain ⟨n, us, hn, hus, rfl⟩ := (run_entries_eq_ok_iff.1 hvs).of_tree
    have hnode := hroot.of_resolve hls.listing hstore hn
    obtain ⟨cs, hcs⟩ := exists_passes_root hnode hls.listing hstore hus
    exact ⟨_, cs, start_eq_ok_iff.2 ⟨n, layer, hn, by rw [hnode.layerOf]; rfl, rfl⟩, hcs⟩
  · intro c cs hstart hpasses
    obtain ⟨n, layer', hn, hlayer, rfl⟩ := start_eq_ok_iff.1 hstart
    have hnode := hroot.of_resolve hls.listing hstore hn
    have hlayerOf := hlayer
    rw [hnode.layerOf] at hlayer
    cases hlayer
    have hfits : Cursor.Fits archive [rootFrame n.val layer] := by
      refine ⟨?_, nofun⟩
      rintro _ ⟨⟩
      exact ⟨ls, hls.listing, hnode⟩
    obtain ⟨inside, post, qs, rfl, hpost, htour, hat⟩ := hpasses.inside hfits.1 hstore
    cases hpost
    have hroot : Tour store tree.config [(.tree tree.root, layer + 1)] qs := by
      cases htour with
      | tree hresolved hlayer htour =>
        cases hresolved
        rw [hnode.layerOf] at hlayer
        cases hlayer
        exact .tree hn hlayerOf htour
    refine ⟨layer, qs, layer_eq_ok hn hlayerOf, hroot, run_entries_eq_ok_iff.2 hroot.walked, ?_, ?_⟩
    · rwa [List.append_nil]
    · intro before d after hcs t k hcurrent hk
      rw [hcs] at hpasses
      obtain ⟨hpasses, hfits⟩ := hpasses.fits hfits hstore
      obtain ⟨_ | ⟨f, outer⟩⟩ := d
      · cases hcurrent
      · cases hk
        obtain ⟨inside, post, rs, heq, hpost, htour, hat⟩ := hpasses.inside hfits.1 hstore
        cases heq
        have hcurrent : f.current = .tree t := Option.some.inj hcurrent
        rw [hcurrent] at htour
        exact ⟨inside, post, rs, rfl, htour, hat, hpost.eq_head⟩

end Tree

theorem Sample.passes_tour_load :
    ∃ c cs qs, (Cursor.start (.snapshot shelf) (Tree.load (pointer 2) Sample.config)).run = .ok c ∧
    Cursor.Passes (.snapshot shelf) Sample.config c cs ∧
    List.Forall₂ (Cursor.IsAt Sample.config) cs qs ∧
    qs.map Prod.fst =
      [.tree (.resolved storedHighNode), .tree (.resolved storedLowNode), .leaf low,
        .leaf high] := by
  have hbuilt : (Tree.load (pointer 2) Sample.config).Built Sample.archive :=
    .load built covers save_tree
  have hwalk : ((Tree.load (pointer 2) Sample.config).entries (.snapshot shelf)).run = .ok _ :=
    Tree.run_entries_eq_ok_iff.2 walked_shelf
  obtain ⟨hexists, hpasses⟩ := hbuilt.passes_tour agrees_shelf
  obtain ⟨c, cs, hc, hcs⟩ := hexists ⟨_, hwalk⟩
  obtain ⟨layer, qs, -, -, hentries, hat, -⟩ := hpasses c cs hc hcs
  exact ⟨c, cs, qs, hc, hcs, hat, Except.ok.inj (hentries.symm.trans hwalk)⟩

end MerkleSearch
