import MerkleSearch.Diff.Trees
import MerkleSearch.Proofs.Path

/-!
This module contains trees that are read side by side from one store. Two subtrees are in lockstep
if all that a reading depends on is the same at each step, from the subtree to its node and from
there to the subtrees inside. The main statements are that no reading tells them apart, by its
answer or by its error, the comparison with another tree included.
-/

namespace MerkleSearch

inductive Matches {α β : Type} (A : α → β → Prop) : ExceptT Error Id α → ExceptT Error Id β → Prop
  | pure {a : α} {b : β} (h : A a b) : Matches A (pure a) (pure b)
  | throw (e : Error) : Matches A (throw e) (throw e)

namespace Matches

variable {α β γ δ : Type} {A : α → β → Prop} {B : γ → δ → Prop} {x : ExceptT Error Id α}
variable {y : ExceptT Error Id β} {f : α → ExceptT Error Id γ} {g : β → ExceptT Error Id δ}

theorem bind (h : Matches A x y) (hf : ∀ a b, A a b → Matches B (f a) (g b)) :
    Matches B (x >>= f) (y >>= g) := by
  cases h with
  | pure h =>
    rw [pure_bind, pure_bind]
    exact hf _ _ h
  | throw e => exact .throw e

theorem bind_eq {g : β → ExceptT Error Id γ} (h : Matches A x y) (hf : ∀ a b, A a b → f a = g b) :
    x >>= f = y >>= g := by
  cases h with
  | pure h =>
    rw [pure_bind, pure_bind]
    exact hf _ _ h
  | throw e => rfl

theorem refl (x : ExceptT Error Id α) : Matches Eq x x := by
  match x with
  | .ok a => exact .pure rfl
  | .error e => exact .throw e

theorem of_ok {a : α} {b : β} (hx : x.run = .ok a) (hy : y.run = .ok b) (h : A a b) :
    Matches A x y := by
  rw [show x = Pure.pure a from hx, show y = Pure.pure b from hy]
  exact .pure h

theorem of_error {e : Error} (hx : x.run = .error e) (hy : y.run = .error e) : Matches A x y := by
  rw [show x = MonadExcept.throw e from hx, show y = MonadExcept.throw e from hy]
  exact .throw e

end Matches

variable {store prevStore : Blockstore Id} {config prevConfig : Config}
variable {R S : Subtree → Subtree → Prop} {t t' u u' : Subtree} {es es' : List NodeEntry} {d : Diff}

structure Alike (store : Blockstore Id) (config : Config) (R : Subtree → Subtree → Prop)
    (n : { node : Node // t.Covers node }) (n' : { node : Node // t'.Covers node }) : Prop where
  resolved : R (.resolved n.val) (.resolved n'.val)
  entries : List.Forall₂ (Entry.Rel R) n.val.entries n'.val.entries
  block : n.val.block config = n'.val.block config
  layerOf : t.layerOf store config n.val n.property = t'.layerOf store config n'.val n'.property

structure Lockstep (store : Blockstore Id) (config : Config)
    (R : Subtree → Subtree → Prop) : Prop where
  address : ∀ {t t' : Subtree}, R t t' → t.address config = t'.address config
  resolve : ∀ {t t' : Subtree},
    R t t' → Matches (Alike store config R) (t.resolve store config) (t'.resolve store config)

theorem Entry.Rel.refl {α : Type} (e : Entry α) : Rel Eq e e := by
  cases e with
  | tree t => exact .tree rfl
  | leaf l => exact .leaf l

theorem Lockstep.refl (store : Blockstore Id) (config : Config) : Lockstep store config Eq where
  address h := by rw [h]
  resolve {t _} h := by
    cases h
    generalize t.resolve store config = x
    cases Matches.refl x with
    | pure h => exact .pure ⟨rfl, List.forall₂_same.2 fun e _ => .refl e, rfl, rfl⟩
    | throw e => exact .throw e

namespace Subtree

theorem seek_eq (key : String) (t : Subtree) (rest : List NodeEntry) :
    t.seek store config key rest = (do
      let n ← t.resolve store config
      match (n.val.gap key).subtree with
      | some c => c.seek store config key ((n.val.gap key).after ++ rest)
      | none => return ⟨(n.val.gap key).after ++ rest⟩) := by
  rw [seek]
  congr
  funext n
  dsimp only
  split
  · next hsubtree => rw [hsubtree]
  · next hsubtree => rw [hsubtree]

end Subtree

namespace Lockstep

section Readings

variable (L : Lockstep store config R)
include L

theorem get?_eq (key : String) (h : R t t') :
    t.get? store config key = t'.get? store config key := by
  induction t.acc generalizing t' with
  | intro t _ ih =>
    rw [Subtree.get?_eq _ t, Subtree.get?_eq _ t']
    apply (L.resolve h).bind_eq
    intro n n' hn
    have hgap : (n.val.gap key).Rel R (n'.val.gap key) := Gap.rel_of key hn.entries
    cases hfound : (n.val.gap key).found? key with
    | some found =>
      obtain ⟨rest, hfound'⟩ := hgap.found?_some hfound
      rw [hfound']
    | none =>
      rw [hgap.found?_none hfound]
      cases hsubtree : (n.val.gap key).subtree with
      | none => rw [hgap.subtree_none hsubtree]
      | some c =>
        obtain ⟨c', hsubtree', hc⟩ := hgap.subtree_some hsubtree
        rw [hsubtree']
        exact ih c (n.property c (NodeOf.tree_mem_of_gap hsubtree)) hc

theorem path_eq (key : String) (h : R t t') :
    t.path store config key = t'.path store config key := by
  induction t.acc generalizing t' with
  | intro t _ ih =>
    rw [Subtree.path_eq _ t, Subtree.path_eq _ t']
    apply (L.resolve h).bind_eq
    intro n n' hn
    have haddress : n.val.addressIn config = n'.val.addressIn config := L.address hn.resolved
    have hgap : (n.val.gap key).Rel R (n'.val.gap key) := Gap.rel_of key hn.entries
    rw [haddress]
    cases hfound : (n.val.gap key).found? key with
    | some found =>
      obtain ⟨rest, hfound'⟩ := hgap.found?_some hfound
      rw [hfound']
    | none =>
      rw [hgap.found?_none hfound]
      cases hsubtree : (n.val.gap key).subtree with
      | none => rw [hgap.subtree_none hsubtree]
      | some c =>
        obtain ⟨c', hsubtree', hc⟩ := hgap.subtree_some hsubtree
        rw [hsubtree']
        dsimp only
        rw [ih c (n.property c (NodeOf.tree_mem_of_gap hsubtree)) hc]

theorem seek (key : String) (h : R t t') {rest rest' : List NodeEntry}
    (hrest : List.Forall₂ (Entry.Rel R) rest rest') :
    Matches (fun p p' => List.Forall₂ (Entry.Rel R) p.entries p'.entries)
      (t.seek store config key rest) (t'.seek store config key rest') := by
  induction t.acc generalizing t' rest rest' with
  | intro t _ ih =>
    rw [Subtree.seek_eq, Subtree.seek_eq]
    apply (L.resolve h).bind
    intro n n' hn
    have hgap : (n.val.gap key).Rel R (n'.val.gap key) := Gap.rel_of key hn.entries
    have hafter := List.rel_append hgap.after hrest
    cases hsubtree : (n.val.gap key).subtree with
    | none =>
      rw [hgap.subtree_none hsubtree]
      exact .pure hafter
    | some c =>
      obtain ⟨c', hsubtree', hc⟩ := hgap.subtree_some hsubtree
      rw [hsubtree']
      exact ih c (n.property c (NodeOf.tree_mem_of_gap hsubtree)) hc hafter

variable {σ : Type} {f : NodeEntry → σ → ExceptT Error Id (ForInStep σ)}

theorem complete_visit_eq (hf : ∀ e e', Entry.Rel R e e' → f e = f e') {es es' : List NodeEntry}
    (hes : List.Forall₂ (Entry.Rel R) es es') (s : σ) :
    complete (Pending.visit store config .fail ⟨es⟩ s f) =
      complete (Pending.visit store config .fail ⟨es'⟩ s f) := by
  match es, es', hes with
  | [], [], .nil => rfl
  | .leaf l :: rest, _, .cons (.leaf _) hrest =>
    rw [complete_visit_leaf, complete_visit_leaf]
    refine bind_congr fun step => ?_
    cases step with
    | done s => rfl
    | yield s => exact complete_visit_eq hf hrest s
  | .tree t :: rest, _, .cons (.tree h) hrest =>
    rw [complete_visit_tree, complete_visit_tree]
    apply (L.resolve h).bind_eq
    intro n n' hn
    rw [hf _ _ (.tree hn.resolved)]
    refine bind_congr fun step => ?_
    cases step with
    | done s => rfl
    | yield s => exact complete_visit_eq hf (List.rel_append hn.entries hrest) s
termination_by (⟨es⟩ : Pending)
decreasing_by
  · exact .drop
  · exact .expand n.property

theorem layer_eq (h : R t t') :
    (⟨t, config⟩ : Tree).layer store = (⟨t', config⟩ : Tree).layer store := by
  unfold Tree.layer
  exact (L.resolve h).bind_eq fun _ _ hn => hn.layerOf

theorem leaves_eq (h : R t t') :
    (⟨t, config⟩ : Tree).leaves store = (⟨t', config⟩ : Tree).leaves store := by
  unfold Tree.leaves Tree.gather
  rw [if_neg nofun, if_neg nofun, complete_map_fst, complete_map_fst]
  congr 1
  apply L.complete_visit_eq _ (.cons (.tree h) .nil)
  intro e e' hrel
  cases hrel <;> rfl

theorem scan_eq (key : String) (f : Leaf → List Leaf → ForInStep (List Leaf)) (h : R t t') :
    (⟨t, config⟩ : Tree).scan store key f = (⟨t', config⟩ : Tree).scan store key f := by
  unfold Tree.scan
  apply (L.seek key h .nil).bind_eq
  rintro ⟨es⟩ ⟨es'⟩ hes
  dsimp only
  rw [L.complete_visit_eq _ hes]
  intro e e' hrel
  cases hrel <;> rfl

end Readings

end Lockstep

structure Frame.Rel (R : Subtree → Subtree → Prop) (f f' : Frame) : Prop where
  current : Entry.Rel R f.current f'.current
  rest : List.Forall₂ (Entry.Rel R) f.rest f'.rest
  layer : f.layer = f'.layer

variable {f f' : Frame} {outer outer' prev prev' curr curr' : List Frame}

theorem Frame.Rel.stepOver (hf : f.Rel R f') (houter : List.Forall₂ (Frame.Rel R) outer outer') :
    List.Forall₂ (Frame.Rel R) (Cursor.stepOver ⟨f :: outer⟩).frames
      (Cursor.stepOver ⟨f' :: outer'⟩).frames := by
  induction houter generalizing f f' with
  | nil =>
    obtain ⟨current, rest, index, layer⟩ := f
    obtain ⟨current', rest', index', layer'⟩ := f'
    obtain ⟨-, hrest, rfl⟩ := hf
    cases hrest with
    | nil => exact .nil
    | cons hcurrent hrest => exact .cons ⟨hcurrent, hrest, rfl⟩ .nil
  | cons hg houter ih =>
    obtain ⟨current, rest, index, layer⟩ := f
    obtain ⟨current', rest', index', layer'⟩ := f'
    obtain ⟨-, hrest, rfl⟩ := hf
    cases hrest with
    | nil => exact ih hg
    | cons hcurrent hrest => exact .cons ⟨hcurrent, hrest, rfl⟩ (.cons hg houter)

theorem Frame.Rel.enter (hf : f.Rel R f') (houter : List.Forall₂ (Frame.Rel R) outer outer')
    {node node' : Node} (hes : List.Forall₂ (Entry.Rel R) node.entries node'.entries) :
    (∃ e, Cursor.enter f outer node = .error e ∧ Cursor.enter f' outer' node' = .error e) ∨
      ∃ c c', Cursor.enter f outer node = .ok c ∧ Cursor.enter f' outer' node' = .ok c' ∧
        List.Forall₂ (Frame.Rel R) c.frames c'.frames := by
  unfold Cursor.enter
  rw [hf.layer]
  generalize node.entries = es at hes
  generalize node'.entries = es' at hes
  split
  · exact .inl ⟨_, rfl, rfl⟩
  · cases hes with
    | nil =>
      cases houter with
      | nil => exact .inr ⟨_, _, rfl, rfl, hf.stepOver .nil⟩
      | cons _ _ => exact .inl ⟨_, rfl, rfl⟩
    | cons hcurrent hrest =>
      exact .inr ⟨_, _, rfl, rfl, .cons ⟨hcurrent, hrest, rfl⟩ (.cons hf houter)⟩

theorem Diff.enter_eq_error (hcurrent : f.current = .tree t)
    {n : { node : Node // t.Covers node }} {e : Error} (h : Cursor.enter f outer n.val = .error e) :
    Diff.enter f outer hcurrent n = .error e := by
  unfold Diff.enter
  split
  · next hc => cases hc.symm.trans h
  · next he =>
    cases he.symm.trans h
    rfl

namespace Lockstep

section Moves

variable (L : Lockstep store config R) (hf : f.Rel R f')
variable (houter : List.Forall₂ (Frame.Rel R) outer outer')
include hf houter

theorem enter (hcurrent : f.current = .tree t) (hcurrent' : f'.current = .tree t')
    {n : { node : Node // t.Covers node }} {n' : { node : Node // t'.Covers node }}
    (hn : Alike store config R n n') :
    Matches (fun c c' => List.Forall₂ (Frame.Rel R) c.val.frames c'.val.frames)
      (liftM (Diff.enter f outer hcurrent n)) (liftM (Diff.enter f' outer' hcurrent' n')) := by
  rcases hf.enter houter hn.entries with ⟨e, henter, henter'⟩ | ⟨c, c', henter, henter', hframes⟩
  · rw [Diff.enter_eq_error hcurrent henter, Diff.enter_eq_error hcurrent' henter']
    exact .throw e
  · rw [Diff.enter_eq_ok hcurrent henter, Diff.enter_eq_ok hcurrent' henter']
    exact .pure hframes

include L

theorem passNew (d : Diff) :
    Matches (fun p p' => p.1 = p'.1 ∧ List.Forall₂ (Frame.Rel R) p.2.val.frames p'.2.val.frames)
      (d.passNew store config f outer) (d.passNew store config f' outer') := by
  have hover := hf.stepOver houter
  obtain ⟨current, rest, index, layer⟩ := f
  obtain ⟨current', rest', index', layer'⟩ := f'
  have hcurrent := hf.current
  dsimp only at hcurrent
  cases hcurrent with
  | leaf l => exact .pure ⟨rfl, hover⟩
  | tree h =>
    unfold Diff.passNew
    apply (L.resolve h).bind
    intro n n' hn
    rw [hn.block]
    apply (Matches.refl _).bind
    rintro block _ rfl
    apply (enter hf houter rfl rfl hn).bind
    exact fun c c' hframes => .pure ⟨rfl, hframes⟩

theorem passGone (d : Diff) :
    Matches (fun p p' => p.1 = p'.1 ∧ List.Forall₂ (Frame.Rel R) p.2.val.frames p'.2.val.frames)
      (d.passGone store config f outer) (d.passGone store config f' outer') := by
  have hover := hf.stepOver houter
  obtain ⟨current, rest, index, layer⟩ := f
  obtain ⟨current', rest', index', layer'⟩ := f'
  have hcurrent := hf.current
  dsimp only at hcurrent
  cases hcurrent with
  | leaf l => exact .pure ⟨rfl, hover⟩
  | tree h =>
    unfold Diff.passGone
    dsimp only
    rw [L.address h]
    apply (Matches.refl _).bind
    rintro address _ rfl
    apply (L.resolve h).bind
    intro n n' hn
    apply (enter hf houter rfl rfl hn).bind
    exact fun c c' hframes => .pure ⟨rfl, hframes⟩

end Moves

/--
Whatever stands at related places, the rest of the comparison comes to the same.
-/
def Compares (store prevStore : Blockstore Id) (config prevConfig : Config)
    (R S : Subtree → Subtree → Prop) (prev curr : List Frame) : Prop :=
  ∀ (d : Diff) {prev' curr' : List Frame}, List.Forall₂ (Frame.Rel S) prev prev' →
    List.Forall₂ (Frame.Rel R) curr curr' →
    Diff.compare store prevStore config prevConfig d prev curr =
    Diff.compare store prevStore config prevConfig d prev' curr'

section Comparison

variable {l l' r r' : Frame} {ls ls' rs rs' : List Frame} (d : Diff)
variable (L : Lockstep store config R) (P : Lockstep prevStore prevConfig S)

include L in
theorem compare_new (hr : r.Rel R r') (hrs : List.Forall₂ (Frame.Rel R) rs rs')
    (hprev : List.Forall₂ (Frame.Rel S) prev prev')
    (ih : ∀ c : Cursor, r.Follows rs c →
      Compares store prevStore config prevConfig R S prev c.frames) :
    (d.passNew store config r rs >>= fun p =>
        Diff.compare store prevStore config prevConfig p.1 prev p.2.val.frames) =
      d.passNew store config r' rs' >>= fun p =>
        Diff.compare store prevStore config prevConfig p.1 prev' p.2.val.frames := by
  apply (L.passNew hr hrs d).bind_eq
  rintro ⟨d, c, hc⟩ ⟨_, c', hc'⟩ ⟨rfl, hframes⟩
  exact ih c hc d hprev hframes

include P in
theorem compare_gone (hl : l.Rel S l') (hls : List.Forall₂ (Frame.Rel S) ls ls')
    (hcurr : List.Forall₂ (Frame.Rel R) curr curr')
    (ih : ∀ c : Cursor, l.Follows ls c →
      Compares store prevStore config prevConfig R S c.frames curr) :
    (d.passGone prevStore prevConfig l ls >>= fun p =>
        Diff.compare store prevStore config prevConfig p.1 p.2.val.frames curr) =
      d.passGone prevStore prevConfig l' ls' >>= fun p =>
        Diff.compare store prevStore config prevConfig p.1 p.2.val.frames curr' := by
  apply (P.passGone hl hls d).bind_eq
  rintro ⟨d, c, hc⟩ ⟨_, c', hc'⟩ ⟨rfl, hframes⟩
  exact ih c hc d hframes hcurr

variable (hl : l.Rel S l') (hls : List.Forall₂ (Frame.Rel S) ls ls') (hr : r.Rel R r')
variable (hrs : List.Forall₂ (Frame.Rel R) rs rs')
variable (ihprev : ∀ c k : Cursor, l.Follows ls c →
    Compares store prevStore config prevConfig R S c.frames k.frames)
include hl hls hr hrs ihprev

theorem compare_leaves {old new : Leaf}
    (ihcurr : ∀ c : Cursor, r.Follows rs c →
      Compares store prevStore config prevConfig R S (l :: ls) c.frames) :
    (if old.key = new.key then
        Diff.compare store prevStore config prevConfig (d.updateLeaf old.key old.value new.value)
          (Cursor.stepOver ⟨l :: ls⟩).frames (Cursor.stepOver ⟨r :: rs⟩).frames
      else if old.key < new.key then
        Diff.compare store prevStore config prevConfig (d.deleteLeaf old)
          (Cursor.stepOver ⟨l :: ls⟩).frames (r :: rs)
      else
        Diff.compare store prevStore config prevConfig (d.addLeaf new) (l :: ls)
          (Cursor.stepOver ⟨r :: rs⟩).frames) =
    (if old.key = new.key then
        Diff.compare store prevStore config prevConfig (d.updateLeaf old.key old.value new.value)
          (Cursor.stepOver ⟨l' :: ls'⟩).frames (Cursor.stepOver ⟨r' :: rs'⟩).frames
      else if old.key < new.key then
        Diff.compare store prevStore config prevConfig (d.deleteLeaf old)
          (Cursor.stepOver ⟨l' :: ls'⟩).frames (r' :: rs')
      else
        Diff.compare store prevStore config prevConfig (d.addLeaf new) (l' :: ls')
          (Cursor.stepOver ⟨r' :: rs'⟩).frames) := by
  have hprev := hl.stepOver hls
  have hcurr := hr.stepOver hrs
  split
  · exact ihprev _ _ (Frame.follows_stepOver l ls) _ hprev hcurr
  · split
    · exact ihprev _ ⟨r :: rs⟩ (Frame.follows_stepOver l ls) _ hprev (.cons hr hrs)
    · exact ihcurr _ (Frame.follows_stepOver r rs) _ (.cons hl hls) hcurr

include L P in
theorem compare_trees (hold : l.current = .tree t) (hold' : l'.current = .tree t')
    (hnew : r.current = .tree u) (hnew' : r'.current = .tree u') (ht : S t t') (hu : R u u') :
    (do
      let oldAddress ← t.address prevConfig
      let newAddress ← u.address config
      if oldAddress = newAddress then
        Diff.compare store prevStore config prevConfig d
          (Cursor.stepOver ⟨l :: ls⟩).frames (Cursor.stepOver ⟨r :: rs⟩).frames
      else
        let newNode ← u.resolve store config
        let block ← newNode.val.block config
        let d := (d.addNode block).deleteNode oldAddress
        let oldNode ← t.resolve prevStore prevConfig
        let ⟨prev, _⟩ ← Diff.enter l ls hold oldNode
        let ⟨curr, _⟩ ← Diff.enter r rs hnew newNode
        Diff.compare store prevStore config prevConfig d prev.frames curr.frames :
          ExceptT Error Id Diff) =
    (do
      let oldAddress ← t'.address prevConfig
      let newAddress ← u'.address config
      if oldAddress = newAddress then
        Diff.compare store prevStore config prevConfig d
          (Cursor.stepOver ⟨l' :: ls'⟩).frames (Cursor.stepOver ⟨r' :: rs'⟩).frames
      else
        let newNode ← u'.resolve store config
        let block ← newNode.val.block config
        let d := (d.addNode block).deleteNode oldAddress
        let oldNode ← t'.resolve prevStore prevConfig
        let ⟨prev, _⟩ ← Diff.enter l' ls' hold' oldNode
        let ⟨curr, _⟩ ← Diff.enter r' rs' hnew' newNode
        Diff.compare store prevStore config prevConfig d prev.frames curr.frames) := by
  rw [P.address ht, L.address hu]
  refine bind_congr fun oldAddress => bind_congr fun newAddress => ?_
  split
  · exact ihprev _ _ (Frame.follows_stepOver l ls) d (hl.stepOver hls) (hr.stepOver hrs)
  · apply (L.resolve hu).bind_eq
    intro n n' hn
    rw [hn.block]
    refine bind_congr fun block => ?_
    apply (P.resolve ht).bind_eq
    intro o o' ho
    apply (enter hl hls hold hold' ho).bind_eq
    rintro ⟨c, hc⟩ ⟨c', hc'⟩ hprev
    apply (enter hr hrs hnew hnew' hn).bind_eq
    rintro ⟨k, hk⟩ ⟨k', hk'⟩ hcurr
    exact ihprev c k hc _ hprev hcurr

end Comparison

theorem compares (L : Lockstep store config R) (P : Lockstep prevStore prevConfig S)
    (prev curr : List Frame) :
    Compares store prevStore config prevConfig R S prev curr := by
  have ihprev : ∀ {l : Frame} {ls : List Frame}, prev = l :: ls → ∀ c k : Cursor, l.Follows ls c →
      Compares store prevStore config prevConfig R S c.frames k.frames := by
    intro l ls heq c k hc
    exact compares L P c.frames k.frames
  have ihcurr : ∀ {r : Frame} {rs : List Frame}, curr = r :: rs → ∀ c : Cursor, r.Follows rs c →
      Compares store prevStore config prevConfig R S prev c.frames := by
    intro r rs heq c hc
    exact compares L P prev c.frames
  intro d prev' curr' hprev hcurr
  cases hprev with
  | nil =>
    cases hcurr with
    | nil => rfl
    | cons hr hrs =>
      rw [Diff.compare, Diff.compare]
      exact compare_new d L hr hrs .nil (ihcurr rfl)
  | @cons l l' ls ls' hl hls =>
    cases hcurr with
    | nil =>
      rw [Diff.compare, Diff.compare]
      exact compare_gone d P hl hls .nil fun c hc => ihprev rfl c ⟨[]⟩ hc
    | @cons r r' rs rs' hr hrs =>
      rw [Diff.compare, Diff.compare]
      have hnew := compare_new d L hr hrs (.cons hl hls) (ihcurr rfl)
      have hgone := compare_gone d P hl hls (.cons hr hrs) fun c hc => ihprev rfl c ⟨_⟩ hc
      obtain ⟨old, oldRest, oldIndex, oldLayer⟩ := l
      obtain ⟨old', oldRest', oldIndex', oldLayer'⟩ := l'
      obtain ⟨new, newRest, newIndex, newLayer⟩ := r
      obtain ⟨new', newRest', newIndex', newLayer'⟩ := r'
      cases hl.layer
      cases hr.layer
      cases hl.current with
      | leaf old =>
        cases hr.current with
        | leaf new => exact compare_leaves d hl hls hr hrs (ihprev rfl) (ihcurr rfl)
        | tree hu => exact hnew
      | tree ht =>
        cases hr.current with
        | leaf new => exact hgone
        | tree hu =>
          dsimp only
          split
          · exact hgone
          · split
            · exact hnew
            · exact compare_trees d L P hl hls hr hrs (ihprev rfl) rfl rfl rfl rfl ht hu
termination_by ((Cursor.mk prev).pending, (Cursor.mk curr).pending)
decreasing_by
  · rw [heq]
    exact .left _ _ hc
  · rw [heq]
    exact .right _ hc

section Trees

variable (L : Lockstep store config R) (P : Lockstep prevStore prevConfig S)

include L in
theorem start (h : R t t') :
    Matches (fun c c' => List.Forall₂ (Frame.Rel R) c.frames c'.frames)
      (Cursor.start store ⟨t, config⟩) (Cursor.start store ⟨t', config⟩) := by
  unfold Cursor.start
  apply (L.resolve h).bind
  intro n n' hn
  dsimp only
  rw [hn.layerOf]
  apply (Matches.refl _).bind
  rintro layer _ rfl
  exact .pure (.cons ⟨.tree hn.resolved, .nil, rfl⟩ .nil)

include L P

theorem diff_eq (ht : S t t') (hu : R u u') :
    (⟨u, config⟩ : Tree).diff store ⟨t, prevConfig⟩ prevStore =
      (⟨u', config⟩ : Tree).diff store ⟨t', prevConfig⟩ prevStore := by
  unfold Tree.diff Tree.address
  dsimp only
  rw [P.address ht, L.address hu]
  refine bind_congr fun currAddress => bind_congr fun prevAddress => ?_
  split
  · rfl
  · apply (P.start ht).bind_eq
    intro left left' hleft
    apply (L.start hu).bind_eq
    intro right right' hright
    exact L.compares P left.frames right.frames {} hleft hright

end Trees

end Lockstep

end MerkleSearch
