import MerkleSearch.Diff.Trees
import MerkleSearch.Proofs.Address
import MerkleSearch.Proofs.Trail

/-!
This module contains the comparison of two trees as it is seen from outside. Each step notes an
entry of one of them and goes on behind it or inside it, or passes over a subtree that both have.
-/

namespace MerkleSearch

variable {config : Config} {archive : Archive config} {store prevStore : Blockstore Id}
variable {layer : Nat} {ls : List Leaf} {f : Frame} {outer prev curr : List Frame}
variable {us vs ps qs : List (Entry Extent)} {e : Extent} {l : Leaf} {d : Diff} {t : Subtree}

namespace Extent

def weight (config : Config) (us : List (Entry Extent)) : Nat :=
  (nodes config us).length + (content us).length

theorem weight_leaf : weight config (.leaf l :: us) = weight config us + 1 := by
  simp only [weight, nodes_leaf, content_leaf, List.length_cons]
  omega

theorem weight_tree :
    weight config (.tree ⟨layer + 1, ls⟩ :: us) =
      weight config (entries config ⟨layer + 1, ls⟩ ++ us) + 1 := by
  rw [weight, weight, nodes_tree, content_enter, List.length_cons]
  omega

theorem weight_le_append : weight config us ≤ weight config (vs ++ us) := by
  simp only [weight, nodes_append, content_append, List.length_append]
  omega

end Extent

theorem Subtree.Spans.eq_of_address_eq {t' : Subtree} {e' : Extent}
    (h : t.Spans archive store layer e) (h' : t'.Spans archive prevStore layer e')
    (hls : Listing e.leaves) (hls' : Listing e'.leaves)
    (haddress : t.address config = t'.address config) :
    e = e' := by
  rw [h.holds.address_eq, h'.holds.address_eq] at haddress
  obtain ⟨height, ls⟩ := e
  obtain ⟨height', ls'⟩ := e'
  cases h.height_eq
  cases h'.height_eq
  cases height with
  | zero => exact h.holds.elim
  | succ layer =>
    obtain ⟨hleaves, -⟩ := h.has.eq_of_address_eq h'.has hls hls' haddress
    dsimp only at hleaves
    rw [hleaves]

namespace Diff

/--
How the comparison of what is left of the older tree, `ps`, with what is left of the newer one,
`qs`, leads from one difference to another.
-/
inductive Compared (config : Config) : (ps qs : List (Entry Extent)) → Diff → Diff → Prop
  | done (d : Diff) : Compared config [] [] d d
  | newLeaf {l : Leaf} {ps qs : List (Entry Extent)} {d d' : Diff}
    (hfresh : ∀ k ∈ Extent.content ps, k.key ≠ l.key) (h : Compared config ps qs (d.addLeaf l) d') :
    Compared config ps (.leaf l :: qs) d d'
  | goneLeaf {l : Leaf} {ps qs : List (Entry Extent)} {d d' : Diff}
    (hfresh : ∀ k ∈ Extent.content qs, k.key ≠ l.key)
    (h : Compared config ps qs (d.deleteLeaf l) d') : Compared config (.leaf l :: ps) qs d d'
  | sameKey {old new : Leaf} {ps qs : List (Entry Extent)} {d d' : Diff} (hkey : old.key = new.key)
    (h : Compared config ps qs (d.updateLeaf old.key old.value new.value) d') :
    Compared config (.leaf old :: ps) (.leaf new :: qs) d d'
  | newNode {layer : Nat} {ls : List Leaf} {block : Block} {ps qs : List (Entry Extent)}
    {d d' : Diff} (hblock : canonicalBlock config layer ls = .ok block)
    (h : Compared config ps (Extent.entries config ⟨layer + 1, ls⟩ ++ qs) (d.addNode block) d') :
    Compared config ps (.tree ⟨layer + 1, ls⟩ :: qs) d d'
  | goneNode {layer : Nat} {ls : List Leaf} {block : Block} {ps qs : List (Entry Extent)}
    {d d' : Diff} (hblock : canonicalBlock config layer ls = .ok block)
    (h : Compared config (Extent.entries config ⟨layer + 1, ls⟩ ++ ps) qs
      (d.deleteNode block.address) d') :
    Compared config (.tree ⟨layer + 1, ls⟩ :: ps) qs d d'
  | skip {e : Extent} {ps qs : List (Entry Extent)} {d d' : Diff} (h : Compared config ps qs d d') :
    Compared config (.tree e :: ps) (.tree e :: qs) d d'

theorem enter_eq_ok (hcurrent : f.current = .tree t) {n : { node : Node // t.Covers node }}
    {c : Cursor} (h : Cursor.enter f outer n.val = .ok c) :
    Diff.enter f outer hcurrent n = .ok ⟨c, Frame.follows_enter hcurrent n.property h⟩ := by
  unfold Diff.enter
  split
  · next c' h' =>
    rw [h] at h'
    cases h'
    rfl
  · next h' =>
    rw [h] at h'
    cases h'

theorem passNew_leaf (h : Cursor.Trail archive store (f :: outer) (.leaf l :: qs)) :
    Returns True (d.passNew store config f outer) fun p =>
      p.1 = d.addLeaf l ∧ Cursor.Trail archive store p.2.val.frames qs := by
  have hover := h.stepOver
  obtain ⟨current, rest, index, height⟩ := f
  cases h.current
  exact Settles.pure ⟨rfl, hover⟩

theorem passNew_tree (h : Cursor.Trail archive store (f :: outer) (.tree ⟨layer + 1, ls⟩ :: qs))
    (hls : Listing ls) (hstore : archive.Agrees store) :
    Returns True (d.passNew store config f outer) fun p =>
      ∃ block, canonicalBlock config layer ls = .ok block ∧ p.1 = d.addNode block ∧
        Cursor.Trail archive store p.2.val.frames
          (Extent.entries config ⟨layer + 1, ls⟩ ++ qs) := by
  obtain ⟨current, rest, index, height⟩ := f
  cases current with
  | leaf => cases h.current
  | tree t =>
    have hspans := h.tree rfl
    obtain ⟨n, block, hn, hblock, -, hnode, -⟩ := hspans.exists_block hls hstore
    obtain ⟨c, henter, htrail⟩ := h.enter rfl hn hls hstore
    apply (Settles.of_run_ok hn rfl).bind
    rintro _ rfl
    apply (Settles.lift hnode rfl).bind
    rintro _ rfl
    apply (Settles.lift (enter_eq_ok rfl henter) rfl).bind
    rintro _ rfl
    exact Settles.pure ⟨block, hblock, rfl, htrail⟩

theorem passGone_leaf (h : Cursor.Trail archive store (f :: outer) (.leaf l :: ps)) :
    Returns True (d.passGone store config f outer) fun p =>
      p.1 = d.deleteLeaf l ∧ Cursor.Trail archive store p.2.val.frames ps := by
  have hover := h.stepOver
  obtain ⟨current, rest, index, height⟩ := f
  cases h.current
  exact Settles.pure ⟨rfl, hover⟩

theorem passGone_tree (h : Cursor.Trail archive store (f :: outer) (.tree ⟨layer + 1, ls⟩ :: ps))
    (hls : Listing ls) (hstore : archive.Agrees store) :
    Returns True (d.passGone store config f outer) fun p =>
      ∃ block, canonicalBlock config layer ls = .ok block ∧ p.1 = d.deleteNode block.address ∧
        Cursor.Trail archive store p.2.val.frames
          (Extent.entries config ⟨layer + 1, ls⟩ ++ ps) := by
  obtain ⟨current, rest, index, height⟩ := f
  cases current with
  | leaf => cases h.current
  | tree t =>
    have hspans := h.tree rfl
    obtain ⟨n, block, hn, hblock, -, -, haddress⟩ := hspans.exists_block hls hstore
    obtain ⟨c, henter, htrail⟩ := h.enter rfl hn hls hstore
    apply (Settles.lift haddress rfl).bind
    rintro _ rfl
    apply (Settles.of_run_ok hn rfl).bind
    rintro _ rfl
    apply (Settles.lift (enter_eq_ok rfl henter) rfl).bind
    rintro _ rfl
    exact Settles.pure ⟨block, hblock, rfl, htrail⟩

def Fresh (u : Entry Extent) (ls : List Leaf) : Prop := ∀ l, u = .leaf l → ∀ k ∈ ls, k.key ≠ l.key

theorem fresh_tree : Fresh (.tree e) ls := nofun

theorem fresh_nil {u : Entry Extent} : Fresh u [] := fun _ _ => List.forall_mem_nil _

theorem passNew_spec {u : Entry Extent} (h : Cursor.Trail archive store (f :: outer) (u :: qs))
    (hls : Listing (Extent.content (u :: qs))) (hstore : archive.Agrees store) :
    Returns True (d.passNew store config f outer) fun p =>
      ∃ vs, Cursor.Trail archive store p.2.val.frames vs ∧ Listing (Extent.content vs) ∧
        Extent.weight config vs < Extent.weight config (u :: qs) ∧
        ∀ ps d', Fresh u (Extent.content ps) →
          Compared config ps vs p.1 d' → Compared config ps (u :: qs) d d' := by
  cases u with
  | leaf l =>
    apply (passNew_leaf h).imp id _ (fun _ => id)
    rintro ⟨_, c, hc⟩ ⟨rfl, htrail⟩
    refine ⟨qs, htrail, hls.tail, ?_, ?_⟩
    · rw [Extent.weight_leaf]
      exact Nat.lt_succ_self _
    · exact fun ps d' hfresh h' => .newLeaf (hfresh l rfl) h'
  | tree e =>
    obtain ⟨height, ls⟩ := e
    cases height with
    | zero => exact absurd h.height_pos (Nat.lt_irrefl 0)
    | succ layer =>
      apply (passNew_tree h hls.left hstore).imp id _ (fun _ => id)
      rintro ⟨_, c, hc⟩ ⟨block, hblock, rfl, htrail⟩
      refine ⟨_, htrail, ?_, ?_, ?_⟩
      · rw [Extent.content_enter]
        exact hls
      · rw [Extent.weight_tree]
        exact Nat.lt_succ_self _
      · exact fun ps d' _ h' => .newNode hblock h'

theorem passGone_spec {u : Entry Extent} (h : Cursor.Trail archive store (f :: outer) (u :: ps))
    (hls : Listing (Extent.content (u :: ps))) (hstore : archive.Agrees store) :
    Returns True (d.passGone store config f outer) fun p =>
      ∃ vs, Cursor.Trail archive store p.2.val.frames vs ∧ Listing (Extent.content vs) ∧
        Extent.weight config vs < Extent.weight config (u :: ps) ∧
        ∀ qs d', Fresh u (Extent.content qs) →
          Compared config vs qs p.1 d' → Compared config (u :: ps) qs d d' := by
  cases u with
  | leaf l =>
    apply (passGone_leaf h).imp id _ (fun _ => id)
    rintro ⟨_, c, hc⟩ ⟨rfl, htrail⟩
    refine ⟨ps, htrail, hls.tail, ?_, ?_⟩
    · rw [Extent.weight_leaf]
      exact Nat.lt_succ_self _
    · exact fun qs d' hfresh h' => .goneLeaf (hfresh l rfl) h'
  | tree e =>
    obtain ⟨height, ls⟩ := e
    cases height with
    | zero => exact absurd h.height_pos (Nat.lt_irrefl 0)
    | succ layer =>
      apply (passGone_tree h hls.left hstore).imp id _ (fun _ => id)
      rintro ⟨_, c, hc⟩ ⟨block, hblock, rfl, htrail⟩
      refine ⟨_, htrail, ?_, ?_, ?_⟩
      · rw [Extent.content_enter]
        exact hls
      · rw [Extent.weight_tree]
        exact Nat.lt_succ_self _
      · exact fun qs d' _ h' => .goneNode hblock h'

/--
The comparison is as stated as long as less than `w` is left to be compared.
-/
def ComparedBelow (archive : Archive config) (store prevStore : Blockstore Id) (w : Nat) : Prop :=
  ∀ {prev curr : List Frame} {ps qs : List (Entry Extent)} {d : Diff},
    Extent.weight config ps + Extent.weight config qs < w →
    Cursor.Trail archive prevStore prev ps → Cursor.Trail archive store curr qs →
    Listing (Extent.content ps) → Listing (Extent.content qs) →
    Returns True (Diff.compare store prevStore config config d prev curr) (Compared config ps qs d)

section Steps

variable {u v : Entry Extent} {l r : Frame} {left right : List Frame} {old new : Leaf}
variable (hstore : archive.Agrees store) (hprevStore : archive.Agrees prevStore)

include hstore in
theorem compare_new
    (ih : ComparedBelow archive store prevStore
      (Extent.weight config ps + Extent.weight config (v :: qs)))
    (hprev : Cursor.Trail archive prevStore prev ps)
    (hcurr : Cursor.Trail archive store (r :: right) (v :: qs))
    (hps : Listing (Extent.content ps)) (hqs : Listing (Extent.content (v :: qs)))
    (hfresh : Fresh v (Extent.content ps)) :
    Returns True (d.passNew store config r right >>= fun p =>
      Diff.compare store prevStore config config p.1 prev p.2.val.frames)
        (Compared config ps (v :: qs) d) := by
  apply (passNew_spec hcurr hqs hstore).bind
  rintro ⟨d₁, c, hc⟩ ⟨vs, htrail, hvs, hlt, hnote⟩
  apply (ih (Nat.add_lt_add_left hlt _) hprev htrail hps hvs).imp id _ (fun _ => id)
  exact fun d' => hnote ps d' hfresh

include hprevStore in
theorem compare_gone
    (ih : ComparedBelow archive store prevStore
      (Extent.weight config (u :: ps) + Extent.weight config qs))
    (hprev : Cursor.Trail archive prevStore (l :: left) (u :: ps))
    (hcurr : Cursor.Trail archive store curr qs) (hps : Listing (Extent.content (u :: ps)))
    (hqs : Listing (Extent.content qs)) (hfresh : Fresh u (Extent.content qs)) :
    Returns True (d.passGone prevStore config l left >>= fun p =>
      Diff.compare store prevStore config config p.1 p.2.val.frames curr)
        (Compared config (u :: ps) qs d) := by
  apply (passGone_spec hprev hps hprevStore).bind
  rintro ⟨d₁, c, hc⟩ ⟨vs, htrail, hvs, hlt, hnote⟩
  apply (ih (Nat.add_lt_add_right hlt _) htrail hcurr hvs hqs).imp id _ (fun _ => id)
  exact fun d' => hnote qs d' hfresh

theorem compare_leaves
    (ih : ComparedBelow archive store prevStore
      (Extent.weight config (.leaf old :: ps) + Extent.weight config (.leaf new :: qs)))
    (hprev : Cursor.Trail archive prevStore (l :: left) (.leaf old :: ps))
    (hcurr : Cursor.Trail archive store (r :: right) (.leaf new :: qs))
    (hps : Listing (Extent.content (.leaf old :: ps)))
    (hqs : Listing (Extent.content (.leaf new :: qs))) :
    Returns True
      (if old.key = new.key then
        Diff.compare store prevStore config config (d.updateLeaf old.key old.value new.value)
          (Cursor.stepOver ⟨l :: left⟩).frames (Cursor.stepOver ⟨r :: right⟩).frames
      else if old.key < new.key then
        Diff.compare store prevStore config config (d.deleteLeaf old)
          (Cursor.stepOver ⟨l :: left⟩).frames (r :: right)
      else
        Diff.compare store prevStore config config (d.addLeaf new)
          (l :: left) (Cursor.stepOver ⟨r :: right⟩).frames)
      (Compared config (.leaf old :: ps) (.leaf new :: qs) d) := by
  rw [Extent.weight_leaf, Extent.weight_leaf] at ih
  split
  · next hkey =>
    apply (ih (by omega) hprev.stepOver hcurr.stepOver hps.tail hqs.tail).imp id _ (fun _ => id)
    exact fun d' => .sameKey hkey
  · next hne =>
    split
    · next hlt =>
      apply (ih (by rw [Extent.weight_leaf]; omega) hprev.stepOver hcurr hps.tail hqs).imp id _
        (fun _ => id)
      intro d'
      apply Compared.goneLeaf
      rw [Extent.content_leaf, List.forall_mem_cons]
      exact ⟨hlt.ne', fun k hk => (hlt.trans (hqs.lt_of_cons hk)).ne'⟩
    · next hnlt =>
      have hlt : new.key < old.key := lt_of_le_of_ne (not_lt.1 hnlt) (Ne.symm hne)
      apply (ih (by rw [Extent.weight_leaf]; omega) hprev hcurr.stepOver hps hqs.tail).imp id _
        (fun _ => id)
      intro d'
      apply Compared.newLeaf
      rw [Extent.content_leaf, List.forall_mem_cons]
      exact ⟨hlt.ne', fun k hk => (hlt.trans (hps.lt_of_cons hk)).ne'⟩

include hstore hprevStore in
theorem compare_trees {e e' : Extent} {t t' : Subtree}
    (ih : ComparedBelow archive store prevStore
      (Extent.weight config (.tree e :: ps) + Extent.weight config (.tree e' :: qs)))
    (hprev : Cursor.Trail archive prevStore (l :: left) (.tree e :: ps))
    (hcurr : Cursor.Trail archive store (r :: right) (.tree e' :: qs))
    (hps : Listing (Extent.content (.tree e :: ps)))
    (hqs : Listing (Extent.content (.tree e' :: qs))) (hl : l.current = .tree t)
    (hr : r.current = .tree t') (hheight : e.height = e'.height) :
    Returns True
      (do
        let oldAddress ← t.address config
        let newAddress ← t'.address config
        if oldAddress = newAddress then
          Diff.compare store prevStore config config d
            (Cursor.stepOver ⟨l :: left⟩).frames (Cursor.stepOver ⟨r :: right⟩).frames
        else
          let newNode ← t'.resolve store config
          let block ← newNode.val.block config
          let d := (d.addNode block).deleteNode oldAddress
          let oldNode ← t.resolve prevStore config
          let ⟨prev, _⟩ ← enter l left hl oldNode
          let ⟨curr, _⟩ ← enter r right hr newNode
          Diff.compare store prevStore config config d prev.frames curr.frames)
      (Compared config (.tree e :: ps) (.tree e' :: qs) d) := by
  have hpos := hprev.height_pos
  obtain ⟨height, ls⟩ := e
  obtain ⟨height', ls'⟩ := e'
  cases hheight
  obtain ⟨layer, rfl⟩ : ∃ layer, height = layer + 1 := Nat.exists_eq_succ_of_ne_zero hpos.ne'
  have hold := hprev.tree hl
  have hnew := hcurr.tree hr
  obtain ⟨n, block, hn, hblock, -, -, haddress⟩ := hold.exists_block hps.left hprevStore
  obtain ⟨n', block', hn', hblock', -, hnode', haddress'⟩ := hnew.exists_block hqs.left hstore
  obtain ⟨c, henter, htrail⟩ := hprev.enter hl hn hps.left hprevStore
  obtain ⟨c', henter', htrail'⟩ := hcurr.enter hr hn' hqs.left hstore
  rw [Extent.weight_tree, Extent.weight_tree] at ih
  apply (Settles.lift haddress rfl).bind
  rintro _ rfl
  apply (Settles.lift haddress' rfl).bind
  rintro _ rfl
  split
  · next heq =>
    -- Both are the same, so neither has anything to be noted.
    rw [heq, ← haddress'] at haddress
    cases hold.eq_of_address_eq hnew hps.left hqs.left haddress
    apply (ih _ hprev.stepOver hcurr.stepOver hps.right hqs.right).imp id _ (fun _ => id)
    · have : Extent.weight config ps ≤
          Extent.weight config (Extent.entries config ⟨layer + 1, ls⟩ ++ ps) :=
        Extent.weight_le_append
      have : Extent.weight config qs ≤
          Extent.weight config (Extent.entries config ⟨layer + 1, ls⟩ ++ qs) :=
        Extent.weight_le_append
      omega
    · exact fun d' => .skip
  · apply (Settles.of_run_ok hn' rfl).bind
    rintro _ rfl
    apply (Settles.lift hnode' rfl).bind
    rintro _ rfl
    apply (Settles.of_run_ok hn rfl).bind
    rintro _ rfl
    apply (Settles.lift (enter_eq_ok hl henter) rfl).bind
    rintro _ rfl
    apply (Settles.lift (enter_eq_ok hr henter') rfl).bind
    rintro _ rfl
    rw [← Extent.content_enter] at hps hqs
    apply (ih (by omega) htrail htrail' hps hqs).imp id _ (fun _ => id)
    exact fun d' h => .newNode hblock' (.goneNode hblock h)

include hstore hprevStore in
theorem compare_below (w : Nat) : ComparedBelow archive store prevStore w := by
  -- A step into a subtree leaves as many leaves as before, but one subtree less.
  induction w with
  | zero => exact fun hlt => absurd hlt (Nat.not_lt_zero _)
  | succ w ih =>
    intro prev curr ps qs d hlt hprev hcurr hps hqs
    have hle := Nat.le_of_lt_succ hlt
    have ih :
        ComparedBelow archive store prevStore (Extent.weight config ps + Extent.weight config qs) :=
      fun hlt => ih (hlt.trans_le hle)
    cases hprev with
    | done =>
      cases hcurr with
      | done =>
        rw [Diff.compare]
        exact Settles.pure (.done d)
      | on hcurrent hempty hrests =>
        rw [Diff.compare]
        exact compare_new hstore ih .done (.on hcurrent hempty hrests) hps hqs fresh_nil
    | @on l left u ps hcurrent hempty hrests =>
      have hprev : Cursor.Trail archive prevStore (l :: left) (u :: ps) :=
        .on hcurrent hempty hrests
      cases hcurr with
      | done =>
        rw [Diff.compare]
        exact compare_gone hprevStore ih hprev .done hps hqs fresh_nil
      | @on r right v qs hcurrent' hempty' hrests' =>
        have hcurr : Cursor.Trail archive store (r :: right) (v :: qs) :=
          .on hcurrent' hempty' hrests'
        obtain ⟨first, others, index, height⟩ := l
        obtain ⟨first', others', index', height'⟩ := r
        rw [Diff.compare]
        dsimp only
        split
        · cases hcurrent
          cases hcurrent'
          exact compare_leaves ih hprev hcurr hps hqs
        · cases hcurrent
          cases hcurrent'
          exact compare_new hstore ih hprev hcurr hps hqs fresh_tree
        · cases hcurrent
          cases hcurrent'
          exact compare_gone hprevStore ih hprev hcurr hps hqs fresh_tree
        · cases hcurrent
          cases hcurrent'
          split
          · exact compare_gone hprevStore ih hprev hcurr hps hqs fresh_tree
          · split
            · exact compare_new hstore ih hprev hcurr hps hqs fresh_tree
            · apply compare_trees hstore hprevStore ih hprev hcurr hps hqs rfl rfl
              rw [← hprev.layer_eq, ← hcurr.layer_eq]
              dsimp only
              omega

end Steps

end Diff

end MerkleSearch
