import MerkleSearch.Proofs.Equations
import MerkleSearch.Proofs.Steady

/-!
This module contains what an edit leaves alone. It takes apart and rewrites what stands around its
key, and nothing else: the main statement is that all other subtrees of the new tree are subtrees of
the old one, and that those of the old one need not be in the store.
-/

namespace MerkleSearch

def Edit.key : Edit → String
  | .add key _ => key
  | .update key _ => key
  | .delete key => key

section

variable {config : Config} {archive : Archive config} {store store' : Blockstore Id}
variable {root t left right : Subtree} {key : String} {span : Span} {es : List NodeEntry}
variable {node : Node} {layer height : Nat} {ls rs bs ss as : List Leaf}

theorem Subtree.Holds.split_steady (h : t.Holds archive height ls) (hls : Listing ls)
    (hstore : archive.Agrees store)
    (hsteady : Place.Steady store store' config root key ⟨span, t⟩) :
    Coincides (fun parts =>
      Keeps store config root key ⟨span.lower, some key⟩ (Entry.ofTree? parts.1) ∧
        Keeps store config root key ⟨some key, span.upper⟩ (Entry.ofTree? parts.2))
          (t.split store config key) (t.split store' config key) := by
  induction height generalizing t ls span with
  | zero => exact h.elim
  | succ layer ih =>
    rw [Subtree.split_eq, Subtree.split_eq]
    apply Coincides.bind_run hsteady.resolve
    intro n hn
    have hnode := h.of_resolve hls hstore hn
    obtain ⟨bs, ss, as, rfl, parts⟩ := hnode.exists_parts hls key
    cases hsubtree : (n.val.gap key).subtree with
    | some below =>
      obtain ⟨hbelow, -⟩ := parts.of_subtree_some hsubtree
      apply (ih hbelow hls.left.right (hsteady.below hn parts hsubtree)).bind
      rintro ⟨left, right⟩ ⟨hl, hr⟩
      apply Coincides.pure
      constructor
      · exact Keeps.ofEntries? hsteady.around.left ((hsteady.keeps_before hn).append hl) _
      · exact Keeps.ofEntries? hsteady.around.right
          (Keeps.append hr (hsteady.keeps_after hn fun _ => id)) _
    | none =>
      apply Coincides.pure
      constructor
      · exact Keeps.ofEntries? hsteady.around.left (hsteady.keeps_before hn) _
      · exact Keeps.ofEntries? hsteady.around.right (hsteady.keeps_after hn fun _ => id) _

theorem Subtree.Holds.merge_steady (span : Span) (hleft : left.Holds archive height ls)
    (hright : right.Holds archive height rs) (hls : Listing (ls ++ rs))
    (hstore : archive.Agrees store) (hle : ∀ l ∈ ls, l.key ≤ key) (hge : ∀ l ∈ rs, key ≤ l.key)
    (hlsteady : Place.Steady store store' config root key ⟨⟨span.lower, some key⟩, left⟩)
    (hrsteady : Place.Steady store store' config root key ⟨⟨some key, span.upper⟩, right⟩) :
    Coincides (fun node => Joined store store' config root key span node.entries)
      (left.merge store config right) (left.merge store' config right) := by
  induction height generalizing left right ls rs span with
  | zero => exact hleft.elim
  | succ layer ih =>
    rw [Subtree.merge_eq, Subtree.merge_eq]
    apply Coincides.bind_run hlsteady.resolve
    intro l hl
    apply Coincides.bind_run hrsteady.resolve
    intro r hr
    have hlnode := hleft.of_resolve hls.left hstore hl
    have hrnode := hright.of_resolve hls.right hstore hr
    rw [hlnode.layerOf l.property, hrnode.layerOf r.property, hlnode.layerOf l.property,
      hrnode.layerOf r.property]
    simp only [pure_bind, ne_eq, not_true_eq_false, if_false]
    have happend : ∀ es, r.val.entries = es →
        Joined store store' config root key span (l.val.entries ++ es) := by
      rintro _ rfl
      constructor
      · exact (hlsteady.keeps hl fun _ => id).append (hrsteady.keeps hr fun _ => id)
      · exact (hlsteady.topsAlike hl).append (hrsteady.topsAlike hr)
    match hlast : l.val.entries.getLast?, hentries : r.val.entries with
    | some (.tree a), .tree b :: rest =>
      -- Only here two subtrees meet. Both end at the key, which is then in the span of what they
      -- are merged to.
      have hlast' : l.val.entries = l.val.entries.dropLast ++ .tree a :: [] :=
        (List.dropLast_append_getLast? _ hlast).symm
      have hsplit : r.val.entries = [] ++ .tree b :: rest := hentries
      have hrspells := hrnode.spells
      rw [hentries] at hrspells
      obtain ⟨bs, as, rfl, hbs, ha⟩ := hlnode.spells.of_getLast? hlast
      obtain ⟨ts, rs, rfl, hb, -, -, hrs⟩ := hrspells.of_tree_cons
      have hmiddle : bs ++ as ++ (ts ++ rs) = bs ++ (as ++ ts ++ rs) := by
        simp only [List.append_assoc]
      rw [hmiddle] at hls
      rw [List.forall_mem_append] at hle hge
      have hbefore : ∀ k ∈ Entry.leaves l.val.entries.dropLast, k.key ≤ key := fun k hk =>
        hle.1 k (hbs.mem_of_mem_leaves hk)
      have hafter : ∀ k ∈ Entry.leaves rest, key ≤ k.key :=
        fun k hk => hge.2 k (hrs.mem_of_mem_leaves hk)
      have hspan : span.Around key := ⟨hlsteady.around.1, hrsteady.around.2⟩
      apply (ih (span.between (Entry.leaves l.val.entries.dropLast) (Entry.leaves rest)) ha hb
        hls.right.left hle.2 hge.1 (hlsteady.child hl hlast' hbefore nofun)
        (hrsteady.child hr hsplit nofun hafter)).bind
      intro merged hmerged
      apply Coincides.pure
      apply hmerged.middle (hspan.between hbefore hafter)
      · exact fun _ => hlsteady.keeps hl fun c hc => List.mem_of_mem_dropLast hc
      · exact fun _ => hrsteady.keeps hr fun c hc =>
          by rw [hentries]; exact List.mem_cons_of_mem _ hc
    | none, _ => exact .pure (happend _ hentries)
    | some (.leaf _), _ => exact .pure (happend _ hentries)
    | some (.tree _), [] => exact .pure (happend _ hentries)
    | some (.tree _), .leaf _ :: _ => exact .pure (happend _ hentries)

theorem Subtree.Holds.add_steady {leaf : Leaf} {keyLayer : Nat} (h : t.Holds archive height ls)
    (hls : Listing ls) (hstore : archive.Agrees store)
    (hsteady : Place.Steady store store' config root leaf.key ⟨span, t⟩) :
    Coincides (fun node => Keeps store config root leaf.key span node.entries)
      (t.add store config leaf keyLayer) (t.add store' config leaf keyLayer) := by
  induction height generalizing t ls span with
  | zero => exact h.elim
  | succ layer ih =>
    rw [Subtree.add_eq, Subtree.add_eq]
    apply Coincides.bind_run hsteady.resolve
    intro n hn
    have hn' : (t.resolve store' config).run = .ok n := hsteady.resolve.trans hn
    have hnode := h.of_resolve hls hstore hn
    obtain ⟨bs, ss, as, rfl, parts⟩ := hnode.exists_parts hls leaf.key
    rw [hnode.layerOf n.property, hnode.layerOf n.property, pure_bind, pure_bind]
    by_cases hlayer : keyLayer = layer
    · rw [if_pos hlayer, if_pos hlayer]
      split
      · exact .throw _
      · cases hsubtree : (n.val.gap leaf.key).subtree with
        | some below =>
          obtain ⟨hbelow, -⟩ := parts.of_subtree_some hsubtree
          apply (hbelow.split_steady hls.left.right hstore (hsteady.below hn parts hsubtree)).bind
          rintro ⟨left, right⟩ ⟨hleft, hright⟩
          exact .pure (hsteady.fill hn (Keeps.between hleft hright))
        | none => exact .pure (hsteady.fill hn (Keeps.leaf Keeps.nil))
    · rw [if_neg hlayer, if_neg hlayer]
      have hspan := parts.span_around hsteady.around
      split
      · cases hsubtree : (n.val.gap leaf.key).subtree with
        | some below =>
          obtain ⟨hbelow, -⟩ := parts.of_subtree_some hsubtree
          apply (ih hbelow hls.left.right (hsteady.below hn parts hsubtree)).bind
          intro child hchild
          exact .pure (hsteady.fill hn (Keeps.tree hspan hchild))
        | none =>
          have hsingle :
              Keeps store config root leaf.key _
                [.tree (Subtree.ofEntries [.leaf leaf] (some keyLayer))] :=
            Keeps.tree hspan (Keeps.leaf Keeps.nil)
          exact .pure (hsteady.fill hn (hsingle.raise hspan _))
      · -- The key is above all of the subtree. What is split is the node, which has been read
        -- already.
        rw [Subtree.split_resolved hn, Subtree.split_resolved hn']
        apply (h.split_steady hls hstore hsteady).bind
        rintro ⟨left, right⟩ ⟨hleft, hright⟩
        exact .pure
          (Keeps.between (hleft.raise_part hsteady.around.left _)
            (hright.raise_part hsteady.around.right _))

theorem Subtree.Holds.update_steady {leaf : Leaf} (h : t.Holds archive height ls)
    (hls : Listing ls) (hstore : archive.Agrees store)
    (hsteady : Place.Steady store store' config root leaf.key ⟨span, t⟩) :
    Coincides (fun node => Keeps store config root leaf.key span node.entries)
      (t.update store config leaf) (t.update store' config leaf) := by
  induction height generalizing t ls span with
  | zero => exact h.elim
  | succ layer ih =>
    rw [Subtree.update_eq, Subtree.update_eq]
    apply Coincides.bind_run hsteady.resolve
    intro n hn
    have hnode := h.of_resolve hls hstore hn
    obtain ⟨bs, ss, as, rfl, parts⟩ := hnode.exists_parts hls leaf.key
    cases hfound : (n.val.gap leaf.key).found? leaf.key with
    | some found =>
      apply Coincides.pure
      apply hsteady.withAfter hn
      intro c hc
      rw [(Gap.mem_of_found? hfound).1]
      exact List.mem_cons_of_mem _ ((List.mem_cons.1 hc).resolve_left nofun)
    | none =>
      cases hsubtree : (n.val.gap leaf.key).subtree with
      | some below =>
        obtain ⟨hbelow, -⟩ := parts.of_subtree_some hsubtree
        apply (ih hbelow hls.left.right (hsteady.below hn parts hsubtree)).bind
        intro child hchild
        apply Coincides.pure
        exact hsteady.fill hn (Keeps.tree (parts.span_around hsteady.around) hchild)
      | none => exact .throw _

theorem Place.Steady.joined_merge {n : { node : Node // t.Covers node }} {found : Leaf}
    {rest : List NodeEntry} (hsteady : Place.Steady store store' config root found.key ⟨span, t⟩)
    (hn : (t.resolve store config).run = .ok n)
    (parts : (n.val.gap found.key).Parts config (Subtree.Holds archive layer) layer found.key bs
      ss as)
    (hls : Listing (bs ++ ss ++ as)) (hstore : archive.Agrees store)
    (hfound : (n.val.gap found.key).found? found.key = some (found, .tree right :: rest))
    (hsubtree : (n.val.gap found.key).subtree = some left) :
    Coincides (fun merged =>
      Joined store store' config root found.key span
      ((n.val.gap found.key).before ++ .tree (.resolved merged) :: rest))
      (left.merge store config right) (left.merge store' config right) := by
  obtain ⟨_, rfl, -, -, hafter, hrest⟩ := parts.of_found hfound
  obtain ⟨ts, rs, rfl, hright, -, -, hrest⟩ := hrest.of_tree_cons
  obtain ⟨hleft, -⟩ := parts.of_subtree_some hsubtree
  have hlisting : Listing (ss ++ ts) := by
    apply hls.sublist
    apply List.Sublist.append
    · exact List.sublist_append_right bs ss
    · exact (List.sublist_append_left ts rs).cons found
  have hle : ∀ l ∈ ss, l.key ≤ found.key := fun l hl =>
    (hls.lt_of_append (List.mem_append_right _ hl) List.mem_cons_self).le
  have hge : ∀ l ∈ ts ++ rs, found.key ≤ l.key := fun l hl => (hls.right.lt_of_cons hl).le
  rw [List.forall_mem_append] at hge
  have hspan :
      (span.between (Entry.leaves (n.val.gap found.key).before) (Entry.leaves rest)).Around
        found.key :=
    hsteady.around.between parts.leaves_before_le fun l hl => hge.2 l (hrest.mem_of_mem_leaves hl)
  have hlsteady := hsteady.below hn parts hsubtree
  rw [hafter] at hlsteady
  apply (hleft.merge_steady
    (span.between (Entry.leaves (n.val.gap found.key).before) (Entry.leaves rest)) hright hlisting
    hstore hle hge.1 hlsteady (hsteady.behind hn parts hafter)).imp
  intro merged hmerged
  apply hmerged.middle hspan fun _ => hsteady.keeps_before hn
  intro _
  apply hsteady.keeps_after hn
  intro c hc
  rw [hafter]
  exact List.mem_cons_of_mem _ (List.mem_cons_of_mem _ hc)

theorem Subtree.Holds.delete_steady (h : t.Holds archive height ls) (hls : Listing ls)
    (hstore : archive.Agrees store)
    (hsteady : Place.Steady store store' config root key ⟨span, t⟩) :
    Coincides (fun node => Joined store store' config root key span node.entries)
      (t.delete store config key) (t.delete store' config key) := by
  induction height generalizing t ls span with
  | zero => exact h.elim
  | succ layer ih =>
    rw [Subtree.delete_eq, Subtree.delete_eq]
    apply Coincides.bind_run hsteady.resolve
    intro n hn
    have hnode := h.of_resolve hls hstore hn
    obtain ⟨bs, ss, as, rfl, parts⟩ := hnode.exists_parts hls key
    cases hfound : (n.val.gap key).found? key with
    | some found =>
      obtain ⟨found, rest⟩ := found
      obtain ⟨hafter, rfl⟩ := Gap.mem_of_found? hfound
      -- Subtrees meet only if there is one to either side of the leaf.
      have happart := hsteady.joined_withAfter hn parts hafter
      match rest, hsubtree : (n.val.gap found.key).subtree with
      | .tree right :: rest, some left =>
        apply (hsteady.joined_merge hn parts hls hstore hfound hsubtree).bind
        exact fun merged hmerged => .pure hmerged
      | .tree right :: rest, none => exact .pure happart
      | .leaf _ :: rest, _ => exact .pure happart
      | [], _ => exact .pure happart
    | none =>
      cases hsubtree : (n.val.gap key).subtree with
      | some below =>
        obtain ⟨hbelow, -⟩ := parts.of_subtree_some hsubtree
        apply (ih hbelow hls.left.right (hsteady.below hn parts hsubtree)).bind
        intro child hchild
        apply Coincides.pure
        exact hsteady.joined_fill hn parts hchild
      | none => exact .throw _

theorem Subtree.trim_steady (covers : t.Covers node)
    (h : Joined store store' config root key span node.entries) :
    Coincides (fun top => Keeps store config root key span top.entries)
      (t.trim store config node covers) (t.trim store' config node covers) := by
  obtain ⟨hkeeps, htops⟩ := h
  induction t.acc generalizing node with
  | intro t _ ih =>
    rw [Subtree.trim_eq, Subtree.trim_eq]
    split
    · next only hentries =>
      obtain ⟨hresolve, below⟩ := htops only hentries
      rw [hentries] at hkeeps
      apply Coincides.bind_run hresolve
      intro n hn
      apply ih only _ n.property (hkeeps.of_resolve hn) (below n hn)
      apply covers
      rw [hentries]
      exact List.mem_cons_self
    · next hother => exact .pure hkeeps

namespace Tree.Holds

variable {tree : Tree} {edit : Edit}

theorem edit_steady (h : tree.Holds archive ls) (hstore : archive.Agrees store)
    (hsteady : Place.Steady store store' config tree.root edit.key ⟨.whole, tree.root⟩) :
    Coincides (fun tree' => Keeps store config tree.root edit.key .whole [.tree tree'.root])
      (edit.apply tree store) (edit.apply tree store') := by
  obtain ⟨layer, -, hroot⟩ := h.root
  cases h.config_eq
  cases edit with
  | add key value =>
    unfold Edit.apply Tree.add
    dsimp only
    split
    · apply (hroot.add_steady h.listing hstore hsteady).bind
      exact fun node hkeeps => .pure (hkeeps.tree Span.whole_around)
    · exact .throw _
  | update key value =>
    unfold Edit.apply Tree.update
    dsimp only
    split
    · apply (hroot.update_steady h.listing hstore hsteady).bind
      exact fun node hkeeps => .pure (hkeeps.tree Span.whole_around)
    · exact .throw _
  | delete key =>
    unfold Edit.apply Tree.delete
    dsimp only
    split
    · apply (hroot.delete_steady h.listing hstore hsteady).bind
      intro altered haltered
      apply (Subtree.trim_steady _ haltered).bind
      intro top hkeeps
      apply Coincides.pure
      apply Keeps.tree Span.whole_around
      split
      · exact Keeps.nil
      · exact hkeeps
    · exact .throw _

theorem steady (h : tree.Holds archive ls) (hcovers : archive.Covers tree)
    (hstore : archive.Agrees store) {whole : Blockstore Id} (hwhole : archive.Agrees whole)
    (hget : ∀ address, (store'.get? address).run ≠ (store.get? address).run →
      ∃ place : Place, place.In whole config ⟨.whole, tree.root⟩ ∧ ¬place.span.Meets key ∧
      place.subtree.address config = .ok address) :
    Place.Steady store store' config tree.root key ⟨.whole, tree.root⟩ := by
  refine ⟨Span.whole_around, .here, ?_⟩
  intro place hplace haround
  match hsubtree : place.subtree with
  | .resolved node => rfl
  | .unresolved address hint =>
    have heq : (store'.get? address).run = (store.get? address).run := by
      by_contra hne
      obtain ⟨other, hother, haway, haddress⟩ := hget address hne
      apply haway
      have hspan := h.span_eq hcovers hstore hwhole hplace hother (by rw [hsubtree, haddress]; rfl)
      rw [← hspan]
      exact haround.meets
    have hread : store'.read address = store.read address := by
      unfold Blockstore.read
      rw [show store'.get? address = store.get? address from heq]
    unfold Subtree.resolve
    dsimp only
    rw [hread]

end Tree.Holds

namespace Tree

variable {tree tree' : Tree} {edit : Edit}

/--
An edit is confined to what stands around its key. All other subtrees of the new tree are subtrees
of the old one, as they are; and the edit comes to the same if the store has lost the blocks of all
other subtrees of the old one, or answers for them as it likes. Which those are is seen in a store
that has them.
-/
theorem Built.edit_local (h : tree.Built archive) (hcovers : archive.Covers tree)
    (hstore : archive.Agrees store) (hrun : (edit.apply tree store).run = .ok tree') :
    (∀ place : Place, place.In store config ⟨.whole, tree'.root⟩ → ¬place.span.Meets edit.key →
      place.subtree.Within store config tree.root) ∧
    ∀ whole store' : Blockstore Id, archive.Agrees whole →
      (∀ address, (store'.get? address).run ≠ (store.get? address).run →
        ∃ place : Place, place.In whole config ⟨.whole, tree.root⟩ ∧ ¬place.span.Meets edit.key ∧
          place.subtree.address config = .ok address) →
      (edit.apply tree store').run = .ok tree' := by
  obtain ⟨ls, hls⟩ := h.holds
  constructor
  · intro place hplace haway
    have hsteady : Place.Steady store store config tree.root edit.key ⟨.whole, tree.root⟩ :=
      ⟨Span.whole_around, .here, fun _ _ _ => rfl⟩
    obtain ⟨-, hkeeps⟩ := (hls.edit_steady hstore hsteady).of_ok hrun
    exact (hkeeps place (Place.among_singleton.2 hplace)).resolve_left haway
  · intro whole store' hwhole hget
    exact ((hls.edit_steady hstore (hls.steady hcovers hstore hwhole hget)).of_ok hrun).1

end Tree

end

namespace Sample

def upperShelf : BlockMap := ({} : BlockMap).insert (pointer 2) [0, 0]

def lowPlace : Place := ⟨⟨none, some high.key⟩, .unresolved (pointer 1) (.layer 0)⟩

theorem lowPlace_not_meets : ¬lowPlace.span.Meets last.key := by
  rintro (⟨-, hupper⟩ | hlower | hupper)
  · exact absurd (hupper high.key rfl) (by decide)
  · cases hlower
  · exact absurd hupper (by decide)

theorem lowPlace_in_load :
    lowPlace.In (.snapshot shelf) config ⟨.whole, (Tree.load (pointer 2) config).root⟩ := by
  obtain ⟨covers, hn⟩ := exists_resolve_high_shelf
  have hentries : storedHighNode.entries = [] ++ .tree lowPlace.subtree :: [.leaf high] := rfl
  exact .deeper hn hentries .here

theorem lowPlace_in_grown {store : Blockstore Id} :
    lowPlace.In store config ⟨.whole, .resolved grownNode⟩ := by
  have hentries : grownNode.entries = [] ++ .tree lowPlace.subtree :: [.leaf high, .leaf last] :=
    rfl
  exact Place.in_resolved.2 (.inr ⟨_, _, _, hentries, .here⟩)

theorem get?_upperShelf {address : Cid} (h : address ≠ pointer 1) :
    upperShelf[address]? = shelf[address]? := by
  rw [shelf, Std.TreeMap.getElem?_insert, if_neg (by simpa using h.symm)]
  rfl

end Sample

theorem Tree.Built.edit_local_of_load :
    ((Edit.add Sample.last.key Sample.last.value).apply (Tree.load (Sample.pointer 2) Sample.config)
      (.snapshot Sample.upperShelf)).run = .ok ⟨.resolved Sample.grownNode, Sample.config⟩ ∧
    Sample.lowPlace.subtree.Within (.snapshot Sample.shelf) Sample.config
      (Tree.load (Sample.pointer 2) Sample.config).root := by
  have hrun :
      ((Edit.add Sample.last.key Sample.last.value).apply
        (Tree.load (Sample.pointer 2) Sample.config) (.snapshot Sample.shelf)).run =
        .ok ⟨.resolved Sample.grownNode, Sample.config⟩ :=
    Sample.add_last (Blockstore.run_get?_snapshot_eq Sample.get?_shelf.1)
  obtain ⟨hkept, hsame⟩ :=
    Tree.Built.edit_local Sample.built_load Sample.covers_load Sample.agrees_shelf hrun
  refine ⟨hsame (.snapshot Sample.shelf) (.snapshot Sample.upperShelf) Sample.agrees_shelf ?_,
    hkept Sample.lowPlace Sample.lowPlace_in_grown Sample.lowPlace_not_meets⟩
  intro address hne
  have haddress : address = Sample.pointer 1 := by
    by_contra hother
    exact hne (congrArg Except.ok (Sample.get?_upperShelf hother))
  rw [haddress]
  exact ⟨Sample.lowPlace, Sample.lowPlace_in_load, Sample.lowPlace_not_meets, rfl⟩

end MerkleSearch
