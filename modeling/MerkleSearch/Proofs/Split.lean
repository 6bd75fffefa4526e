import MerkleSearch.Proofs.Gap
import MerkleSearch.Proofs.Resolve
import MerkleSearch.Tree.Split

/-!
This module contains what splitting and merging do to the leaves of a subtree. A split separates the
leaves below a key from those above it, and a merge puts the leaves of two neighbours together.
-/

namespace MerkleSearch

variable {config : Config} {height : Nat} {ls rs : List Leaf} {archive : Archive config}
variable {store : Blockstore Id} {t left right : Subtree} {key : String}

theorem Subtree.Holds.split (h : t.Holds archive height ls) (hls : Listing ls)
    (hstore : archive.Agrees store) (hkey : ∀ l ∈ ls, l.key ≠ key) :
    Returns (t.Readable store config) (t.split store config key) fun parts =>
      Spells config (Subtree.Holds archive height) height (Entry.ofTree? parts.1)
        (Leaves.before key ls) ∧
        Spells config (Subtree.Holds archive height) height (Entry.ofTree? parts.2)
          (Leaves.after key ls) := by
  induction height generalizing t ls with
  | zero => exact h.elim
  | succ layer ih =>
    rw [Subtree.split]
    apply (h.resolve hls hstore).bind
    rintro ⟨node, covers⟩ ⟨hnode, hreadable⟩
    dsimp only at hnode hreadable ⊢
    obtain ⟨bs, ss, as, rfl, parts⟩ := hnode.exists_parts hls key
    have hlt : ∀ l ∈ as, key < l.key := by
      intro l hl
      apply lt_of_le_of_ne (parts.le_after l hl)
      apply Ne.symm
      apply hkey
      simp [hl]
    rw [parts.before_eq, parts.after_eq hlt]
    split
    · next below hsubtree =>
      obtain ⟨hbelow, -⟩ := parts.of_subtree_some hsubtree
      apply ((ih hbelow hls.left.right _).mono _).bind
      · rintro ⟨left, right⟩ ⟨hleft, hright⟩
        apply Settles.pure
        constructor
        · apply hnode.ofEntries?
          · exact Entry.apart_append_of_last (Gap.before_apart hnode.apart)
              (Entry.apart_ofTree? left) parts.before_last
          · exact parts.before.append hleft
        · apply hnode.ofEntries?
          · exact Entry.apart_append_of_head (Entry.apart_ofTree? right)
              (Gap.after_apart hnode.apart) parts.after_head
          · exact hright.append parts.after
      · intro l hl
        apply hkey
        simp [hl]
      · intro havailable
        apply hreadable havailable
        exact NodeOf.tree_mem_of_gap hsubtree
    · next hsubtree =>
      cases parts.of_subtree_none hsubtree
      apply Settles.pure
      constructor
      · rw [Leaves.before_nil, List.append_nil]
        exact hnode.ofEntries? (Gap.before_apart hnode.apart) parts.before
      · rw [Leaves.after_nil, List.nil_append]
        exact hnode.ofEntries? (Gap.after_apart hnode.apart) parts.after

namespace Entry

variable {es es' : List NodeEntry}

theorem apart_cons (h : (Entry.tree t :: es).IsChain Apart) (t' : Subtree) :
    (Entry.tree t' :: es).IsChain Apart := by
  rw [List.isChain_cons] at h ⊢
  exact ⟨fun e he => h.1 e he, h.2⟩

theorem apart_append_cons (h : (es ++ [Entry.tree left]).IsChain Apart)
    (h' : (Entry.tree right :: es').IsChain Apart) (t : Subtree) :
    (es ++ Entry.tree t :: es').IsChain Apart := by
  rw [List.isChain_append] at h ⊢
  refine ⟨h.1, apart_cons h' t, ?_⟩
  rintro e he _ ⟨⟩
  exact h.2.2 e he (.tree left) rfl

theorem apart_append (h : es.IsChain Apart) (h' : es'.IsChain Apart)
    (hmeet : ∀ a b rest, es.getLast? = some (.tree a) → es' = .tree b :: rest → False) :
    (es ++ es').IsChain Apart := by
  rw [List.isChain_append]
  refine ⟨h, h', ?_⟩
  rintro (a | _) ha (b | _) hb ⟨htree, htree'⟩
  · obtain ⟨rest, hrest⟩ := List.head?_eq_some_iff.1 hb
    exact hmeet a b rest ha hrest
  · cases htree'
  · cases htree
  · cases htree

end Entry

theorem Subtree.Holds.merge (hleft : left.Holds archive height ls)
    (hright : right.Holds archive height rs) (hls : Listing (ls ++ rs))
    (hstore : archive.Agrees store) :
    Returns (left.Readable store config ∧ right.Readable store config)
      (left.merge store config right) fun node =>
      (Subtree.resolved node).Holds archive height (ls ++ rs) := by
  induction height generalizing left right ls rs with
  | zero => exact hleft.elim
  | succ layer ih =>
    rw [Subtree.merge]
    apply ((hleft.resolve hls.left hstore).mono And.left).bind
    rintro ⟨l, lcovers⟩ ⟨hl, hlreadable⟩
    apply ((hright.resolve hls.right hstore).mono And.right).bind
    rintro ⟨r, rcovers⟩ ⟨hr, hrreadable⟩
    dsimp only at hl hlreadable hr hrreadable ⊢
    rw [hl.layerOf lcovers, hr.layerOf rcovers, pure_bind, pure_bind, if_neg (not_not_intro rfl)]
    split
    · next a b rest hlast hentries =>
      have hlast' : l.entries.dropLast ++ [.tree a] = l.entries :=
        List.dropLast_append_getLast? _ hlast
      have hlspells := hl.spells
      have hlapart := hl.apart
      have hrspells := hr.spells
      have hrapart := hr.apart
      rw [← hlast'] at hlspells hlapart
      rw [hentries] at hrspells hrapart
      obtain ⟨bs, as, rfl, hbs, has⟩ := hlspells.of_append
      obtain ⟨ha, hane, halow⟩ := has.of_singleton
      obtain ⟨ts, rs, rfl, hb, hbne, hblow, hrs⟩ := hrspells.of_tree_cons
      have hmiddle : bs ++ as ++ (ts ++ rs) = bs ++ (as ++ ts ++ rs) := by
        simp only [List.append_assoc]
      rw [hmiddle] at hls ⊢
      apply ((ih ha hb hls.right.left).mono _).bind
      · intro merged hmerged
        apply Settles.pure
        apply NodeOf.Holds.of_spells (Entry.apart_append_cons hlapart hrapart _)
        apply hbs.append
        apply Spells.tree hmerged
        · exact List.append_ne_nil_of_left_ne_nil hane ts
        · exact List.forall_mem_append.2 ⟨halow, hblow⟩
        · exact hrs
      · rintro ⟨hleft, hright⟩
        constructor
        · exact hlreadable hleft a (List.mem_of_getLast? hlast)
        · exact hrreadable hright b (by rw [hentries]; exact List.mem_cons_self)
    · next hmeet =>
      apply Settles.pure
      refine NodeOf.Holds.of_spells ?_ (hl.spells.append hr.spells)
      apply Entry.apart_append hl.apart hr.apart
      intro a b rest hlast hentries
      exact hmeet a b rest hlast hentries

end MerkleSearch
