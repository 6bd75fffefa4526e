import MerkleSearch.Proofs.Seek
import MerkleSearch.Proofs.Shape
import MerkleSearch.Proofs.Walk.Lost

/-!
This module contains walks from a key on when blocks of smaller keys are lost. To seek a key takes
the nodes on the way to it, but also those next to the left of it if the way ends early, at a leaf
with that key. The main statement is `Tree.Built.leavesFrom_of_lost`: unless one of the latter is
lost, nothing is missed of what has only smaller keys.
-/

namespace MerkleSearch

section

variable {config : Config} {archive : Archive config} {store whole : Blockstore Id}
variable {layer height : Nat} {key : String} {ls bs as : List Leaf} {t c : Subtree} {tree : Tree}
variable {place outer : Place} {span : Span} {address : Cid} {ns : List Node} {value? : Option Cid}
variable {cs : List Cid} {p : Pending} {rest : List NodeEntry}

namespace Place

def Lost (store : Blockstore Id) (config : Config) (place : Place) (address : Cid) : Prop :=
  place.subtree.address config = .ok address ∧ store.lacks address = true

/--
Inside of `outer`, only such subtrees are lost whose nodes are not among `nodes` and which have
smaller keys only.
-/
def LostAside (store whole : Blockstore Id) (config : Config) (key : String) (nodes : List Cid)
    (outer : Place) : Prop :=
  ∀ (place : Place) (address : Cid), place.In whole config outer → place.Lost store config address →
    address ∉ nodes ∧ ∀ l, place.subtree.Contains whole config l → l.key < key

theorem In.readable (h : place.In whole config outer)
    (houter : outer.subtree.Readable whole config) :
    place.subtree.Readable whole config := by
  induction h with
  | here => exact houter
  | @deeper span t c left right n hn hentries _ ih =>
    apply ih
    apply houter.child hn
    rw [hentries]
    exact List.mem_append_right _ List.mem_cons_self

theorem In.contains {l : Leaf} (h : place.In whole config outer)
    (hl : place.subtree.Contains whole config l) :
    outer.subtree.Contains whole config l := by
  induction h with
  | here => exact hl
  | deeper hn hentries _ ih =>
    refine (Subtree.contains_iff hn).2 (.inr ⟨_, ?_, ih⟩)
    rw [hentries]
    exact List.mem_append_right _ List.mem_cons_self

theorem In.exists_contains (h : place.In whole config ⟨span, t⟩)
    (hreadable : t.Readable whole config) (hholds : t.Holds archive height ls)
    (hhas : archive.Has height ls) (hls : Listing ls) (hwhole : archive.Agrees whole)
    (hne : ls ≠ []) :
    ∃ l, place.subtree.Contains whole config l := by
  have houter : (⟨span, t⟩ : Place) = ⟨span.between [] [], t⟩ := rfl
  obtain ⟨height', bs', us, as', rfl, -, hplace, -, hnil⟩ :=
    h.exists_leaves houter hholds hhas hls hwhole
  obtain ⟨l, hl⟩ := List.exists_mem_of_ne_nil us fun hus => hne (hnil hus).2
  exact ⟨l, hplace.contains hls.left.right hwhole (h.readable hreadable) hl⟩

namespace LostAside

theorem resolve {n : { node : Node // t.Covers node }}
    (h : LostAside store whole config key cs ⟨span, t⟩) (hremains : store.RemainsOf whole)
    (hn : (t.resolve whole config).run = .ok n) (haddress : n.val.addressIn config = .ok address)
    (hmem : address ∈ cs) :
    (t.resolve store config).run = .ok n := by
  have haddress : t.address config = .ok address :=
    (Subtree.address_of_resolve hn).symm.trans haddress
  apply Subtree.resolve_of_not_lacks hremains hn haddress
  rw [← Bool.not_eq_true]
  exact fun hlacks => (h _ address .here ⟨haddress, hlacks⟩).1 hmem

theorem child {n : { node : Node // t.Covers node }} {left right : List NodeEntry}
    (h : LostAside store whole config key (address :: cs) ⟨span, t⟩)
    (hn : (t.resolve whole config).run = .ok n)
    (hentries : n.val.entries = left ++ .tree c :: right) :
    LostAside store whole config key cs
      ⟨span.between (Entry.leaves left) (Entry.leaves right), c⟩ := by
  intro place address' hplace hlost
  obtain ⟨hne, hlt⟩ := h place address' (.deeper hn hentries hplace) hlost
  exact ⟨fun hmem => hne (List.mem_cons_of_mem _ hmem), hlt⟩

end LostAside

end Place

namespace Subtree

theorem Readable.remains (h : t.Readable whole config) (ht : t.Stored)
    (hremains : store.RemainsOf whole)
    (hkept : ∀ (place : Place) (address : Cid), place.In whole config ⟨span, t⟩ →
      ¬place.Lost store config address) :
    t.Readable store config := by
  induction h generalizing span with
  | @intro t n hn _ ih =>
    obtain ⟨address, hint, rfl⟩ := id ht
    have hn' : ((unresolved address hint).resolve store config).run = .ok n := by
      apply resolve_of_not_lacks hremains hn rfl
      rw [← Bool.not_eq_true]
      exact fun hlacks => hkept _ address .here ⟨rfl, hlacks⟩
    refine .intro n hn' fun c hc => ?_
    obtain ⟨left, right, hentries⟩ := List.append_of_mem hc
    exact ih c hc ((ht.checked hn).unresolved c hc) fun place address h =>
      hkept place address (.deeper hn hentries h)

/--
To seek the key fails at a lost subtree that ends where the leaf with the key is.
-/
def Misses (store whole : Blockstore Id) (config : Config) (key : String) (outer : Place) : Prop :=
  ∃ (place : Place) (address : Cid), place.In whole config outer ∧ place.Lost store config address ∧
    place.span.upper = some key ∧
    ∀ rest, (outer.subtree.seek store config key rest).run = .error (.missingBlock address)

theorem ReadableFrom.of_subtree_none {n : { node : Node // t.Covers node }}
    (hn : (t.resolve store config).run = .ok n)
    (hafter : AllReadable store config (n.val.gap key).after)
    (hsubtree : (n.val.gap key).subtree = none) :
    t.ReadableFrom store config key :=
  .intro n hn hafter fun _ hc => nomatch hsubtree.symm.trans hc

theorem readableFrom_or_misses_of_gap {n : { node : Node // t.Covers node }}
    (hn : (t.resolve whole config).run = .ok n) (hn' : (t.resolve store config).run = .ok n)
    (hafter : AllReadable store config (n.val.gap key).after)
    (hsubtree : (n.val.gap key).subtree = some c)
    (h : c.ReadableFrom store config key ∨ Misses store whole config key ⟨span.between
      (Entry.leaves (n.val.gap key).before) (Entry.leaves (n.val.gap key).after), c⟩) :
    t.ReadableFrom store config key ∨ Misses store whole config key ⟨span, t⟩ := by
  rcases h with hbelow | ⟨place, address, hplace, hlost, hupper, hseek⟩
  · refine .inl (.intro n hn' hafter fun d hd => ?_)
    cases hsubtree.symm.trans hd
    exact hbelow
  · refine .inr ⟨place, address, .deeper hn (NodeOf.entries_eq_of_gap hsubtree) hplace, hlost,
      hupper, fun rest => ?_⟩
    rw [seek_eq, show t.resolve store config = pure n from hn', pure_bind, hsubtree]
    exact hseek _

theorem Misses.here (ht : t.Stored) {n : { node : Node // t.Covers node }}
    (hn : (t.resolve whole config).run = .ok n) (haddress : t.address config = .ok address)
    (hlacks : store.lacks address = true) (hupper : span.upper = some key) :
    Misses store whole config key ⟨span, t⟩ := by
  obtain ⟨_, hint, rfl⟩ := ht
  cases haddress
  refine ⟨_, address, .here, ⟨rfl, hlacks⟩, hupper, fun rest => ?_⟩
  rw [seek_eq, show (unresolved address hint).resolve store config =
    throw (.missingBlock address) from resolve_of_lacks (resolve_unresolved hn).1 hlacks]
  rfl

theorem Readable.readableFrom_or_misses (h : t.Readable whole config) (ht : t.Stored)
    (hremains : store.RemainsOf whole) (hupper : span.upper = some key)
    (hlt : ∀ l, t.Contains whole config l → l.key < key) :
    t.ReadableFrom store config key ∨ Misses store whole config key ⟨span, t⟩ := by
  induction h generalizing span with
  | @intro t n hn _ ih =>
    obtain ⟨address, hint, rfl⟩ := id ht
    cases hlacks : store.lacks address with
    | true => exact .inr (.here ht hn rfl hlacks hupper)
    | false =>
      have hn' := resolve_of_not_lacks hremains hn rfl hlacks
      have hafter : (n.val.gap key).after = [] := by
        refine (Gap.after_eq key n.val.entries).resolve_right ?_
        rintro ⟨l, rest, hafter, hle⟩
        have hmem : .leaf l ∈ n.val.entries := by
          rw [← Gap.entries_of key n.val.entries, Gap.entries, Gap.fill, hafter]
          simp
        exact (hlt l ((contains_iff hn).2 (.inl hmem))).not_ge hle
      have hbehind : AllReadable store config (n.val.gap key).after := by
        rw [hafter]
        exact allReadable_nil
      cases hsubtree : (n.val.gap key).subtree with
      | none => exact .inl (.of_subtree_none hn' hbehind hsubtree)
      | some c =>
        have hc := NodeOf.tree_mem_of_gap hsubtree
        apply readableFrom_or_misses_of_gap hn hn' hbehind hsubtree
        apply ih c hc ((ht.checked hn).unresolved c hc)
        · rw [hafter]
          exact hupper
        · exact fun l hl => hlt l ((contains_iff hn).2 (.inr ⟨c, hc, hl⟩))

theorem lt_of_contains_gap {node : Node} {leaf l : Leaf} {behind : List NodeEntry}
    (h : node.Holds archive (Subtree.Holds archive layer) layer ls) (hls : Listing ls)
    (hwhole : archive.Agrees whole) (hfound : (node.gap key).found? key = some (leaf, behind))
    (hsubtree : (node.gap key).subtree = some c) (hl : c.Contains whole config l) :
    l.key < key := by
  obtain ⟨bs, ss, as, rfl, parts⟩ := h.exists_parts hls key
  obtain ⟨as, rfl, rfl, -⟩ := parts.of_found hfound
  have hmem : .tree c ∈ Entry.ofTree? (node.gap leaf.key).subtree := by
    rw [hsubtree]
    exact List.mem_cons_self
  have hl := parts.subtree.mem_of_contains hls.left.right hwhole (.inr ⟨c, hmem, hl⟩)
  exact hls.lt_of_append (List.mem_append_right _ hl) List.mem_cons_self

theorem Readable.allReadable_after {n : { node : Node // t.Covers node }}
    (h : t.Readable whole config) (hn : (t.resolve whole config).run = .ok n)
    (hholds : t.Holds archive (layer + 1) ls) (hhas : archive.Has (layer + 1) ls)
    (hls : Listing ls) (hwhole : archive.Agrees whole) (ht : t.Stored)
    (hremains : store.RemainsOf whole)
    (hlost : Place.LostAside store whole config key cs ⟨span, t⟩) :
    AllReadable store config (n.val.gap key).after := by
  intro c hc
  have hnode := hholds.of_resolve hls hwhole hn
  obtain ⟨bs, ss, as, heq, parts⟩ := hnode.exists_parts hls key
  obtain ⟨left, right, hafter⟩ := List.append_of_mem hc
  have hentries : n.val.entries = (n.val.gap key).before ++ Entry.ofTree? (n.val.gap key).subtree ++
      left ++ .tree c :: right := by
    rw [List.append_assoc _ left, ← hafter]
    exact (Gap.entries_of key n.val.entries).symm
  have hmem : .tree c ∈ n.val.entries := by
    rw [hentries]
    exact List.mem_append_right _ List.mem_cons_self
  have hreadable := h.child hn hmem
  obtain ⟨bl, us, br, rfl, hchild⟩ := hnode.exists_child hhas hentries
  apply hreadable.remains ((ht.checked hn).unresolved c hmem) hremains
  intro place address hplace hplaceLost
  -- Some leaf of the place is not below the key, so the place is not one of those that are lost.
  obtain ⟨l, hl⟩ :=
    hplace.exists_contains hreadable hchild.holds hchild.has hls.right.left hwhole hchild.ne_nil
  have hlt := (hlost place address (.deeper hn hentries hplace) hplaceLost).2 l hl
  rw [heq] at hls
  exact (parts.le_after l
    (parts.after.mem_of_contains hls.right hwhole (.inr ⟨c, hc, hplace.contains hl⟩))).not_gt hlt

theorem Way.readableFrom_or_misses (h : t.Way whole config key ns value?)
    (hcs : List.Forall₂ (fun n c => n.addressIn config = .ok c) ns cs)
    (hreadable : t.Readable whole config) (hholds : t.Holds archive height ls)
    (hhas : archive.Has height ls) (hls : Listing ls) (hwhole : archive.Agrees whole)
    (ht : t.Stored) (hremains : store.RemainsOf whole)
    (hlost : Place.LostAside store whole config key cs ⟨span, t⟩) :
    t.ReadableFrom store config key ∨ Misses store whole config key ⟨span, t⟩ := by
  induction h generalizing height ls cs span with
  | @found t n leaf rest hn hfound =>
    obtain ⟨address, _, haddress, -, rfl⟩ := List.forall₂_cons_left_iff.1 hcs
    have hn' := hlost.resolve hremains hn haddress List.mem_cons_self
    cases height with
    | zero => exact hholds.elim
    | succ layer =>
      have hafter := hreadable.allReadable_after hn hholds hhas hls hwhole ht hremains hlost
      cases hsubtree : (n.val.gap key).subtree with
      | none => exact .inl (.of_subtree_none hn' hafter hsubtree)
      | some c =>
        have hc := NodeOf.tree_mem_of_gap hsubtree
        have hupper :
            (span.between (Entry.leaves (n.val.gap key).before)
              (Entry.leaves (n.val.gap key).after)).upper = some key := by
          obtain ⟨hbehind, rfl⟩ := Gap.mem_of_found? hfound
          rw [hbehind]
          rfl
        apply readableFrom_or_misses_of_gap hn hn' hafter hsubtree
        apply (hreadable.child hn hc).readableFrom_or_misses ((ht.checked hn).unresolved c hc)
          hremains hupper
        exact fun l =>
          lt_of_contains_gap (hholds.of_resolve hls hwhole hn) hls hwhole hfound hsubtree
  | @deeper t c n ns value? hn hfound hsubtree _ ih =>
    obtain ⟨address, _, haddress, hrest, rfl⟩ := List.forall₂_cons_left_iff.1 hcs
    have hn' := hlost.resolve hremains hn haddress List.mem_cons_self
    cases height with
    | zero => exact hholds.elim
    | succ layer =>
      have hafter := hreadable.allReadable_after hn hholds hhas hls hwhole ht hremains hlost
      have hc := NodeOf.tree_mem_of_gap hsubtree
      have hentries := NodeOf.entries_eq_of_gap hsubtree
      obtain ⟨bl, us, br, rfl, hchild⟩ :=
        (hholds.of_resolve hls hwhole hn).exists_child hhas hentries
      apply readableFrom_or_misses_of_gap hn hn' hafter hsubtree
      exact ih hrest (hreadable.child hn hc) hchild.holds hchild.has hls.right.left
        ((ht.checked hn).unresolved c hc) (hlost.child hn hentries)
  | @missed t n hn hfound hsubtree =>
    obtain ⟨address, _, haddress, -, rfl⟩ := List.forall₂_cons_left_iff.1 hcs
    have hn' := hlost.resolve hremains hn haddress List.mem_cons_self
    cases height with
    | zero => exact hholds.elim
    | succ layer =>
      have hafter := hreadable.allReadable_after hn hholds hhas hls hwhole ht hremains hlost
      exact .inl (.of_subtree_none hn' hafter hsubtree)

end Subtree

theorem Subtree.exists_of_seek_ok (hseek : (t.seek store config key rest).run = .ok p) :
    ∃ n, (t.resolve store config).run = .ok n ∧ ∀ c, (n.val.gap key).subtree = some c →
      (c.seek store config key ((n.val.gap key).after ++ rest)).run = .ok p := by
  rw [seek_eq] at hseek
  obtain ⟨n, hn, hseek⟩ := exists_of_run_bind_eq_ok hseek
  refine ⟨n, hn, fun c hc => ?_⟩
  rw [hc] at hseek
  exact hseek

theorem Listing.bounds_of_head? (h : Listing (bs ++ as)) (hhead : as.head?.map (·.key) = some key) :
    (∀ l ∈ bs, l.key < key) ∧ ∀ l ∈ as, key ≤ l.key := by
  cases as with
  | nil => cases hhead
  | cons k as =>
    cases hhead
    refine ⟨fun l hl => h.lt_of_append hl List.mem_cons_self, ?_⟩
    exact List.forall_mem_cons.2 ⟨le_rfl, fun l hl => (h.right.lt_of_cons hl).le⟩

theorem ChildParts.gap_eq {left right : List NodeEntry} {bl us br : List Leaf}
    (h : ChildParts archive layer left c right bl us br) (hbl : ∀ l ∈ bl, l.key < key)
    (hbr : ∀ l ∈ br, key ≤ l.key) :
    Gap.of key (left ++ .tree c :: right) = ⟨left, some c, right⟩ := by
  have hleft : ∀ l, .leaf l ∈ left → l.key < key :=
    fun l hl => hbl l (h.spells_left.leaf_mem_iff.1 hl).1
  have hright : ∀ e ∈ right.head?, ∃ l, e = .leaf l ∧ key ≤ l.key := by
    intro e he
    cases e with
    | tree => cases h.right_head _ he
    | leaf l => exact ⟨l, rfl, hbr l (h.spells_right.leaf_mem_iff.1 (List.mem_of_head? he)).1⟩
  rw [← Gap.of_eq hleft h.left_last hright, List.append_assoc]
  rfl

namespace Place

theorem In.not_lost_of_seek (h : place.In whole config outer)
    (houter : outer = ⟨Span.whole.between bs as, t⟩) (hholds : t.Holds archive height ls)
    (hhas : archive.Has height ls) (hls : Listing (bs ++ (ls ++ as)))
    (hwhole : archive.Agrees whole) (ht : t.Stored) (hremains : store.RemainsOf whole)
    (hupper : place.span.upper = some key) (hseek : (t.seek store config key rest).run = .ok p) :
    ¬place.Lost store config address := by
  induction h generalizing t height bs as ls rest with
  | here =>
    subst houter
    rintro ⟨haddress, hlacks⟩
    obtain ⟨n', hn', -⟩ := Subtree.exists_of_seek_ok hseek
    rw [ht.not_lacks hn' haddress] at hlacks
    cases hlacks
  | @deeper span u c left right n hn hentries h ih =>
    cases houter
    obtain ⟨n', hn', hbelow⟩ := Subtree.exists_of_seek_ok hseek
    cases Subtree.resolve_whole hremains hn hn'
    cases height with
    | zero => exact hholds.elim
    | succ layer =>
      obtain ⟨bl, us, br, rfl, hchild⟩ :=
        (hholds.of_resolve hls.right.left hwhole hn).exists_child hhas hentries
      have hmiddle : Listing (bs ++ bl ++ (us ++ (br ++ as))) := by simpa using hls
      have houter :
          (⟨(Span.whole.between bs as).between (Entry.leaves left) (Entry.leaves right),
            c⟩ : Place) = ⟨Span.whole.between (bs ++ bl) (br ++ as), c⟩ := by
        rw [hchild.span_eq]
      obtain ⟨_, bs', vs, as', rfl, hplace, -⟩ :=
        h.exists_leaves houter hchild.holds hchild.has hmiddle.right.left hwhole
      -- The key is that of the first leaf behind the place, so all that is left of it is smaller.
      have hbounds : (∀ l ∈ bs ++ bl ++ bs' ++ vs, l.key < key) ∧
          ∀ l ∈ as' ++ (br ++ as), key ≤ l.key := by
        apply Listing.bounds_of_head?
        · simpa using hls
        · rw [hplace] at hupper
          exact (Option.or_none ..).symm.trans hupper
      have hsubtree : (n.val.gap key).subtree = some c := by
        have hgap : Gap.of key (left ++ .tree c :: right) = ⟨left, some c, right⟩ :=
          hchild.gap_eq (fun l hl => hbounds.1 l (by simp [hl])) fun l hl =>
            hbounds.2 l (by simp [hl])
        rw [NodeOf.gap, hentries, hgap]
      have hc : .tree c ∈ n.val.entries := NodeOf.tree_mem_of_gap hsubtree
      exact ih houter hchild.holds hchild.has hmiddle ((ht.checked hn').unresolved c hc)
        (hbelow c hsubtree)

end Place

theorem Tree.Built.leavesFrom_of_lost {saved : Blockstore Id} {root : Cid}
    (h : tree.Built archive) (hcovers : archive.Covers tree)
    (hsave : (tree.save saved).run = .ok root) (hwhole : archive.Agrees whole)
    (hreadable : (Tree.load root config).Readable whole) (key : String) :
    ∃ ls nodes, ((Tree.load root config).leaves whole).run = .ok ls ∧
      ((Tree.load root config).path whole key).run = .ok (nodes ++ (Leaves.value? key ls).toList) ∧
      (Tree.load root config).leavesFrom whole key = (ls.filter (key ≤ ·.key), .ok ()) ∧
      ∀ store : Blockstore Id, store.RemainsOf whole →
        Place.LostAside store whole config key nodes ⟨.whole, (Tree.load root config).root⟩ →
        ((∀ (place : Place) (address : Cid),
          place.In whole config ⟨.whole, (Tree.load root config).root⟩ →
            place.span.upper = some key → ¬place.Lost store config address) ∧
          (Tree.load root config).leavesFrom store key = (ls.filter (key ≤ ·.key), .ok ())) ∨
        ∃ (place : Place) (address : Cid),
          place.In whole config ⟨.whole, (Tree.load root config).root⟩ ∧
          place.span.upper = some key ∧ place.Lost store config address ∧
          (Tree.load root config).leavesFrom store key = ([], .error (.missingBlock address)) := by
  obtain ⟨ls, hls⟩ := (h.load hcovers hsave).holds
  obtain ⟨layer, -, hroot⟩ := hls.root
  have hhas : archive.Has (layer + 1) ls := hroot.2.1
  have ht : (Tree.load root config).root.Stored := ⟨_, _, rfl⟩
  obtain ⟨ns, value?, hway⟩ := hreadable.exists_way key
  obtain ⟨nodes, hnodes⟩ := hway.exists_addresses ht
  have hvalue : value? = Leaves.value? key ls := (hroot.get? hls.listing hwhole).of_ok hway.get?_run
  refine ⟨ls, nodes, hls.leaves_run hwhole hreadable, ?_,
    hls.leavesFrom hwhole (hreadable.readableFrom key), ?_⟩
  · rw [← hvalue]
    exact hway.path_run hnodes
  · intro store hremains hlost
    rcases hway.readableFrom_or_misses hnodes hreadable hroot hhas hls.listing hwhole ht hremains
      hlost with
      hfrom | ⟨place, address, hplace, hplaceLost, hupper, hseek⟩
    · have hstore := hremains.agrees hwhole
      refine .inl ⟨fun place address hplace hupper => ?_, hls.leavesFrom hstore hfrom⟩
      obtain ⟨es, hseek, -⟩ := hroot.seek_of_readableFrom hls.listing hstore hfrom []
      have houter : (⟨.whole, (Tree.load root config).root⟩ : Place) =
          ⟨Span.whole.between [] [], (Tree.load root config).root⟩ := rfl
      have hlisting : Listing ([] ++ (ls ++ [])) := by simpa using hls.listing
      exact hplace.not_lost_of_seek houter hroot hhas hlisting hwhole ht hremains hupper hseek
    · exact .inr ⟨place, address, hplace, hupper, hplaceLost, leavesFrom_of_seek_error (hseek [])⟩

end

namespace Sample

/-!
The store that has lost the lower node of the stored tree, which stands next to the left of the
upper key.
-/

section

variable {store whole : Blockstore Id} {number : Nat} {node : Node} {key : String} (ls : List Leaf)
variable (hnode : ∃ covers, ((Tree.load (pointer number) config).root.resolve whole config).run =
    .ok ⟨node, covers⟩)
variable (hentries : node.entries = .tree lowPlace.subtree :: ls.map .leaf)
variable (hls : ls.head?.map (·.key) = some high.key)
variable (hlow : ∃ covers, (lowPlace.subtree.resolve whole config).run =
    .ok ⟨storedLowNode, covers⟩)
include hnode hentries hls hlow

theorem eq_of_in {place : Place}
    (h : place.In whole config ⟨.whole, (Tree.load (pointer number) config).root⟩) :
    place = ⟨.whole, (Tree.load (pointer number) config).root⟩ ∨ place = lowPlace := by
  obtain ⟨_, hnode⟩ := hnode
  obtain ⟨_, hlow⟩ := hlow
  have hnone : ∀ (span : Span) (ls : List Leaf), ¬place.Among whole config span (ls.map .leaf) := by
    rintro span ls ⟨left, c, right, heq, -⟩
    have hmem : .tree c ∈ ls.map Entry.leaf := by simp [heq]
    simp at hmem
  refine ((Place.in_iff hnode).1 h).imp id fun habove => ?_
  have habove : place.Among whole config .whole ([.tree lowPlace.subtree] ++ ls.map .leaf) := by
    rwa [show [.tree lowPlace.subtree] ++ ls.map .leaf = node.entries from hentries.symm]
  have hbelow := Place.among_singleton.1 (habove.of_append.resolve_right (hnone _ _))
  have hleaves : Entry.leaves (ls.map .leaf : List NodeEntry) = ls := by
    unfold Entry.leaves
    rw [List.filterMap_map]
    exact List.filterMap_some
  have hspan : Span.whole.between [] (Entry.leaves (ls.map .leaf : List NodeEntry)) =
      lowPlace.span := by
    rw [hleaves]
    unfold Span.between
    rw [hls]
    rfl
  rw [hspan] at hbelow
  exact ((Place.in_iff hlow).1 hbelow).resolve_right (hnone _ [low])

theorem lostAside (hne : pointer 1 ≠ pointer number) (hkept : store.lacks (pointer number) = false)
    (hkey : low.key < key) : Place.LostAside store whole config key [pointer number]
      ⟨.whole, (Tree.load (pointer number) config).root⟩ := by
  rintro place address hplace ⟨haddress, hlacks⟩
  rcases eq_of_in ls hnode hentries hls hlow hplace with rfl | rfl
  · cases haddress
    cases hkept.symm.trans hlacks
  · cases haddress
    refine ⟨by simpa using hne, fun l hl => ?_⟩
    obtain ⟨_, hlow⟩ := hlow
    rcases (Subtree.contains_iff hlow).1 hl with hmem | ⟨c, hc, -⟩
    · cases List.mem_singleton.1 hmem
      exact hkey
    · cases List.mem_singleton.1 hc

end

theorem lostAside_upperShelf :
    Place.LostAside (.snapshot upperShelf) (.snapshot shelf) config high.key [pointer 2]
      ⟨.whole, (Tree.load (pointer 2) config).root⟩ :=
  lostAside [high] exists_resolve_high_shelf rfl rfl exists_resolve_low_shelf (by decide) (by cbv)
    (by decide)

theorem leavesFrom_high_shelf :
    (Tree.load (pointer 2) config).leavesFrom (.snapshot shelf) high.key = ([high], .ok ()) := by
  obtain ⟨ls, hls⟩ := built_load.holds
  cases (hls.leaves_run agrees_shelf readable_shelf).symm.trans leaves_shelf
  exact hls.leavesFrom agrees_shelf (Subtree.Readable.readableFrom readable_shelf high.key)

theorem leavesFrom_high_upperShelf :
    (Tree.load (pointer 2) config).leavesFrom (.snapshot upperShelf) high.key =
      ([], .error (.missingBlock (pointer 1))) := by
  have hget : upperShelf[pointer 2]? = some [0, 0] := Std.TreeMap.getElem?_insert_self
  obtain ⟨covers, hn⟩ := exists_resolve_high (Blockstore.run_get?_snapshot_eq hget)
  have hgap : storedHighNode.gap high.key =
      ⟨[], some (.unresolved (pointer 1) (.layer 0)), [.leaf high]⟩ := by
    rfl
  have hlost :
      ((Subtree.unresolved (pointer 1) (.layer 0)).resolve (.snapshot upperShelf) config).run =
        .error (.missingBlock (pointer 1)) :=
    Subtree.resolve_of_lacks (by decide) (by cbv)
  have hseek :
      ((Tree.load (pointer 2) config).root.seek (.snapshot upperShelf) config high.key []).run =
        .error (.missingBlock (pointer 1)) := by
    rw [Subtree.seek_eq, show (Tree.load (pointer 2) config).root.resolve (.snapshot upperShelf)
      config = pure _ from hn, pure_bind, hgap]
    dsimp only
    rw [Subtree.seek_eq, show Subtree.resolve (.snapshot upperShelf) config _ = throw _ from hlost]
    rfl
  exact Tree.leavesFrom_of_seek_error hseek

/--
The walk from the upper key on fetches the lower node, which is not on the way to that key and has a
smaller key only.
-/
theorem fetched_aside :
    (tree.Built archive ∧ archive.Covers tree ∧ (tree.save .empty).run = .ok (pointer 2)) ∧
    (archive.Agrees (.snapshot shelf) ∧ (Tree.load (pointer 2) config).Readable (.snapshot shelf) ∧
      (Blockstore.snapshot upperShelf).RemainsOf (.snapshot shelf)) ∧
    ((Tree.load (pointer 2) config).path (.snapshot shelf) high.key).run =
      .ok ([pointer 2] ++ [high.value]) ∧
    Place.LostAside (.snapshot upperShelf) (.snapshot shelf) config high.key [pointer 2]
      ⟨.whole, (Tree.load (pointer 2) config).root⟩ ∧
    (Tree.load (pointer 2) config).leavesFrom (.snapshot shelf) high.key = ([high], .ok ()) ∧
    (Tree.load (pointer 2) config).leavesFrom (.snapshot upperShelf) high.key =
      ([], .error (.missingBlock (pointer 1))) := by
  exact ⟨⟨built, covers, save_tree⟩, ⟨agrees_shelf, readable_shelf, remains_upperShelf⟩,
    path_high_load, lostAside_upperShelf, leavesFrom_high_shelf, leavesFrom_high_upperShelf⟩

/-!
The revised tree as it is saved, in a store that has lost the lower node. Of the two upper leaves,
one is behind that node and before the key, the other behind both.
-/

def revisedUpperShelf : BlockMap := ({} : BlockMap).insert (pointer 3) [0, 0, 0]

def revisedShelf : BlockMap := revisedUpperShelf.insert (pointer 1) [0]

theorem save_revised : (revised.save .empty).run = .ok (pointer 3) := by cbv

theorem agrees_revisedShelf : archive.Agrees (.snapshot revisedShelf) := by
  apply Archive.agrees_of_blocks
  intro address bytes hget
  apply archive_blocks _ hget
  intro bytes h
  simp only [revisedShelf, revisedUpperShelf, Std.TreeMap.getElem?_insert] at h
  split_ifs at h <;> simp_all

theorem remains_revisedUpperShelf :
    (Blockstore.snapshot revisedUpperShelf).RemainsOf (.snapshot revisedShelf) :=
  Blockstore.remainsOf_insert (by cbv)

def storedRevisedNode : Node := { revisedNode with address := some (pointer 3) }

theorem exists_resolve_revised :
    ∃ covers, ((Tree.load (pointer 3) config).root.resolve (.snapshot revisedShelf) config).run =
      .ok ⟨storedRevisedNode, covers⟩ := by
  have hget : revisedShelf[pointer 3]? = some [0, 0, 0] := by cbv
  have hstored : NodeOf.ofStored config (pointer 3) (.ofLayer? none) (known[3]) =
      .ok storedRevisedNode := by
    cbv
  exact Subtree.exists_resolve_unresolved (by decide) (Blockstore.run_get?_snapshot_eq hget) rfl rfl
    hstored

theorem get?_low_revisedShelf : revisedShelf[pointer 1]? = some [0] := by cbv

theorem exists_resolve_low_revisedShelf :
    ∃ covers, (lowPlace.subtree.resolve (.snapshot revisedShelf) config).run =
      .ok ⟨storedLowNode, covers⟩ :=
  exists_resolve_low (Blockstore.run_get?_snapshot_eq get?_low_revisedShelf)

theorem readable_revisedShelf :
    (Tree.load (pointer 3) config).Readable (.snapshot revisedShelf) := by
  obtain ⟨_, hrevised⟩ := exists_resolve_revised
  exact readable_of_subtrees hrevised rfl (Blockstore.run_get?_snapshot_eq get?_low_revisedShelf)

theorem eq_of_in_revised {place : Place}
    (h : place.In (.snapshot revisedShelf) config ⟨.whole, (Tree.load (pointer 3) config).root⟩) :
    place = ⟨.whole, (Tree.load (pointer 3) config).root⟩ ∨ place = lowPlace :=
  eq_of_in [newer, last] exists_resolve_revised rfl rfl exists_resolve_low_revisedShelf h

theorem lostAside_revisedUpperShelf :
    Place.LostAside (.snapshot revisedUpperShelf) (.snapshot revisedShelf) config "a/d" [pointer 3]
      ⟨.whole, (Tree.load (pointer 3) config).root⟩ :=
  lostAside [newer, last] exists_resolve_revised rfl rfl exists_resolve_low_revisedShelf (by decide)
    (by cbv) (by decide)

theorem leaves_revisedShelf :
    ((Tree.load (pointer 3) config).leaves (.snapshot revisedShelf)).run =
      .ok [low, newer, last] := by
  obtain ⟨_, hrevised⟩ := exists_resolve_revised
  obtain ⟨_, hlow⟩ := exists_resolve_low_revisedShelf
  exact Tree.run_leaves_eq_ok_iff.2
    ⟨_, .of_resolve hrevised (.tree hlow (.leaf (.leaf (.leaf .nil)))), rfl⟩

theorem path_revisedShelf :
    ((Tree.load (pointer 3) config).path (.snapshot revisedShelf) "a/d").run =
      .ok ([pointer 3] ++ []) := by
  obtain ⟨_, hrevised⟩ := exists_resolve_revised
  have hgap : storedRevisedNode.gap "a/d" =
      ⟨[.tree lowPlace.subtree, .leaf newer], none, [.leaf last]⟩ := by
    rfl
  exact (Subtree.Way.missed hrevised (by rw [hgap]; rfl) (by rw [hgap])).path_run (.cons rfl .nil)

end Sample

theorem Tree.Built.leavesFrom_of_lost_of_revised :
    (Tree.load (Sample.pointer 3) Sample.config).leavesFrom (.snapshot Sample.revisedUpperShelf)
      "a/d" = ([Sample.last], .ok ()) := by
  obtain ⟨ls, nodes, hleaves, hpath, -, hlost⟩ :=
    leavesFrom_of_lost Sample.built_revised Sample.covers_revised Sample.save_revised
      Sample.agrees_revisedShelf Sample.readable_revisedShelf "a/d"
  cases hleaves.symm.trans Sample.leaves_revisedShelf
  have hnodes : nodes = [Sample.pointer 3] :=
    List.append_cancel_right (Except.ok.inj (hpath.symm.trans Sample.path_revisedShelf))
  rw [hnodes] at hlost
  rcases hlost _ Sample.remains_revisedUpperShelf Sample.lostAside_revisedUpperShelf with
    ⟨-, hfrom⟩ | ⟨place, _, hplace, hupper, -⟩
  · exact hfrom
  · rcases Sample.eq_of_in_revised hplace with rfl | rfl
    · cases hupper
    · exact absurd hupper (by decide)

end MerkleSearch
