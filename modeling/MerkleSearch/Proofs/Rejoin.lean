import MerkleSearch.Proofs.Shape

/-!
This module contains how far splitting and merging undo each other. What comes back is not the same
subtree, but one whose nodes on the way to the key have been made anew. The main statements are that
the parts of a split can be merged, `Subtree.Cut.exists_rejoins`, and that what has been merged can
be split, `Subtree.Shaped.exists_merged`.
-/

namespace MerkleSearch

namespace Subtree

variable {config : Config} {store : Blockstore Id} {layer height : Nat}
variable {ls ls' rs bs ss as : List Leaf} {key : String} {t left right : Subtree}
variable {es es' : List NodeEntry} {a b part : Option Subtree} {layer? k? : Option Nat}

theorem ofEntries?_of_ne_nil (hes : es ≠ []) (layer? : Option Nat) :
    ofEntries? es layer? = some (.resolved { entries := es, layer := layer? }) := by
  rw [ofEntries?, List.isEmpty_eq_false_iff.2 hes]
  rfl

theorem ofEntries?_of_spells
    (h : Spells config (Shaped store config height) height
      (Entry.ofTree? (ofEntries? es layer?)) ls)
    (hne : ls ≠ []) :
    ofEntries? es layer? = some (.resolved { entries := es, layer := layer? }) := by
  apply ofEntries?_of_ne_nil
  rintro rfl
  exact hne h.of_nil

theorem Shaped.layerOf_resolved {node : Node}
    (h : (resolved node).Shaped store config (layer + 1) ls) (hne : ls ≠ []) :
    (resolved node).layerOf store config node (covers_resolved node) = pure layer :=
  h.layerOf_eq hne (n := ⟨node, covers_resolved node⟩) rfl

/--
What two parts next to each other come to when they are put together, either of which may be
missing.
-/
inductive Rejoins (store : Blockstore Id) (config : Config) :
    Option Subtree → Option Subtree → Option Subtree → Prop
  | neither : Rejoins store config none none none
  | left (t : Subtree) : Rejoins store config (some t) none (some t)
  | right (t : Subtree) : Rejoins store config none (some t) (some t)
  | both {left right : Subtree} {node : Node} (h : left.merge store config right = pure node) :
    Rejoins store config (some left) (some right) (some (.resolved node))

namespace Rejoins

theorem eq_left (h : Rejoins store config a none part) : part = a := by
  cases h <;> rfl

theorem eq_right (h : Rejoins store config none b part) : part = b := by
  cases h <;> rfl

theorem merge_eq (h : Rejoins store config a b part) {l : { node : Node // left.Covers node }}
    {r : { node : Node // right.Covers node }} (hl : (left.resolve store config).run = .ok l)
    (hr : (right.resolve store config).run = .ok r)
    (hleft : left.layerOf store config l.val l.property = pure layer)
    (hright : right.layerOf store config r.val r.property = pure layer)
    (hes : l.val.entries = es ++ Entry.ofTree? a) (hes' : r.val.entries = Entry.ofTree? b ++ es')
    (hlast : ∀ e ∈ es.getLast?, e.isTree = false) (hhead : ∀ e ∈ es'.head?, e.isTree = false) :
    left.merge store config right =
      pure { entries := es ++ Entry.ofTree? part ++ es', layer := some layer } := by
  have hl : left.resolve store config = pure l := hl
  have hr : right.resolve store config = pure r := hr
  rw [Subtree.merge_eq, hl, pure_bind, hr, pure_bind, hleft, pure_bind, hright, pure_bind,
    if_neg (not_not_intro rfl), hes, hes']
  -- Two subtrees meet if there is one on both sides, but not otherwise.
  cases h with
  | neither =>
    simp only [Entry.ofTree?_none, List.append_nil, List.nil_append]
    split
    · next hlast' => cases hlast _ hlast'
    · rfl
  | left t =>
    simp only [Entry.ofTree?_none, List.nil_append]
    split
    · cases hhead _ rfl
    · rfl
  | right t =>
    simp only [Entry.ofTree?_none, List.append_nil]
    split
    · next hlast' _ => cases hlast _ hlast'
    · rw [List.append_assoc]
  | @both x y node h =>
    have hx : (es ++ [Entry.tree x]).getLast? = some (.tree x) := List.getLast?_concat
    simp only [Entry.ofTree?_some, List.singleton_append, List.append_assoc, hx, h, pure_bind,
      List.dropLast_concat]

theorem ofEntries? (h : Rejoins store config a b part)
    (hleft : Spells config (Shaped store config (layer + 1)) (layer + 1)
      (Entry.ofTree? (Subtree.ofEntries? (es ++ Entry.ofTree? a) layer?)) ls)
    (hright : Spells config (Shaped store config (layer + 1)) (layer + 1)
      (Entry.ofTree? (Subtree.ofEntries? (Entry.ofTree? b ++ es') layer?)) rs)
    (hne : ls ++ rs ≠ []) (hlast : ∀ e ∈ es.getLast?, e.isTree = false)
    (hhead : ∀ e ∈ es'.head?, e.isTree = false) :
    ∃ k?, (k? = layer? ∨ k? = some layer) ∧
      Rejoins store config (Subtree.ofEntries? (es ++ Entry.ofTree? a) layer?)
        (Subtree.ofEntries? (Entry.ofTree? b ++ es') layer?)
        (some (.resolved { entries := es ++ Entry.ofTree? part ++ es', layer := k? })) := by
  by_cases hes : es ++ Entry.ofTree? a = [] <;> by_cases hes' : Entry.ofTree? b ++ es' = []
  · rw [hes] at hleft
    rw [hes'] at hright
    rw [hleft.of_nil, hright.of_nil] at hne
    exact (hne rfl).elim
  · obtain ⟨rfl, ha⟩ := List.append_eq_nil_iff.1 hes
    cases Entry.ofTree?_eq_nil.1 ha
    cases h.eq_right
    rw [ofEntries?_of_ne_nil hes']
    exact ⟨layer?, .inl rfl, .right _⟩
  · obtain ⟨hb, rfl⟩ := List.append_eq_nil_iff.1 hes'
    cases Entry.ofTree?_eq_nil.1 hb
    cases h.eq_left
    rw [ofEntries?_of_ne_nil hes, List.append_nil (es ++ Entry.ofTree? a)]
    exact ⟨layer?, .inl rfl, .left _⟩
  · rw [ofEntries?_of_ne_nil hes] at hleft ⊢
    rw [ofEntries?_of_ne_nil hes'] at hright ⊢
    obtain ⟨hl, hlne, -⟩ := hleft.of_singleton
    obtain ⟨hr, hrne, -⟩ := hright.of_singleton
    refine ⟨some layer, .inr rfl, .both ?_⟩
    exact h.merge_eq rfl rfl (hl.layerOf_resolved hlne) (hr.layerOf_resolved hrne) rfl rfl
      hlast hhead

end Rejoins

/--
The same subtree, but each node on the way to the place of the key has been read and put together
anew, so that its layer may be known by now, and its address is not.
-/
inductive Remade (store : Blockstore Id) (config : Config) (key : String) : Subtree → Subtree → Prop
  | last {t : Subtree} {n : { node : Node // t.Covers node }} {node : Node}
    (hn : (t.resolve store config).run = .ok n) (hsubtree : (n.val.gap key).subtree = none)
    (hentries : node.entries = n.val.entries) (haddress : node.address = none)
    (hlayer : ∀ k, n.val.layer = some k → node.layer = some k) :
    Remade store config key t (.resolved node)
  | through {t c c' : Subtree} {n : { node : Node // t.Covers node }} {node : Node}
    (hn : (t.resolve store config).run = .ok n) (hsubtree : (n.val.gap key).subtree = some c)
    (hentries : node.entries = (n.val.gap key).fill [.tree c']) (haddress : node.address = none)
    (hlayer : ∀ k, n.val.layer = some k → node.layer = some k) (h : Remade store config key c c') :
    Remade store config key t (.resolved node)

namespace Remade

variable {n : { node : Node // t.Covers node }}

theorem of_fill (hn : (t.resolve store config).run = .ok n)
    (hpart : Option.Rel (Remade store config key) (n.val.gap key).subtree part)
    (hlayer : ∀ k, n.val.layer = some k → k? = some k) :
    Remade store config key t
      (.resolved { entries := (n.val.gap key).fill (Entry.ofTree? part), layer := k? }) := by
  cases hsubtree : (n.val.gap key).subtree with
  | none =>
    rw [hsubtree] at hpart
    cases hpart
    apply Remade.last hn hsubtree _ rfl hlayer
    rw [← n.val.fill_gap key, hsubtree]
  | some c =>
    rw [hsubtree] at hpart
    cases hpart with
    | some h => exact .through hn hsubtree rfl rfl hlayer h

theorem exists_of_gap (hn : (t.resolve store config).run = .ok n)
    (hnode : n.val.Shaped config (Shaped store config layer) layer ls)
    (parts : (n.val.gap key).Parts config (Shaped store config layer) layer key bs ss as)
    (hrejoins : Rejoins store config a b part)
    (hpart : Option.Rel (Remade store config key) (n.val.gap key).subtree part)
    (hleft : Spells config (Shaped store config (layer + 1)) (layer + 1)
      (Entry.ofTree? (ofEntries? ((n.val.gap key).before ++ Entry.ofTree? a) n.val.layer)) ls')
    (hright : Spells config (Shaped store config (layer + 1)) (layer + 1)
      (Entry.ofTree? (ofEntries? (Entry.ofTree? b ++ (n.val.gap key).after) n.val.layer)) rs)
    (hne : ls' ++ rs ≠ []) :
    ∃ t', Rejoins store config (ofEntries? ((n.val.gap key).before ++ Entry.ofTree? a) n.val.layer)
        (ofEntries? (Entry.ofTree? b ++ (n.val.gap key).after) n.val.layer) (some t') ∧
      Remade store config key t t' := by
  obtain ⟨k?, hk?, h⟩ := hrejoins.ofEntries? hleft hright hne parts.before_last parts.after_head
  exact ⟨_, h, .of_fill hn hpart (hnode.layer_filled hk?)⟩

end Remade

namespace Cut

theorem exists_rejoins (h : t.Cut store config key a b) (hshaped : t.Shaped store config height ls)
    (hls : ls.Pairwise (·.key < ·.key)) (hkey : ∀ l ∈ ls, l.key ≠ key) (hne : ls ≠ []) :
    ∃ t', Rejoins store config a b (some t') ∧ Remade store config key t t' := by
  induction h generalizing height ls with
  | @between t n hn hsubtree =>
    obtain ⟨ha, hb⟩ := (Cut.between hn hsubtree).spells hshaped hls hkey
    cases height with
    | zero => exact hshaped.elim
    | succ layer =>
      have hnode := hshaped.of_resolve hn
      obtain ⟨bs, ss, as, -, parts⟩ := hnode.exists_parts hls key
      have hpart : Option.Rel (Remade store config key) (n.val.gap key).subtree none := by
        rw [hsubtree]
        exact .none
      rw [← Leaves.before_append_after hls hkey] at hne
      rw [← List.append_nil (n.val.gap key).before] at ha ⊢
      exact Remade.exists_of_gap hn hnode parts .neither hpart ha hb hne
  | @through t c n a b hn hsubtree hcut ih =>
    obtain ⟨ha, hb⟩ := (Cut.through hn hsubtree hcut).spells hshaped hls hkey
    cases height with
    | zero => exact hshaped.elim
    | succ layer =>
      have hnode := hshaped.of_resolve hn
      obtain ⟨bs, ss, as, hparts, parts⟩ := hnode.exists_parts hls key
      obtain ⟨hc, hcne, -⟩ := parts.of_subtree_some hsubtree
      have hss : ∀ l ∈ ss, l.key ≠ key := fun l hl => hkey l (by simp [hparts, hl])
      rw [← Leaves.before_append_after hls hkey] at hne
      rw [hparts, List.pairwise_append, List.pairwise_append] at hls
      obtain ⟨c', hrejoins, hremade⟩ := ih hc hls.1.2.1 hss hcne
      have hpart : Option.Rel (Remade store config key) (n.val.gap key).subtree (some c') := by
        rw [hsubtree]
        exact .some hremade
      exact Remade.exists_of_gap hn hnode parts hrejoins hpart ha hb hne

theorem spells_append (h : t.Cut store config key a b)
    (hshaped : t.Shaped store config height (ls ++ rs)) (hls : ls.Pairwise (·.key < ·.key))
    (hrs : rs.Pairwise (·.key < ·.key)) (hlt : ∀ l ∈ ls, l.key < key)
    (hgt : ∀ l ∈ rs, key < l.key) :
    Spells config (Shaped store config height) height (Entry.ofTree? a) ls ∧
      Spells config (Shaped store config height) height (Entry.ofTree? b) rs := by
  have hsorted : (ls ++ rs).Pairwise (·.key < ·.key) :=
    List.pairwise_append.2 ⟨hls, hrs, fun x hx y hy => (hlt x hx).trans (hgt y hy)⟩
  have hkey : ∀ l ∈ ls ++ rs, l.key ≠ key :=
    List.forall_mem_append.2 ⟨fun l hl => (hlt l hl).ne, fun l hl => (hgt l hl).ne'⟩
  have hspells := h.spells hshaped hsorted hkey
  rwa [Leaves.before_append, Leaves.before_of_lt hlt, Leaves.before_of_le fun l hl =>
    (hgt l hl).le, List.append_nil, Leaves.after_append, Leaves.after_of_lt hgt,
    Leaves.after_of_le fun l hl => (hlt l hl).le, List.nil_append] at hspells

theorem exists_of_lt (h : t.Shaped store config height ls) (hls : ls.Pairwise (·.key < ·.key))
    (hne : ls ≠ []) (hlt : ∀ l ∈ ls, l.key < key) :
    ∃ t', t.Cut store config key (some t') none ∧ Remade store config key t t' := by
  obtain ⟨a, b, hcut⟩ := h.exists_cut key
  have hkey : ∀ l ∈ ls, l.key ≠ key := fun l hl => (hlt l hl).ne
  obtain ⟨-, hb⟩ := hcut.spells h hls hkey
  obtain ⟨t', hrejoins, hremade⟩ := hcut.exists_rejoins h hls hkey hne
  rw [Leaves.after_of_le fun l hl => (hlt l hl).le] at hb
  cases Entry.ofTree?_eq_nil.1 (hb.eq_nil_iff.2 rfl)
  cases hrejoins.eq_left
  exact ⟨t', hcut, hremade⟩

theorem exists_of_gt (h : t.Shaped store config height ls) (hls : ls.Pairwise (·.key < ·.key))
    (hne : ls ≠ []) (hgt : ∀ l ∈ ls, key < l.key) :
    ∃ t', t.Cut store config key none (some t') ∧ Remade store config key t t' := by
  obtain ⟨a, b, hcut⟩ := h.exists_cut key
  have hkey : ∀ l ∈ ls, l.key ≠ key := fun l hl => (hgt l hl).ne'
  obtain ⟨ha, -⟩ := hcut.spells h hls hkey
  obtain ⟨t', hrejoins, hremade⟩ := hcut.exists_rejoins h hls hkey hne
  rw [Leaves.before_of_le fun l hl => (hgt l hl).le] at ha
  cases Entry.ofTree?_eq_nil.1 (ha.eq_nil_iff.2 rfl)
  cases hrejoins.eq_right
  exact ⟨t', hcut, hremade⟩

end Cut

inductive Parted (store : Blockstore Id) (config : Config) (key : String) :
    Option Subtree → Option Subtree → Option Subtree → Prop
  | none : Parted store config key none none none
  | some {t : Subtree} {a b : Option Subtree} (h : t.Cut store config key a b) :
    Parted store config key (some t) a b

theorem Parted.cut {before after : List NodeEntry} (h : Parted store config key part a b)
    (hgap : Gap.of key es = ⟨before, part, after⟩) (layer? : Option Nat) :
    (resolved { entries := es, layer := layer? }).Cut store config key
      (ofEntries? (before ++ Entry.ofTree? a) layer?)
      (ofEntries? (Entry.ofTree? b ++ after) layer?) := by
  have hbefore : (Gap.of key es).before = before := by rw [hgap]
  have hafter : (Gap.of key es).after = after := by rw [hgap]
  have hsubtree : (Gap.of key es).subtree = part := by rw [hgap]
  rw [← hbefore, ← hafter]
  cases h with
  | none =>
    rw [Entry.ofTree?_none, List.append_nil]
    exact .between (n := ⟨{ entries := es, layer := layer? }, covers_resolved _⟩) rfl hsubtree
  | some h =>
    exact .through (n := ⟨{ entries := es, layer := layer? }, covers_resolved _⟩) rfl hsubtree h

structure Merged (store : Blockstore Id) (config : Config) (key : String) (height : Nat)
    (ls rs : List Leaf) (left right : Subtree) (node : Node) : Prop where
  merge_eq : left.merge store config right = pure node
  shaped : (resolved node).Shaped store config height (ls ++ rs)
  cut : ∃ left' right', (resolved node).Cut store config key (some left') (some right') ∧
    Remade store config key left left' ∧ Remade store config key right right'

structure Joint (store : Blockstore Id) (config : Config) (key : String) (layer : Nat)
    (ls rs : List Leaf) (left right joint : Option Subtree) : Prop where
  rejoins : Rejoins store config left right joint
  spells : Spells config (Shaped store config layer) layer (Entry.ofTree? joint) (ls ++ rs)
  parted : ∃ left' right', Parted store config key joint left' right' ∧
    Option.Rel (Remade store config key) left left' ∧
      Option.Rel (Remade store config key) right right'

theorem exists_joint
    (hmerged : ∀ t u, t.Shaped store config layer ls → u.Shaped store config layer rs → ls ≠ [] →
      rs ≠ [] → ∃ node, Merged store config key layer ls rs t u node)
    (hleft : Spells config (Shaped store config layer) layer (Entry.ofTree? a) ls)
    (hright : Spells config (Shaped store config layer) layer (Entry.ofTree? b) rs)
    (hls : ls.Pairwise (·.key < ·.key)) (hrs : rs.Pairwise (·.key < ·.key))
    (hlt : ∀ l ∈ ls, l.key < key) (hgt : ∀ l ∈ rs, key < l.key) :
    ∃ joint, Joint store config key layer ls rs a b joint := by
  cases a with
  | none =>
    cases hleft.of_nil
    cases b with
    | none =>
      cases hright.of_nil
      exact ⟨none, .neither, .nil, none, none, .none, .none, .none⟩
    | some u =>
      obtain ⟨hu, hne, -⟩ := hright.of_singleton
      obtain ⟨u', hcut, hremade⟩ := Cut.exists_of_gt hu hrs hne hgt
      exact ⟨some u, .right u, hright, none, some u', .some hcut, .none, .some hremade⟩
  | some t =>
    obtain ⟨ht, htne, htlow⟩ := hleft.of_singleton
    cases b with
    | none =>
      cases hright.of_nil
      rw [← List.append_nil ls] at hleft
      obtain ⟨t', hcut, hremade⟩ := Cut.exists_of_lt ht hls htne hlt
      exact ⟨some t, .left t, hleft, some t', none, .some hcut, .some hremade, .none⟩
    | some u =>
      obtain ⟨hu, hune, hulow⟩ := hright.of_singleton
      obtain ⟨node, hmerge, hshaped, t', u', hcut, ht', hu'⟩ := hmerged t u ht hu htne hune
      refine ⟨some (.resolved node), .both hmerge, ?_, some t', some u', .some hcut, .some ht',
        .some hu'⟩
      apply Spells.singleton hshaped (List.append_ne_nil_of_left_ne_nil htne rs)
      exact List.forall_mem_append.2 ⟨htlow, hulow⟩

theorem Shaped.exists_merged (hleft : left.Shaped store config height ls)
    (hright : right.Shaped store config height rs) (hlne : ls ≠ []) (hrne : rs ≠ [])
    (hls : ls.Pairwise (·.key < ·.key)) (hrs : rs.Pairwise (·.key < ·.key))
    (hlt : ∀ l ∈ ls, l.key < key) (hgt : ∀ l ∈ rs, key < l.key) :
    ∃ node, Merged store config key height ls rs left right node := by
  induction height generalizing left right ls rs with
  | zero => exact hleft.elim
  | succ layer ih =>
    have hl := hleft
    have hr := hright
    obtain ⟨l, hln, hlnode⟩ := hl
    obtain ⟨r, hrn, hrnode⟩ := hr
    obtain ⟨bs, ss, rfl, parts, hfill⟩ := hlnode.exists_parts_of_lt hls hlt
    obtain ⟨ts, as, rfl, parts', hfill'⟩ := hrnode.exists_parts_of_gt hrs hgt
    have hss := (List.pairwise_append.1 hls).2.1
    have hts := (List.pairwise_append.1 hrs).1
    have hsslt : ∀ l ∈ ss, l.key < key := fun l hl => hlt l (List.mem_append_right bs hl)
    have htsgt : ∀ l ∈ ts, key < l.key := fun l hl => hgt l (List.mem_append_left as hl)
    obtain ⟨joint, hrejoins, hspells, a, b, hparted, ha, hb⟩ := exists_joint
      (fun _ _ ht hu htne hune => ih ht hu htne hune hss hts hsslt htsgt) parts.subtree
        parts'.subtree hss hts hsslt htsgt
    have hmerge :=
      hrejoins.merge_eq hln hrn (hleft.layerOf_eq hlne hln) (hright.layerOf_eq hrne hrn)
      ((l.val.fill_gap key).symm.trans (hfill _)) ((r.val.fill_gap key).symm.trans (hfill' _))
      parts.before_last parts'.after_head
    have hshaped := (hlnode.join hrnode parts parts' hspells).resolved
    have hmiddle : bs ++ (ss ++ ts) ++ as = bs ++ ss ++ (ts ++ as) := by
      simp only [List.append_assoc]
    rw [hmiddle] at hshaped
    refine ⟨_, hmerge, hshaped, ?_⟩
    have hcut := hparted.cut (parts.of_fill parts' joint) (some layer)
    obtain ⟨hbelow, habove⟩ := hcut.spells_append hshaped hls hrs hlt hgt
    rw [ofEntries?_of_spells hbelow hlne, ofEntries?_of_spells habove hrne] at hcut
    refine ⟨_, _, hcut, ?_, ?_⟩
    · rw [← hfill]
      exact .of_fill hln ha (hlnode.layer_filled (.inr rfl))
    · rw [← hfill']
      exact .of_fill hrn hb (hrnode.layer_filled (.inr rfl))

end Subtree

end MerkleSearch
