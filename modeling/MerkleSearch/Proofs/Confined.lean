import MerkleSearch.Proofs.Get
import MerkleSearch.Proofs.Reach
import MerkleSearch.Proofs.Reads
import MerkleSearch.Proofs.Table
import MerkleSearch.Proofs.Walk

/-!
This module contains what is read of stored trees that nobody vouches for. Each node is checked when
it is fetched, but only by itself: that the keys of a subtree belong into the gap that it stands in
is checked nowhere. The main statement is that a look-up and a walk agree on a tree if and only if
its subtrees keep to their gaps.
-/

namespace MerkleSearch

variable {config : Config} {store : Blockstore Id} {address : Cid} {hint : Hint}
variable {record : NodeRecord} {node : Node} {key : String} {es us vs : List NodeEntry}
variable {t : Subtree}

namespace NodeRecord

theorem leaves_subtree (address : Option Cid) : Entry.leaves (subtree address) = [] := by
  cases address <;> rfl

theorem subtree_apart (address : Option Cid) : (subtree address).IsChain Entry.Apart := by
  cases address with
  | none => exact .nil
  | some => exact .singleton _

theorem leaves_toEntries {keys : List String} (hlength : keys.length = record.leaves.length) :
    (Entry.leaves (record.toEntries keys)).map (·.key) = keys := by
  rw [toEntries_eq, Entry.leaves_append, leaves_subtree, List.nil_append]
  generalize record.leaves = records at hlength
  induction records generalizing keys with
  | nil =>
    rw [List.length_eq_zero_iff.1 hlength]
    rfl
  | cons leaf records ih =>
    match keys with
    | key :: keys =>
      rw [List.zip_cons_cons, List.flatMap_cons, Entry.leaves_append, Entry.leaves_leaf,
        leaves_subtree, List.map_append, ih (Nat.succ.inj hlength)]
      rfl

theorem toEntries_apart {keys : List String} : (record.toEntries keys).IsChain Entry.Apart := by
  rw [toEntries_eq]
  generalize record.leaves.zip keys = ps
  have hhead : ∀ ps : List (LeafRecord × String), ∀ e ∈ (ps.flatMap fun p =>
      Entry.leaf ⟨p.2, p.1.value⟩ :: subtree p.1.right).head?, e.isTree = false := by
    intro ps
    cases ps with
    | nil => nofun
    | cons p ps =>
      rintro _ ⟨⟩
      rfl
  apply Entry.apart_append_of_head (subtree_apart _) _ (hhead ps)
  induction ps with
  | nil => exact .nil
  | cons p ps ih =>
    rw [List.flatMap_cons]
    apply Entry.apart_append_of_head _ ih (hhead ps)
    refine Entry.apart_append_of_last (.singleton (.leaf _)) (subtree_apart _) ?_
    rintro _ ⟨⟩
    rfl

end NodeRecord

namespace NodeOf

theorem entries_of_ofStored (h : ofStored config address hint record = .ok node) :
    ∃ keys below, NodeRecord.keys none record.leaves = .ok keys ∧
      node.entries = (record.toEntries keys).map (Entry.map (.unresolved · below)) := by
  unfold ofStored at h
  obtain ⟨bare, hbare, h⟩ := exists_of_bind_eq_ok h
  cases h
  unfold ofRecord at hbare
  obtain ⟨keys, hkeys, hbare⟩ := exists_of_bind_eq_ok hbare
  obtain ⟨layer, -, hbare⟩ := exists_of_bind_eq_ok hbare
  split at hbare
  · cases hbare
  · cases hbare
    refine ⟨keys, hint.below layer, hkeys, List.map_congr_left ?_⟩
    intro e _
    cases e <;> rfl

structure Checked (node : Node) : Prop where
  valid : ∀ l ∈ node.leaves, Key.isValid l.key
  sorted : node.leaves.Pairwise (·.key < ·.key)
  apart : node.entries.IsChain Entry.Apart
  unresolved : ∀ c, .tree c ∈ node.entries → ∃ address hint, c = .unresolved address hint

theorem checked_of_ofStored (h : ofStored config address hint record = .ok node) :
    node.Checked := by
  obtain ⟨keys, below, hkeys, hentries⟩ := entries_of_ofStored h
  obtain ⟨hlength, hvalid, hsorted, -⟩ := NodeRecord.of_keys_ok hkeys
  have hleaves : node.leaves.map (·.key) = keys := by
    have heq : node.leaves = Entry.leaves node.entries := rfl
    rw [heq, hentries, Entry.leaves_map, NodeRecord.leaves_toEntries hlength]
  constructor
  · intro l hl
    apply hvalid
    rw [← hleaves]
    exact List.mem_map_of_mem hl
  · rw [← hleaves, List.pairwise_map] at hsorted
    exact hsorted
  · rw [hentries, Entry.isChain_apart_map]
    exact NodeRecord.toEntries_apart
  · intro c hc
    rw [hentries, List.mem_map] at hc
    obtain ⟨_ | _, -, heq⟩ := hc <;> cases heq
    exact ⟨_, _, rfl⟩

end NodeOf

namespace Gap

theorem lt_of_mem_before {l : Leaf} (h : .leaf l ∈ (of key es).before) : l.key < key := by
  induction es with
  | nil => cases h
  | cons e es ih =>
    cases e with
    | leaf k =>
      rw [of] at h
      split at h
      · cases h
      · next hkey =>
        rcases List.mem_cons.1 h with heq | h
        · cases heq
          exact not_le.1 hkey
        · exact ih h
    | tree t =>
      rw [of] at h
      split at h
      · exact ih h
      · rcases List.mem_cons.1 h with heq | h
        · cases heq
        · exact ih h

theorem before_getLast? (key : String) (hes : es.IsChain Entry.Apart) :
    ∀ e ∈ (of key es).before.getLast?, e.isTree = false := by
  induction es with
  | nil => nofun
  | cons e es ih =>
    have ih := ih hes.tail
    cases e with
    | leaf k =>
      rw [of]
      split
      · rintro _ ⟨⟩
      · dsimp only
        rw [List.getLast?_cons]
        cases hlast : (of key es).before.getLast? with
        | none =>
          rintro _ ⟨⟩
          rfl
        | some e' =>
          rintro _ ⟨⟩
          exact ih e' hlast
    | tree t =>
      rcases of_tree_cons hes with ⟨_, _, heq⟩ | ⟨hbefore, heq⟩
      · rw [heq]
        exact ih
      · rw [heq]
        dsimp only
        rw [List.getLast?_cons_of_ne_nil hbefore]
        exact ih

theorem after_eq (key : String) (es : List NodeEntry) :
    (of key es).after = [] ∨ ∃ l rest, (of key es).after = .leaf l :: rest ∧ key ≤ l.key := by
  induction es with
  | nil => exact .inl rfl
  | cons e es ih =>
    cases e with
    | leaf k =>
      rw [of]
      split
      · next hkey => exact .inr ⟨k, es, rfl, hkey⟩
      · exact ih
    | tree t =>
      rw [of]
      split <;> exact ih

end Gap

namespace Subtree

def Stored (t : Subtree) : Prop := ∃ address hint, t = .unresolved address hint

theorem Stored.checked (h : t.Stored) {n : { node : Node // t.Covers node }}
    (hn : (t.resolve store config).run = .ok n) :
    n.val.Checked := by
  obtain ⟨address, hint, rfl⟩ := h
  obtain ⟨-, _, _, -, -, -, hstored⟩ := resolve_unresolved hn
  exact NodeOf.checked_of_ofStored hstored

theorem Stored.isValid_key {l : Leaf} (ht : t.Stored) (hl : t.Contains store config l) :
    Key.isValid l.key := by
  obtain ⟨node, hnode, hl⟩ := hl
  induction hnode with
  | here hn => exact (ht.checked hn).valid l hl
  | deeper hn hc _ ih => exact ih ((ht.checked hn).unresolved _ hc)

end Subtree

namespace Leaves

theorem lt_of_getLast? {ls : List Leaf} (hsorted : ls.Pairwise (·.key < ·.key))
    (hlast : ∀ k ∈ ls.getLast?, k.key < key) : ∀ k ∈ ls, k.key < key := by
  rcases List.eq_nil_or_concat ls with rfl | ⟨init, last, rfl⟩
  · exact nofun
  · rw [List.concat_eq_append] at hsorted hlast ⊢
    have hlt : last.key < key := hlast last (by simp)
    rw [List.pairwise_append] at hsorted
    rw [List.forall_mem_append]
    refine ⟨fun k hk => (hsorted.2.2 k hk last List.mem_cons_self).trans hlt, ?_⟩
    simpa using hlt

theorem lt_of_head? {ls : List Leaf} (hsorted : ls.Pairwise (·.key < ·.key))
    (hhead : ∀ k ∈ ls.head?, key < k.key) : ∀ k ∈ ls, key < k.key := by
  cases ls with
  | nil => exact nofun
  | cons first ls =>
    have hlt : key < first.key := hhead first rfl
    exact List.forall_mem_cons.2 ⟨hlt, fun k hk =>
      hlt.trans ((List.pairwise_cons.1 hsorted).1 k hk)⟩

end Leaves

namespace Walked

theorem mem_leaves_iff (h : Walked store config es vs) {l : Leaf} :
    l ∈ Entry.leaves vs ↔ .leaf l ∈ es ∨ ∃ c, .tree c ∈ es ∧ c.Contains store config l := by
  induction h with
  | nil => simp
  | @leaf k es vs _ ih => simp [ih, or_assoc]
  | @tree t es vs n hn _ ih =>
    rw [Entry.leaves_tree, ih]
    simp only [List.mem_append, List.mem_cons, reduceCtorEq, false_or, Entry.tree.injEq,
      or_and_right, exists_or, exists_eq_left, Subtree.contains_iff hn]
    rw [or_or_or_comm, or_left_comm, or_assoc]

theorem of_mem {left right : List NodeEntry}
    (h : Walked store config (left ++ .tree t :: right) vs) :
    ∃ ls cs rs, vs = ls ++ (cs ++ rs) ∧ Walked store config left ls ∧
      Walked store config [.tree t] cs ∧
      Walked store config right rs := by
  obtain ⟨ls, ms, rfl, hls, hms⟩ := h.of_append
  rw [← List.singleton_append] at hms
  obtain ⟨cs, rs, rfl, hcs, hrs⟩ := hms.of_append
  exact ⟨ls, cs, rs, rfl, hls, hcs, hrs⟩

theorem of_reaches (h : Walked store config [.tree t] vs) (hnode : t.Reaches store config node) :
    ∃ us, Walked store config node.entries us ∧ (Entry.leaves us).Sublist (Entry.leaves vs) := by
  induction hnode generalizing vs with
  | here hn =>
    obtain ⟨n, us, hn', hus, rfl⟩ := h.of_tree
    cases hn'.symm.trans hn
    exact ⟨us, hus, List.Sublist.refl _⟩
  | deeper hn hc _ ih =>
    obtain ⟨n, us, hn', hus, rfl⟩ := h.of_tree
    cases hn'.symm.trans hn
    obtain ⟨left, right, hentries⟩ := List.append_of_mem hc
    rw [hentries] at hus
    obtain ⟨ls, cs, rs, rfl, -, hcs, -⟩ := hus.of_mem
    obtain ⟨us, hus, hsub⟩ := ih hcs
    refine ⟨us, hus, hsub.trans ?_⟩
    rw [Entry.leaves_tree, Entry.leaves_append, Entry.leaves_append]
    exact (List.sublist_append_left _ _).trans (List.sublist_append_right _ _)

theorem lt_of_before (hes : es.IsChain Entry.Apart)
    (h : Walked store config (Gap.of key es).before vs)
    (hsorted : (Entry.leaves vs).Pairwise (·.key < ·.key)) :
    ∀ l ∈ Entry.leaves vs, l.key < key := by
  have hlast := Gap.before_getLast? key hes
  have hlt : ∀ l, .leaf l ∈ (Gap.of key es).before → l.key < key := fun l => Gap.lt_of_mem_before
  rcases List.eq_nil_or_concat (Gap.of key es).before with hnil | ⟨init, e, heq⟩
  · rw [hnil] at h
    cases h
    exact nofun
  · rw [List.concat_eq_append] at heq
    rw [heq] at h hlast hlt
    cases e with
    | tree c => cases hlast (.tree c) (by simp)
    | leaf k =>
      obtain ⟨us, ks, rfl, -, hks⟩ := h.of_append
      cases hks with
      | leaf hks =>
        cases hks
        apply Leaves.lt_of_getLast? hsorted
        rw [Entry.leaves_append]
        simpa using hlt k (by simp)

theorem lt_of_after (h : Walked store config (Gap.of key es).after vs)
    (hfound : (Gap.of key es).found? key = none)
    (hsorted : (Entry.leaves vs).Pairwise (·.key < ·.key)) :
    ∀ l ∈ Entry.leaves vs, key < l.key := by
  rcases Gap.after_eq key es with hnil | ⟨k, rest, heq, hle⟩
  · rw [hnil] at h
    cases h
    exact nofun
  · rw [Gap.found?, heq] at hfound
    rw [heq] at h
    dsimp only at hfound
    split at hfound
    · cases hfound
    · next hne =>
      cases h with
      | leaf h =>
        apply Leaves.lt_of_head? hsorted
        rintro _ ⟨⟩
        exact lt_of_le_of_ne hle (Ne.symm hne)

theorem of_gap (h : Walked store config es vs) (key : String) :
    ∃ bs ss as, vs = bs ++ ss ++ as ∧ Walked store config (Gap.of key es).before bs ∧
      Walked store config (Entry.ofTree? (Gap.of key es).subtree) ss ∧
      Walked store config (Gap.of key es).after as := by
  rw [← Gap.entries_of key es, Gap.entries, Gap.fill] at h
  obtain ⟨us, as, rfl, hus, has⟩ := h.of_append
  obtain ⟨bs, ss, rfl, hbs, hss⟩ := hus.of_append
  exact ⟨bs, ss, as, rfl, hbs, hss, has⟩

end Walked

namespace Subtree

theorem exists_get? (h : Walked store config [.tree t] vs) (key : String) :
    ∃ found, (t.get? store config key).run = .ok found ∧
      ∀ value, found = some value → ⟨key, value⟩ ∈ Entry.leaves vs := by
  induction t.acc generalizing vs with
  | intro t _ ih =>
    obtain ⟨n, us, hn, hus, rfl⟩ := h.of_tree
    obtain ⟨bs, ss, as, rfl, -, hss, has⟩ := hus.of_gap key
    have hresolve : t.resolve store config = pure n := hn
    rw [Subtree.get?, hresolve, pure_bind]
    dsimp only
    split
    · next leaf rest hfound =>
      obtain ⟨hafter, rfl⟩ := Gap.mem_of_found? hfound
      refine ⟨some leaf.value, rfl, ?_⟩
      rintro _ ⟨⟩
      have hafter : (Gap.of leaf.key n.val.entries).after = .leaf leaf :: rest := hafter
      rw [hafter] at has
      cases has
      simp
    · next below _ hsubtree =>
      have hmem := NodeOf.tree_mem_of_gap hsubtree
      have hsubtree : (Gap.of key n.val.entries).subtree = some below := hsubtree
      rw [hsubtree] at hss
      obtain ⟨found, hrun, hvalue⟩ := ih below (n.property below hmem) hss
      refine ⟨found, hrun, ?_⟩
      intro value heq
      simp [hvalue value heq]
    · exact ⟨none, rfl, nofun⟩

theorem ne_of_get?_eq_none (ht : t.Stored) (h : Walked store config [.tree t] vs)
    (hsorted : (Entry.leaves vs).Pairwise (·.key < ·.key))
    (hnone : (t.get? store config key).run = .ok none) :
    ∀ l ∈ Entry.leaves vs, l.key ≠ key := by
  induction t.acc generalizing vs with
  | intro t _ ih =>
    obtain ⟨n, us, hn, hus, rfl⟩ := h.of_tree
    have hchecked := ht.checked hn
    obtain ⟨bs, ss, as, rfl, hbs, hss, has⟩ := hus.of_gap key
    simp only [Entry.leaves_tree, Entry.leaves_append, List.pairwise_append] at hsorted ⊢
    obtain ⟨⟨hsortedBefore, hsortedSub, -⟩, hsortedAfter, -⟩ := hsorted
    have hbefore := hbs.lt_of_before hchecked.apart hsortedBefore
    have hresolve : t.resolve store config = pure n := hn
    rw [Subtree.get?, hresolve, pure_bind] at hnone
    dsimp only at hnone
    split at hnone
    · cases hnone
    · next below hfound hsubtree =>
      have hmem := NodeOf.tree_mem_of_gap hsubtree
      have hsubtree : (Gap.of key n.val.entries).subtree = some below := hsubtree
      rw [hsubtree] at hss
      have hafter := has.lt_of_after hfound hsortedAfter
      have hinner :=
        ih below (n.property below hmem) (hchecked.unresolved below hmem) hss hsortedSub hnone
      rw [List.forall_mem_append, List.forall_mem_append]
      exact ⟨⟨fun l hl => (hbefore l hl).ne, hinner⟩, fun l hl => (hafter l hl).ne'⟩
    · next hfound hsubtree =>
      have hsubtree : (Gap.of key n.val.entries).subtree = none := hsubtree
      rw [hsubtree] at hss
      cases hss
      have hafter := has.lt_of_after hfound hsortedAfter
      rw [List.forall_mem_append, List.forall_mem_append]
      exact ⟨⟨fun l hl => (hbefore l hl).ne, nofun⟩, fun l hl => (hafter l hl).ne'⟩

/--
Each subtree keeps to the gap that it stands in: its keys are between those of the leaves next to
it.
-/
def Confined (store : Blockstore Id) (config : Config) (t : Subtree) : Prop :=
  ∀ node, t.Reaches store config node → ∀ left c right, node.entries = left ++ .tree c :: right →
    ∀ l, c.Contains store config l →
      (∀ k ∈ (Entry.leaves left).getLast?, k.key < l.key) ∧
        ∀ k ∈ (Entry.leaves right).head?, l.key < k.key

end Subtree

namespace Walked

theorem sorted_of_bounds (h : Walked store config es vs) (hes : es.IsChain Entry.Apart)
    (hsorted : (Entry.leaves es).Pairwise (·.key < ·.key))
    (hin : ∀ c us, .tree c ∈ es → Walked store config [.tree c] us →
      (Entry.leaves us).Pairwise (·.key < ·.key))
    (hbounds : ∀ left c right, es = left ++ .tree c :: right →
      ∀ l, c.Contains store config l → (∀ k ∈ Entry.leaves left, k.key < l.key) ∧
      ∀ k ∈ Entry.leaves right, l.key < k.key) :
    (Entry.leaves vs).Pairwise (·.key < ·.key) := by
  induction es generalizing vs with
  | nil =>
    cases h
    exact .nil
  | cons e es ih =>
    have hbelow : ∀ left c right, es = left ++ .tree c :: right →
        ∀ l, c.Contains store config l → (∀ k ∈ Entry.leaves (e :: left), k.key < l.key) ∧
        ∀ k ∈ Entry.leaves right, l.key < k.key := by
      rintro left c right rfl
      exact hbounds (e :: left) c right rfl
    have ih := fun us (hus : Walked store config es us) hsorted => ih hus hes.tail hsorted
      (fun c us hc => hin c us (List.mem_cons_of_mem _ hc))
      fun left c right heq l hl =>
        ⟨fun k hk =>
          (hbelow left c right heq l hl).1 k (by cases e <;> simp [hk]),
          (hbelow left c right heq l hl).2⟩
    cases e with
    | leaf k =>
      cases h with
      | leaf h =>
        rw [Entry.leaves_leaf, List.pairwise_cons] at hsorted ⊢
        refine ⟨?_, ih _ h hsorted.2⟩
        intro l hl
        rcases h.mem_leaves_iff.1 hl with hmem | ⟨c, hc, hl⟩
        · exact hsorted.1 l (List.mem_filterMap.2 ⟨_, hmem, rfl⟩)
        · obtain ⟨left, right, rfl⟩ := List.append_of_mem hc
          exact (hbelow left c right rfl l hl).1 k List.mem_cons_self
    | tree c =>
      rw [← List.singleton_append] at h
      obtain ⟨cs, us, rfl, hcs, hus⟩ := h.of_append
      rw [Entry.leaves_append, List.pairwise_append]
      refine ⟨hin c cs List.mem_cons_self hcs, ih us hus hsorted, ?_⟩
      intro a ha b hb
      have ha : c.Contains store config a := by simpa using hcs.mem_leaves_iff.1 ha
      have hright := (hbounds [] c es rfl a ha).2
      rcases hus.mem_leaves_iff.1 hb with hmem | ⟨d, hd, hb⟩
      · exact hright b (List.mem_filterMap.2 ⟨_, hmem, rfl⟩)
      · -- Between two subtrees there is a leaf.
        obtain ⟨left, right, rfl⟩ := List.append_of_mem hd
        have hhead := Entry.isTree_head?_of_isChain hes
        cases left with
        | nil => cases hhead _ rfl
        | cons e left =>
          cases e with
          | tree => cases hhead _ rfl
          | leaf k =>
            have hak : a.key < k.key := hright k (by simp)
            have hkb : k.key < b.key := (hbelow (.leaf k :: left) d right rfl b hb).1 k (by simp)
            exact hak.trans hkb

theorem sorted_of_confined (ht : t.Stored) (h : Walked store config [.tree t] vs)
    (hconfined : t.Confined store config) :
    (Entry.leaves vs).Pairwise (·.key < ·.key) := by
  induction t.acc generalizing vs with
  | intro t _ ih =>
    obtain ⟨n, us, hn, hus, rfl⟩ := h.of_tree
    have hchecked := ht.checked hn
    rw [Entry.leaves_tree]
    apply hus.sorted_of_bounds hchecked.apart hchecked.sorted
    · intro c cs hc hcs
      apply ih c (n.property c hc) (hchecked.unresolved c hc) hcs
      exact fun node hnode => hconfined node (.deeper hn hc hnode)
    · intro left c right hentries l hl
      have hsorted : (Entry.leaves n.val.entries).Pairwise (·.key < ·.key) := hchecked.sorted
      rw [hentries, Entry.leaves_append, Entry.leaves_tree, List.pairwise_append] at hsorted
      obtain ⟨hlast, hhead⟩ := hconfined n.val (.here hn) left c right hentries l hl
      exact ⟨Leaves.lt_of_getLast? hsorted.1 hlast, Leaves.lt_of_head? hsorted.2.1 hhead⟩

theorem confined_of_sorted (h : Walked store config [.tree t] vs)
    (hsorted : (Entry.leaves vs).Pairwise (·.key < ·.key)) : t.Confined store config := by
  intro node hnode left c right hentries l hl
  obtain ⟨us, hus, hsub⟩ := h.of_reaches hnode
  rw [hentries] at hus
  obtain ⟨ls, cs, rs, rfl, hls, hcs, hrs⟩ := hus.of_mem
  have hl : l ∈ Entry.leaves cs := hcs.mem_leaves_iff.2 (.inr ⟨c, List.mem_singleton_self _, hl⟩)
  have hmem : ∀ {es us : List NodeEntry}, Walked store config es us →
      ∀ k ∈ Entry.leaves es, k ∈ Entry.leaves us := by
    intro es us hus k hk
    obtain ⟨_ | _, he, heq⟩ := List.mem_filterMap.1 hk <;> cases heq
    exact hus.mem_leaves_iff.2 (.inl he)
  have hsorted := hsorted.sublist hsub
  rw [Entry.leaves_append, Entry.leaves_append, List.pairwise_append,
    List.pairwise_append] at hsorted
  obtain ⟨-, ⟨-, -, hright⟩, hleft⟩ := hsorted
  constructor
  · intro k hk
    exact hleft k (hmem hls k (List.mem_of_getLast? hk)) l (List.mem_append_left _ hl)
  · intro k hk
    exact hright l hl k (hmem hrs k (List.mem_of_head? hk))

end Walked

theorem Tree.get?_of_leaves {root : Cid} {ls : List Leaf}
    (h : ((Tree.load root config).leaves store).run = .ok ls) :
    (∀ key, ∃ found, ((Tree.load root config).get? store key).run = .ok found ∧
      ∀ value, found = some value → ⟨key, value⟩ ∈ ls) ∧
    ((Tree.load root config).root.Confined store config ↔ ls.Pairwise (·.key < ·.key) ∧
      ∀ key value, ((Tree.load root config).get? store key).run = .ok (some value) ↔
        ⟨key, value⟩ ∈ ls) := by
  have hstored : (Tree.load root config).root.Stored := ⟨_, _, rfl⟩
  obtain ⟨vs, hvs, rfl⟩ := Tree.run_leaves_eq_ok_iff.1 h
  have hvs : Walked store config [.tree (Tree.load root config).root] vs := hvs
  have hfound : ∀ key, ∃ found, ((Tree.load root config).get? store key).run = .ok found ∧
      ∀ value, found = some value → ⟨key, value⟩ ∈ Entry.leaves vs := by
    intro key
    unfold Tree.get?
    split
    · exact Subtree.exists_get? hvs key
    · exact ⟨none, rfl, nofun⟩
  refine ⟨hfound, ?_, fun h => hvs.confined_of_sorted h.1⟩
  intro hconfined
  have hlisting : Listing (Entry.leaves vs) := by
    refine ⟨hvs.sorted_of_confined hstored hconfined, ?_⟩
    intro l hl
    exact hstored.isValid_key (by simpa using hvs.mem_leaves_iff.1 hl)
  refine ⟨hlisting.sorted, ?_⟩
  intro key value
  obtain ⟨found, hrun, hmem⟩ := hfound key
  rw [hrun, Except.ok.injEq]
  refine ⟨hmem value, ?_⟩
  intro hlisted
  cases found with
  | none =>
    rw [Tree.get?_of_isValid (hlisting.valid _ hlisted)] at hrun
    exact absurd rfl (Subtree.ne_of_get?_eq_none hstored hvs hlisting.sorted hrun _ hlisted)
  | some other =>
    cases hlisting.eq_of_key_eq hlisted (hmem other rfl) rfl
    rfl

theorem Sample.walked_shelf :
    Walked (.snapshot shelf) Sample.config [.tree (Tree.load (pointer 2) Sample.config).root]
      [.tree (.resolved storedHighNode), .tree (.resolved storedLowNode), .leaf low,
        .leaf high] := by
  obtain ⟨_, hhigh⟩ := exists_resolve_high_shelf
  obtain ⟨_, hlow⟩ := exists_resolve_low_shelf
  apply Walked.of_resolve hhigh
  exact .tree hlow (.leaf (.leaf .nil))

theorem Sample.leaves_shelf :
    ((Tree.load (pointer 2) Sample.config).leaves (.snapshot shelf)).run = .ok [low, high] :=
  Tree.run_leaves_eq_ok_iff.2 ⟨_, walked_shelf, rfl⟩

theorem Tree.get?_of_leaves_of_shelf :
    ((Tree.load (Sample.pointer 2) Sample.config).leaves (.snapshot Sample.shelf)).run =
      .ok [Sample.low, Sample.high] ∧
    ∀ key value,
      ((Tree.load (Sample.pointer 2) Sample.config).get? (.snapshot Sample.shelf) key).run =
      .ok (some value) ↔ ⟨key, value⟩ ∈ [Sample.low, Sample.high] := by
  have hsorted : [Sample.low, Sample.high].Pairwise (·.key < ·.key) := by decide
  have hconfined := Sample.walked_shelf.confined_of_sorted hsorted
  exact ⟨Sample.leaves_shelf, ((Tree.get?_of_leaves Sample.leaves_shelf).2.1 hconfined).2⟩

namespace Misplaced

/-!
A node whose subtree stands behind a leaf, but has a key that is before that of the leaf.
-/

open Sample (low)

def high : Leaf := ⟨"a/c", Sample.high.value⟩

def lowRecord : NodeRecord := ⟨none, [⟨0, Bytes.ofText low.key, low.value, none⟩]⟩

def lowAddress : Cid := Cid.ofBlock Cid.dagCbor lowRecord.toCbor

def highRecord : NodeRecord := ⟨none, [⟨0, Bytes.ofText high.key, high.value, some lowAddress⟩]⟩

def highAddress : Cid := Cid.ofBlock Cid.dagCbor highRecord.toCbor

def shelf : BlockMap :=
  (({} : BlockMap).insert lowAddress lowRecord.toCbor).insert highAddress highRecord.toCbor

def lowNode : Node where
  entries := [.leaf low]
  layer := some 0
  address := some lowAddress

def highNode : Node where
  entries := [.leaf high, .tree (.unresolved lowAddress (.layer 0))]
  layer := some 1
  address := some highAddress

theorem highAddress_ne : highAddress ≠ lowAddress := by
  unfold highAddress lowAddress highRecord
  simp only [NodeRecord.toCbor_eq, lowRecord, List.map_cons, List.map_nil, LeafRecord.toCbor_eq,
    lowAddress]
  decide +kernel

theorem lowRecord_writable : lowRecord.Writable := ⟨by decide, by decide⟩

theorem highRecord_writable : highRecord.Writable := ⟨by decide, by decide⟩

theorem ofStored_low : NodeOf.ofStored {} lowAddress (.layer 0) lowRecord = .ok lowNode := by
  have hkeys : NodeRecord.keys none lowRecord.leaves = .ok [low.key] := by cbv
  have hlayer : ({} : Config).layerOf low.key = 0 := by decide +kernel
  have hlayers : NodeRecord.layerOf {} (Hint.layer 0).layer? [low.key] = .ok (some 0) :=
    NodeRecord.layerOf_ok (by simpa using hlayer) (.inr rfl)
  exact NodeOf.ofStored_ok hkeys hlayers fun _ => rfl

theorem ofStored_high :
    NodeOf.ofStored {} highAddress (.ofLayer? none) highRecord = .ok highNode := by
  have hkeys : ∀ right, NodeRecord.keys none [⟨0, Bytes.ofText high.key, high.value, right⟩] =
      .ok [high.key] := by
    intro right
    cbv
  have hkeys : NodeRecord.keys none highRecord.leaves = .ok [high.key] := hkeys _
  have hlayer : ({} : Config).layerOf high.key = 1 := by decide +kernel
  have hlayers : NodeRecord.layerOf {} (Hint.ofLayer? none).layer? [high.key] = .ok (some 1) :=
    NodeRecord.layerOf_ok (by simpa using hlayer) (.inl rfl)
  exact NodeOf.ofStored_ok hkeys hlayers (absurd · (by decide))

theorem walked : Walked (.snapshot shelf) {} [.tree (Tree.load highAddress {}).root]
    [.tree (.resolved highNode), .leaf high, .tree (.resolved lowNode), .leaf low] := by
  have hlow : shelf[lowAddress]? = some lowRecord.toCbor := by
    rw [shelf, Std.TreeMap.getElem?_insert, if_neg (by simpa using highAddress_ne),
      Std.TreeMap.getElem?_insert_self]
  have hhigh : shelf[highAddress]? = some highRecord.toCbor := Std.TreeMap.getElem?_insert_self
  have hhint : Hint.layer 0 ≠ .unknown 0 := by decide
  have hhint' : Hint.ofLayer? none ≠ .unknown 0 := by decide
  obtain ⟨_, hlow⟩ := Subtree.exists_resolve_unresolved hhint
    (Blockstore.run_get?_snapshot_eq hlow) rfl
    (NodeCodec.decodeCbor_toCbor lowRecord_writable) ofStored_low
  obtain ⟨_, hhigh⟩ := Subtree.exists_resolve_unresolved hhint'
    (Blockstore.run_get?_snapshot_eq hhigh) rfl
    (NodeCodec.decodeCbor_toCbor highRecord_writable) ofStored_high
  exact .of_resolve hhigh (.leaf (.of_resolve hlow (.leaf .nil)))

theorem listed_but_not_found :
    ((Tree.load highAddress {}).leaves (.snapshot shelf)).run = .ok [high, low] ∧
    ¬[high, low].Pairwise (·.key < ·.key) ∧
    ((Tree.load highAddress {}).get? (.snapshot shelf) low.key).run = .ok none := by
  refine ⟨Tree.run_leaves_eq_ok_iff.2 ⟨_, walked, rfl⟩, by decide, ?_⟩
  obtain ⟨n, _, hn, -, heq⟩ := walked.of_tree
  rw [List.cons.injEq, Entry.tree.injEq, Subtree.resolved.injEq] at heq
  have hnode : highNode = n.val := heq.1
  have hfound : (n.val.gap low.key).found? low.key = none := by
    rw [← hnode]
    decide
  have hsubtree : (n.val.gap low.key).subtree = none := by
    rw [← hnode]
    decide
  have hvalid : Key.isValid low.key := by decide
  exact (Tree.get?_of_isValid hvalid).trans (Subtree.get?_of_subtree_none hn hfound hsubtree)

end Misplaced

end MerkleSearch
