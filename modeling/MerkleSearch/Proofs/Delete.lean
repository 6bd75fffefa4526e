import MerkleSearch.Proofs.Split
import MerkleSearch.Tree.Delete
import MerkleSearch.Tree.Update

/-!
This module contains the replacement and the removal of a leaf in a subtree that holds a list of
leaves. Neither changes the height. Only at the top of a tree, nodes that are left without leaves
are taken off.
-/

namespace MerkleSearch

variable {config : Config} {layer height : Nat} {ls : List Leaf} {archive : Archive config}
variable {store : Blockstore Id} {t : Subtree} {node : Node} {leaf : Leaf} {key : String}

namespace NodeOf

theorem mem_of_mem_after {e : NodeEntry} (he : e ∈ (node.gap key).after) : e ∈ node.entries := by
  rw [← Gap.entries_of key node.entries]
  exact List.mem_append_right _ he

theorem Holds.apart_after {rest : List NodeEntry}
    (h : node.Holds archive (Subtree.Holds archive layer) layer ls)
    (hafter : (node.gap key).after = .leaf leaf :: rest) :
    (.leaf leaf :: rest : List NodeEntry).IsChain Entry.Apart := by
  rw [← hafter]
  exact Gap.after_apart h.apart

theorem Holds.withAfter {bs ss as rs : List Leaf} {es : List NodeEntry}
    (h : node.Holds archive (Subtree.Holds archive layer) layer ls)
    (parts : (node.gap key).Parts config (Subtree.Holds archive layer) layer key bs ss as)
    (hes : es.IsChain Entry.Apart)
    (hspells : Spells config (Subtree.Holds archive layer) layer es rs)
    (hmeet : ∀ a b rest, (node.gap key).subtree = some a → es = .tree b :: rest → False) :
    (node.withEntries { node.gap key with after := es }.entries).Holds archive
      (Subtree.Holds archive layer) layer (bs ++ ss ++ rs) := by
  apply h.withEntries
  · apply Entry.apart_append
    · apply Entry.apart_append_of_last
      · exact Gap.before_apart h.apart
      · exact Entry.apart_ofTree? _
      · exact parts.before_last
    · exact hes
    · intro a b rest hlast
      cases hsubtree : (node.gap key).subtree with
      | none =>
        have := parts.before_last (.tree a) (by simpa [Entry.ofTree?, hsubtree] using hlast)
        cases this
      | some t => exact hmeet t b rest hsubtree
  · exact (parts.before.append parts.subtree).append hspells

end NodeOf

theorem Subtree.Holds.entries_eq_nil_iff (h : (Subtree.resolved node).Holds archive height ls) :
    node.entries = [] ↔ ls = [] := by
  cases height with
  | zero => exact h.elim
  | succ layer => exact h.spells.eq_nil_iff

namespace NodeOf.Holds

variable {bs ss as : List Leaf}

theorem eraseBelow {child : Node} (h : node.Holds archive (Subtree.Holds archive layer) layer ls)
    (parts : (node.gap key).Parts config (Subtree.Holds archive layer) layer key bs ss as)
    (hlt : ∀ l ∈ as, key < l.key) (hlow : ∀ l ∈ ss, config.layerOf l.key < layer)
    (hchild : (Subtree.resolved child).Holds archive layer (Leaves.erase key ss)) :
    (node.withEntries
      ((node.gap key).fill (if child.entries.isEmpty then [] else [.tree (.resolved child)]))).Holds
      archive (Subtree.Holds archive layer) layer (Leaves.erase key (bs ++ ss ++ as)) := by
  rw [parts.erase_eq hlt]
  have hempty := hchild.entries_eq_nil_iff
  split
  · next hnil =>
    rw [hempty.1 (List.isEmpty_iff.1 hnil)]
    exact h.fill parts .nil .nil
  · next hne =>
    apply h.fill parts (.singleton _)
    apply Spells.singleton hchild
    · exact fun heq => hne (List.isEmpty_iff.2 (hempty.2 heq))
    · exact fun k hk => hlow k (Leaves.mem_erase.1 hk).1

theorem eraseBetween {found : Leaf} {left right : Subtree} {merged : Node} {rest : List NodeEntry}
    {ts rs : List Leaf} (h : node.Holds archive (Subtree.Holds archive layer) layer ls)
    (hls : Listing (bs ++ ss ++ found :: (ts ++ rs)))
    (parts : (node.gap found.key).Parts config (Subtree.Holds archive layer) layer found.key bs ss
      (found :: (ts ++ rs)))
    (hsubtree : (node.gap found.key).subtree = some left)
    (hafter : (node.gap found.key).after = .leaf found :: .tree right :: rest)
    (htslow : ∀ l ∈ ts, config.layerOf l.key < layer)
    (hrest : Spells config (Subtree.Holds archive layer) layer rest rs)
    (hmerged : (Subtree.resolved merged).Holds archive layer (ss ++ ts)) :
    (node.withEntries ((node.gap found.key).before ++ .tree (.resolved merged) :: rest)).Holds
      archive (Subtree.Holds archive layer) layer
      (Leaves.erase found.key (bs ++ ss ++ found :: (ts ++ rs))) := by
  obtain ⟨-, hne, hlow⟩ := parts.of_subtree_some hsubtree
  have hmiddle : bs ++ ss ++ (ts ++ rs) = bs ++ (ss ++ ts ++ rs) := by
    simp only [List.append_assoc]
  rw [hls.erase_append_cons, hmiddle]
  apply h.withEntries
  · apply Entry.apart_append_of_last
    · exact Gap.before_apart h.apart
    · exact Entry.apart_cons (h.apart_after hafter).tail _
    · exact parts.before_last
  · apply parts.before.append
    apply Spells.tree hmerged
    · exact List.append_ne_nil_of_left_ne_nil hne ts
    · exact List.forall_mem_append.2 ⟨hlow, htslow⟩
    · exact hrest

end NodeOf.Holds

theorem Subtree.Holds.update (h : t.Holds archive height ls) (hls : Listing ls)
    (hstore : archive.Agrees store) :
    Settles (t.Readable store config) (t.update store config leaf) (fun node =>
      (∃ l ∈ ls, l.key = leaf.key) ∧
        (Subtree.resolved node).Holds archive height (Leaves.insert leaf ls)) (fun e =>
          e = .keyNotFound leaf.key ∧ ∀ l ∈ ls, l.key ≠ leaf.key) := by
  induction height generalizing t ls with
  | zero => exact h.elim
  | succ layer ih =>
    rw [Subtree.update]
    apply ((h.resolve hls hstore).settles id).bind
    rintro ⟨node, covers⟩ ⟨hnode, hreadable⟩
    dsimp only at hnode hreadable ⊢
    obtain ⟨bs, ss, as, rfl, parts⟩ := hnode.exists_parts hls leaf.key
    split
    · next found rest hfound =>
      obtain ⟨rs, rfl, hkey, hlayer, hafter, hrest⟩ := parts.of_found hfound
      apply Settles.pure
      refine ⟨⟨found, by simp, hkey⟩, ?_⟩
      rw [hls.insert_append_cons hkey]
      apply hnode.withAfter parts
      · rw [List.isChain_cons]
        exact ⟨fun e _ => by simp [Entry.Apart, Entry.isTree], (hnode.apart_after hafter).tail⟩
      · exact .leaf hlayer hrest
      · rintro _ _ _ _ ⟨⟩
    · next below hfound hsubtree =>
      obtain ⟨hbelow, hne, hlow⟩ := parts.of_subtree_some hsubtree
      have hlt := parts.lt_after hls.right hfound
      apply ((ih hbelow hls.left.right).imp _ (fun _ => id) _).bind
      · rintro child ⟨⟨l, hl, hkey⟩, hchild⟩
        apply Settles.pure
        refine ⟨⟨l, by simp [hl], hkey⟩, ?_⟩
        have hlower : config.layerOf leaf.key < layer := by
          rw [← hkey]
          exact hlow l hl
        exact hnode.insertBelow parts hlt hlower hlow hchild
      · intro havailable
        apply hreadable havailable
        exact NodeOf.tree_mem_of_gap hsubtree
      · rintro _ ⟨rfl, hne⟩
        exact ⟨rfl, parts.forall_ne hne hlt⟩
    · next hfound hsubtree =>
      have hlt := parts.lt_after hls.right hfound
      cases parts.of_subtree_none hsubtree
      apply Settles.throw
      exact ⟨rfl, parts.forall_ne (List.forall_mem_nil _) hlt⟩

theorem Subtree.Holds.delete (h : t.Holds archive height ls) (hls : Listing ls)
    (hstore : archive.Agrees store) :
    Settles (t.Readable store config) (t.delete store config key) (fun node =>
      (∃ l ∈ ls, l.key = key) ∧
        (Subtree.resolved node).Holds archive height (Leaves.erase key ls)) (fun e =>
          e = .keyNotFound key ∧ ∀ l ∈ ls, l.key ≠ key) := by
  induction height generalizing t ls with
  | zero => exact h.elim
  | succ layer ih =>
    rw [Subtree.delete]
    apply ((h.resolve hls hstore).settles id).bind
    rintro ⟨node, covers⟩ ⟨hnode, hreadable⟩
    dsimp only at hnode hreadable ⊢
    obtain ⟨bs, ss, as, rfl, parts⟩ := hnode.exists_parts hls key
    split
    -- The leaf goes, and the subtrees at both sides of it become one.
    · next found right rest left hfound hsubtree =>
      obtain ⟨rs, rfl, rfl, hlayer, hafter, hrest⟩ := parts.of_found hfound
      obtain ⟨ts, rs, rfl, hright, htsne, htslow, hrest⟩ := hrest.of_tree_cons
      obtain ⟨hleft, -⟩ := parts.of_subtree_some hsubtree
      have hlisting : Listing (ss ++ ts) := by
        apply hls.sublist
        apply List.Sublist.append
        · exact List.sublist_append_right bs ss
        · exact (List.sublist_append_left ts rs).cons found
      apply ((hleft.merge hright hlisting hstore).settles _).bind
      · intro merged hmerged
        apply Settles.pure
        refine ⟨⟨found, by simp, rfl⟩, ?_⟩
        exact hnode.eraseBetween hls parts hsubtree hafter htslow hrest hmerged
      · intro havailable
        constructor
        · apply hreadable havailable
          exact NodeOf.tree_mem_of_gap hsubtree
        · apply hreadable havailable
          apply NodeOf.mem_of_mem_after
          rw [hafter]
          simp
    · next found rest hfound hmeet =>
      obtain ⟨rs, rfl, rfl, hlayer, hafter, hrest⟩ := parts.of_found hfound
      apply Settles.pure
      refine ⟨⟨found, by simp, rfl⟩, ?_⟩
      rw [hls.erase_append_cons]
      apply hnode.withAfter parts
      · exact (hnode.apart_after hafter).tail
      · exact hrest
      · rintro left right rest hsubtree rfl
        exact hmeet right rest left hsubtree rfl
    · next below hfound hsubtree =>
      obtain ⟨hbelow, hne, hlow⟩ := parts.of_subtree_some hsubtree
      have hlt := parts.lt_after hls.right hfound
      apply ((ih hbelow hls.left.right).imp _ (fun _ => id) _).bind
      · rintro child ⟨⟨l, hl, hkey⟩, hchild⟩
        apply Settles.pure
        refine ⟨⟨l, by simp [hl], hkey⟩, ?_⟩
        exact hnode.eraseBelow parts hlt hlow hchild
      · intro havailable
        apply hreadable havailable
        exact NodeOf.tree_mem_of_gap hsubtree
      · rintro _ ⟨rfl, hne⟩
        exact ⟨rfl, parts.forall_ne hne hlt⟩
    · next hfound hsubtree =>
      have hlt := parts.lt_after hls.right hfound
      cases parts.of_subtree_none hsubtree
      apply Settles.throw
      exact ⟨rfl, parts.forall_ne (List.forall_mem_nil _) hlt⟩

theorem NodeOf.Holds.exists_leaf (h : node.Holds archive (Subtree.Holds archive layer) layer ls)
    (hpointer : ∀ t, node.entries ≠ [.tree t]) :
    ls = [] ∨ ∃ l ∈ ls, config.layerOf l.key = layer := by
  have hspells := h.spells
  have hapart := h.apart
  -- Next to a subtree there is a leaf, if there is anything.
  match hentries : node.entries with
  | [] =>
    rw [hentries] at hspells
    exact .inl hspells.of_nil
  | .leaf l :: _ =>
    rw [hentries] at hspells
    exact .inr ⟨l, hspells.leaf_mem_iff.1 List.mem_cons_self⟩
  | [.tree t] => exact (hpointer t hentries).elim
  | .tree _ :: .leaf l :: _ =>
    rw [hentries] at hspells
    apply Or.inr
    refine ⟨l, hspells.leaf_mem_iff.1 ?_⟩
    simp
  | .tree _ :: .tree _ :: _ =>
    rw [hentries] at hapart
    exact (hapart.rel ⟨rfl, rfl⟩).elim

theorem NodeOf.Holds.trim (h : node.Holds archive (Subtree.Holds archive layer) layer ls)
    (covers : t.Covers node) (hls : Listing ls) (hstore : archive.Agrees store) :
    Returns (Subtree.AllReadable store config node.entries) (t.trim store config node covers)
      fun top =>
      (∃ n, top.Holds archive (Subtree.Holds archive n) n ls ∧
        (ls = [] ∨ ∃ l ∈ ls, config.layerOf l.key = n)) ∧
        (Subtree.AllReadable store config node.entries →
          Subtree.AllReadable store config top.entries) := by
  induction layer generalizing t node with
  | zero =>
    rw [Subtree.trim]
    split
    · next only hentries =>
      have hspells := h.spells
      rw [hentries] at hspells
      exact hspells.of_singleton.1.elim
    · next hpointer => exact Settles.pure ⟨⟨0, h, h.exists_leaf hpointer⟩, id⟩
  | succ layer ih =>
    rw [Subtree.trim]
    split
    · next only hentries =>
      have hspells := h.spells
      rw [hentries] at hspells
      obtain ⟨honly, -⟩ := hspells.of_singleton
      have hmem : .tree only ∈ node.entries := by
        rw [hentries]
        exact List.mem_cons_self
      apply ((honly.resolve hls hstore).mono fun havailable => havailable only hmem).bind
      rintro ⟨child, childCovers⟩ ⟨hchild, hreadable⟩
      apply (ih hchild childCovers).imp
      · exact fun havailable => hreadable (havailable only hmem)
      · rintro top ⟨htop, htopReadable⟩
        exact ⟨htop, fun havailable => htopReadable (hreadable (havailable only hmem))⟩
      · exact fun _ => id
    · next hpointer => exact Settles.pure ⟨⟨layer + 1, h, h.exists_leaf hpointer⟩, id⟩

end MerkleSearch
