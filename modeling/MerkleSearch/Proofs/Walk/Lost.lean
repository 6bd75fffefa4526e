import MerkleSearch.Proofs.Confined
import MerkleSearch.Proofs.Locality
import MerkleSearch.Proofs.Path
import MerkleSearch.Proofs.Walk.Outcome

/-!
This module contains what can still be read of a tree when its store has lost some blocks. A walk
goes the same way as with all blocks until it comes to a node that is lost; there it fails, or
leaves out what is below. The main statement is `Tree.Built.leaves_of_lost`: which leaves are still
reached, and which node is missed first.
-/

namespace MerkleSearch

namespace Blockstore

def lacks (store : Blockstore Id) (address : Cid) : Bool :=
  match (store.get? address).run with
  | .ok none => true
  | _ => false

/--
The store is what is left of another one that has lost some blocks.
-/
def RemainsOf (store whole : Blockstore Id) : Prop :=
  ∀ address, store.lacks address = true ∨ (store.get? address).run = (whole.get? address).run

variable {store whole : Blockstore Id} {address : Cid}

theorem lacks_iff : store.lacks address = true ↔ (store.get? address).run = .ok none := by
  unfold lacks
  split
  · next h => exact iff_of_true rfl h
  · next h => exact iff_of_false nofun h

theorem read_of_lacks (h : store.lacks address = true) :
    store.read address = throw (.missingBlock address) := by
  unfold read
  rw [show store.get? address = pure none from lacks_iff.1 h]
  rfl

theorem RemainsOf.read (h : store.RemainsOf whole) (haddress : store.lacks address = false) :
    store.read address = whole.read address := by
  have heq : store.get? address = whole.get? address :=
    (h address).resolve_left (by simp [haddress])
  unfold Blockstore.read
  rw [heq]

theorem RemainsOf.agrees {config : Config} {archive : Archive config} (h : store.RemainsOf whole)
    (hwhole : archive.Agrees whole) : archive.Agrees store := by
  intro address bytes block hget
  apply hwhole address bytes block
  rcases h address with hlacks | heq
  · cases hget.symm.trans (lacks_iff.1 hlacks)
  · rw [← heq, hget]

theorem remainsOf_insert {blocks : BlockMap} {bytes : Bytes} (h : blocks[address]? = none) :
    (snapshot blocks).RemainsOf (.snapshot (blocks.insert address bytes)) := by
  intro other
  by_cases hother : address = other
  · rw [← hother]
    exact .inl (lacks_iff.2 (congrArg Except.ok h))
  · refine .inr (congrArg Except.ok ?_)
    rw [Std.TreeMap.getElem?_insert, if_neg (by simpa using hother)]

end Blockstore

variable {config : Config} {archive : Archive config} {store whole : Blockstore Id}
variable {layer height : Nat} {key : String} {ls : List Leaf} {l : Leaf} {t : Subtree} {tree : Tree}
variable {es vs us : List NodeEntry} {address : Cid} {onMissing : OnMissing}
variable {outcome : Except Error Unit} {ns : List Node} {value? : Option Cid}

namespace Subtree

theorem resolve_of_lacks {hint : Hint} (hhint : hint ≠ .unknown 0)
    (h : store.lacks address = true) :
    ((unresolved address hint).resolve store config).run = .error (.missingBlock address) := by
  unfold resolve
  dsimp only
  rw [dif_neg hhint, Blockstore.read_of_lacks h]
  rfl

theorem resolve_remains (hremains : store.RemainsOf whole)
    (haddress : ∀ address hint, t = .unresolved address hint → store.lacks address = false) :
    t.resolve store config = t.resolve whole config := by
  cases t with
  | resolved node => rfl
  | unresolved address hint =>
    unfold resolve
    dsimp only
    rw [hremains.read (haddress address hint rfl)]

theorem resolve_remains_or_lacks {n : { node : Node // t.Covers node }}
    (hremains : store.RemainsOf whole) (hn : (t.resolve whole config).run = .ok n) :
    (t.resolve store config).run = .ok n ∨ ∃ address,
      t.address config = .ok address ∧ store.lacks address = true ∧
      (t.resolve store config).run = .error (.missingBlock address) := by
  by_cases hlost : ∃ address hint, t = .unresolved address hint ∧ store.lacks address = true
  · obtain ⟨address, hint, rfl, hlacks⟩ := hlost
    exact .inr ⟨address, rfl, hlacks, resolve_of_lacks (resolve_unresolved hn).1 hlacks⟩
  · rw [resolve_remains hremains]
    · exact .inl hn
    · intro address hint ht
      rw [← Bool.not_eq_true]
      exact fun hlacks => hlost ⟨address, hint, ht, hlacks⟩

theorem Stored.not_lacks {n : { node : Node // t.Covers node }} (ht : t.Stored)
    (hn : (t.resolve store config).run = .ok n) (haddress : t.address config = .ok address) :
    store.lacks address = false := by
  obtain ⟨_, hint, rfl⟩ := ht
  cases haddress
  obtain ⟨-, bytes, -, hget, -⟩ := resolve_unresolved hn
  rw [← Bool.not_eq_true, Blockstore.lacks_iff, hget]
  exact nofun

theorem resolve_of_not_lacks {n : { node : Node // t.Covers node }}
    (hremains : store.RemainsOf whole) (hn : (t.resolve whole config).run = .ok n)
    (haddress : t.address config = .ok address) (hkept : store.lacks address = false) :
    (t.resolve store config).run = .ok n := by
  rcases resolve_remains_or_lacks hremains hn with hn | ⟨address', haddress', hlacks, -⟩
  · exact hn
  · cases haddress.symm.trans haddress'
    rw [hkept] at hlacks
    cases hlacks

theorem resolve_whole {n n' : { node : Node // t.Covers node }} (hremains : store.RemainsOf whole)
    (hn : (t.resolve whole config).run = .ok n) (hn' : (t.resolve store config).run = .ok n') :
    n' = n := by
  rcases resolve_remains_or_lacks hremains hn with hn | ⟨_, -, -, he⟩
  · exact Except.ok.inj (hn'.symm.trans hn)
  · cases hn'.symm.trans he

theorem not_contains_of_error {e : Error} (he : (t.resolve store config).run = .error e) :
    ¬t.Contains store config l := by
  rintro ⟨node, hnode, -⟩
  cases hnode with
  | here hn => cases he.symm.trans hn
  | deeper hn => cases he.symm.trans hn

end Subtree

namespace Walked

theorem exists_followed_start (h : Walked whole config es vs) (hremains : store.RemainsOf whole) :
    ∃ us outcome, Followed store config .fail es us outcome ∧ us <+: vs := by
  induction h with
  | nil => exact ⟨[], _, .nil, [], rfl⟩
  | leaf _ ih =>
    obtain ⟨us, outcome, hus, hstart⟩ := ih
    exact ⟨_, _, .leaf hus, List.cons_prefix_cons.2 ⟨rfl, hstart⟩⟩
  | tree hn _ ih =>
    rcases Subtree.resolve_remains_or_lacks hremains hn with hkept | ⟨address, -, -, he⟩
    · obtain ⟨us, outcome, hus, hstart⟩ := ih
      exact ⟨_, _, .tree hkept hus, List.cons_prefix_cons.2 ⟨rfl, hstart⟩⟩
    · exact ⟨[], _, .fail he id, _, rfl⟩

theorem exists_pointers (h : Walked store config es vs) (hstored : ∀ c, .tree c ∈ es → c.Stored) :
    ∃ pointers,
      List.Forall₂ (fun t c => t.address config = .ok c) (vs.filterMap Entry.tree?) pointers := by
  induction h with
  | nil => exact ⟨[], .nil⟩
  | leaf _ ih => exact ih fun c hc => hstored c (List.mem_cons_of_mem _ hc)
  | @tree t es vs n hn _ ih =>
    have ht := hstored t List.mem_cons_self
    obtain ⟨pointers, hpointers⟩ :=
      ih fun c hc => (List.mem_append.1 hc).elim ((ht.checked hn).unresolved c)
      fun hc => hstored c (List.mem_cons_of_mem _ hc)
    obtain ⟨address, hint, rfl⟩ := ht
    exact ⟨address :: pointers, .cons (Subtree.address_of_resolve hn) hpointers⟩

theorem exists_followed_find (h : Walked whole config es vs)
    (hstored : ∀ c, .tree c ∈ es → c.Stored) (hremains : store.RemainsOf whole)
    {pointers : List Cid}
    (hpointers : List.Forall₂ (fun t c => t.address config = .ok c) (vs.filterMap Entry.tree?)
      pointers) :
    ∃ us, (pointers.find? store.lacks = none → us = vs) ∧ Followed store config .fail es us
      (match pointers.find? store.lacks with
        | some address => .error (.missingBlock address)
        | none => .ok ()) := by
  induction h generalizing pointers with
  | nil =>
    cases hpointers
    exact ⟨[], fun _ => rfl, .nil⟩
  | leaf _ ih =>
    obtain ⟨us, hall, hus⟩ := ih (fun c hc => hstored c (List.mem_cons_of_mem _ hc)) hpointers
    exact ⟨_, fun hnone => congrArg _ (hall hnone), .leaf hus⟩
  | @tree t es vs n hn _ ih =>
    have ht := hstored t List.mem_cons_self
    cases hpointers with
    | @cons _ address _ pointers haddress hpointers =>
      have haddress : t.address config = .ok address :=
        (Subtree.address_of_resolve hn).symm.trans haddress
      cases hlacks : store.lacks address with
      | true =>
        rw [List.find?_cons_of_pos hlacks]
        obtain ⟨_, hint, rfl⟩ := ht
        cases haddress
        exact ⟨[], nofun,
          .fail (Subtree.resolve_of_lacks (Subtree.resolve_unresolved hn).1 hlacks) id⟩
      | false =>
        rw [List.find?_cons_of_neg (by simp [hlacks])]
        obtain ⟨us, hall, hus⟩ :=
          ih (fun c hc => (List.mem_append.1 hc).elim ((ht.checked hn).unresolved c)
          fun hc => hstored c (List.mem_cons_of_mem _ hc)) hpointers
        exact ⟨_, fun hnone => congrArg _ (hall hnone),
          .tree (Subtree.resolve_of_not_lacks hremains hn haddress hlacks) hus⟩

theorem exists_followed_skip {es vs : List NodeEntry} (h : Walked whole config es vs)
    (hremains : store.RemainsOf whole) :
    ∃ us, Followed store config .skip es us (.ok ()) ∧
      (Entry.leaves us).Sublist (Entry.leaves vs) := by
  match es, vs, h with
  | [], _, .nil => exact ⟨[], .nil, .slnil⟩
  | .leaf l :: rest, _, .leaf h =>
    obtain ⟨us, hus, hsub⟩ := h.exists_followed_skip hremains
    exact ⟨_, .leaf hus, hsub.cons_cons l⟩
  | .tree t :: rest, _, .tree (n := n) hn h =>
    rcases Subtree.resolve_remains_or_lacks hremains hn with hkept | ⟨address, -, -, he⟩
    · obtain ⟨us, hus, hsub⟩ := h.exists_followed_skip hremains
      exact ⟨_, .tree hkept hus, hsub⟩
    · obtain ⟨below, behind, rfl, -, h⟩ := h.of_append
      obtain ⟨us, hus, hsub⟩ := h.exists_followed_skip hremains
      refine ⟨us, .skip he trivial hus, hsub.trans ?_⟩
      rw [Entry.leaves_tree, Entry.leaves_append]
      exact List.sublist_append_right ..
termination_by (⟨es⟩ : Pending)
decreasing_by
  · exact .drop
  · exact .expand n.property
  · exact .drop

end Walked

theorem Followed.mem_leaves_iff (h : Followed store config onMissing es vs (.ok ())) :
    l ∈ Entry.leaves vs ↔ .leaf l ∈ es ∨ ∃ c, .tree c ∈ es ∧ c.Contains store config l := by
  generalize houtcome : Except.ok () = outcome at h
  induction h with
  | nil => simp
  | leaf _ ih => simp [ih houtcome, or_assoc]
  | tree hn _ ih =>
    rw [Entry.leaves_tree, ih houtcome]
    simp only [List.mem_append, List.mem_cons, reduceCtorEq, false_or, Entry.tree.injEq,
      or_and_right, exists_or, exists_eq_left, Subtree.contains_iff hn]
    rw [or_or_or_comm, or_left_comm, or_assoc]
  | skip he _ _ ih =>
    simp [ih houtcome, Subtree.not_contains_of_error he]
  | fail => cases houtcome

namespace Tree

theorem run_leaves_of_followed (h : Followed store tree.config .fail [.tree tree.root] vs outcome) :
    (tree.leaves store).run = outcome.map fun _ => Entry.leaves vs := by
  unfold leaves
  rw [run_complete, gather_of_followed _ h]
  rfl

theorem run_reachableLeaves_of_followed
    (h : Followed store tree.config .skip [.tree tree.root] vs outcome) :
    (tree.reachableLeaves store).run = outcome.map fun _ => Entry.leaves vs := by
  unfold reachableLeaves
  rw [run_complete, gather_of_followed _ h]
  rfl

end Tree

theorem Spells.mem_of_contains (h : Spells config (Subtree.Holds archive layer) layer es ls)
    (hls : Listing ls) (hstore : archive.Agrees store)
    (hl : .leaf l ∈ es ∨ ∃ c, .tree c ∈ es ∧ c.Contains store config l) :
    l ∈ ls := by
  rcases hl with hl | ⟨c, hc, hl⟩
  · exact (h.leaf_mem_iff.1 hl).1
  · obtain ⟨ts, hts, -, -, hsub⟩ := h.of_tree_mem hc
    cases layer with
    | zero => exact hts.elim
    | succ layer => exact hsub.subset (hts.mem_of_contains (hls.sublist hsub) hstore hl)

theorem NodeOf.Holds.contains_gap {node : Node} {c : Subtree}
    (h : node.Holds archive (Subtree.Holds archive layer) layer ls) (hls : Listing ls)
    (hstore : archive.Agrees store) (hfound : (node.gap l.key).found? l.key = none)
    (hsubtree : (node.gap l.key).subtree = some c) :
    (.leaf l ∈ node.entries ∨ ∃ c, .tree c ∈ node.entries ∧ c.Contains store config l) ↔
      c.Contains store config l := by
  constructor
  · intro hl
    obtain ⟨bs, ss, as, rfl, parts⟩ := h.exists_parts hls l.key
    have hbefore :=
      fun hl => parts.before_lt l (parts.before.mem_of_contains hls.left.left hstore hl)
    have hafter :=
      fun hl => parts.lt_after hls.right hfound l (parts.after.mem_of_contains hls.right hstore hl)
    simp only [NodeOf.entries_eq_of_gap hsubtree, List.mem_append, List.mem_cons, reduceCtorEq,
      false_or, Entry.tree.injEq] at hl
    rcases hl with (hl | hl) | ⟨d, hd | rfl | hd, hl⟩
    · exact (lt_irrefl _ (hbefore (.inl hl))).elim
    · exact (lt_irrefl _ (hafter (.inl hl))).elim
    · exact (lt_irrefl _ (hbefore (.inr ⟨d, hd, hl⟩))).elim
    · exact hl
    · exact (lt_irrefl _ (hafter (.inr ⟨d, hd, hl⟩))).elim
  · exact fun hl => .inr ⟨c, NodeOf.tree_mem_of_gap hsubtree, hl⟩

namespace Subtree

theorem contains_remains_iff {n : { node : Node // t.Covers node }}
    (hremains : store.RemainsOf whole) (ht : t.Stored) (hn : (t.resolve whole config).run = .ok n)
    (haddress : n.val.addressIn config = .ok address) :
    t.Contains store config l ↔
      store.lacks address = false ∧
      (.leaf l ∈ n.val.entries ∨ ∃ c, .tree c ∈ n.val.entries ∧ c.Contains store config l) := by
  have haddress : t.address config = .ok address := (address_of_resolve hn).symm.trans haddress
  constructor
  · intro hl
    cases hn' : (t.resolve store config).run with
    | error e => exact (not_contains_of_error hn' hl).elim
    | ok n' =>
      cases resolve_whole hremains hn hn'
      exact ⟨ht.not_lacks hn' haddress, (contains_iff hn').1 hl⟩
  · rintro ⟨hkept, hl⟩
    exact (contains_iff (resolve_of_not_lacks hremains hn haddress hkept)).2 hl

namespace Way

theorem exists_addresses (h : t.Way store config key ns value?) (ht : t.Stored) :
    ∃ cs, List.Forall₂ (fun n c => n.addressIn config = .ok c) ns cs := by
  induction h with
  | found hn =>
    obtain ⟨address, hint, rfl⟩ := ht
    exact ⟨[address], .cons (address_of_resolve hn) .nil⟩
  | deeper hn _ hsubtree _ ih =>
    obtain ⟨cs, hcs⟩ := ih ((ht.checked hn).unresolved _ (NodeOf.tree_mem_of_gap hsubtree))
    obtain ⟨address, hint, rfl⟩ := ht
    exact ⟨address :: cs, .cons (address_of_resolve hn) hcs⟩
  | missed hn =>
    obtain ⟨address, hint, rfl⟩ := ht
    exact ⟨[address], .cons (address_of_resolve hn) .nil⟩

theorem contains_iff (h : t.Way whole config l.key ns value?) (hvalue : value? = some l.value)
    (hholds : t.Holds archive height ls) (hls : Listing ls) (hwhole : archive.Agrees whole)
    (ht : t.Stored) (hremains : store.RemainsOf whole) {cs : List Cid}
    (hcs : List.Forall₂ (fun n c => n.addressIn config = .ok c) ns cs) :
    t.Contains store config l ↔ ∀ address ∈ cs, store.lacks address = false := by
  induction h generalizing height ls cs with
  | @found t n leaf rest hn hfound =>
    obtain ⟨c, _, hc, hnil, rfl⟩ := List.forall₂_cons_left_iff.1 hcs
    cases hnil
    obtain ⟨hafter, hkey⟩ := Gap.mem_of_found? hfound
    have hleaf : leaf = l := by
      rw [Option.some.injEq] at hvalue
      cases leaf
      cases hkey
      cases hvalue
      rfl
    have hmem : .leaf l ∈ n.val.entries := by
      rw [← Gap.entries_of l.key n.val.entries, Gap.entries, Gap.fill, List.mem_append]
      apply Or.inr
      rw [show (Gap.of l.key n.val.entries).after = _ from hafter, hleaf]
      exact List.mem_cons_self
    rw [contains_remains_iff hremains ht hn hc, List.forall_mem_singleton]
    exact and_iff_left (.inl hmem)
  | @deeper t c n ns value? hn hfound hsubtree _ ih =>
    obtain ⟨address, rest, hc, hrest, rfl⟩ := List.forall₂_cons_left_iff.1 hcs
    cases height with
    | zero => exact hholds.elim
    | succ layer =>
      have hnode := hholds.of_resolve hls hwhole hn
      obtain ⟨ts, hts, hsub, hc'⟩ := hnode.exists_group (NodeOf.tree_mem_of_gap hsubtree)
      have hbelow := (ht.checked hn).unresolved c (NodeOf.tree_mem_of_gap hsubtree)
      rw [contains_remains_iff hremains ht hn hc,
        hnode.contains_gap hls (hremains.agrees hwhole) hfound hsubtree,
        ih hvalue hc' (hls.sublist hsub) hbelow hrest, List.forall_mem_cons]
  | missed => cases hvalue

end Way

end Subtree

theorem Tree.Built.leaves_of_lost {saved : Blockstore Id} {root : Cid} (h : tree.Built archive)
    (hcovers : archive.Covers tree) (hsave : (tree.save saved).run = .ok root)
    (hwhole : archive.Agrees whole) (hreadable : (Tree.load root config).Readable whole) :
    ∃ ls vs pointers, ((Tree.load root config).leaves whole).run = .ok ls ∧
      ls.Pairwise (·.key < ·.key) ∧
      ((Tree.load root config).entries whole).run = .ok vs ∧
      List.Forall₂ (fun t c => t.address config = .ok c) (vs.filterMap Entry.tree?) pointers ∧
      ∀ store : Blockstore Id, store.RemainsOf whole →
        ((Tree.load root config).leaves store).run =
          (match pointers.find? store.lacks with
            | some address => .error (.missingBlock address)
            | none => .ok ls) ∧
        ∃ rs, ((Tree.load root config).reachableLeaves store).run = .ok rs ∧ rs.Sublist ls ∧
          ∀ l ∈ ls,
            ∃ nodes, ((Tree.load root config).path whole l.key).run = .ok (nodes ++ [l.value]) ∧
            (l ∈ rs ↔ ∀ address ∈ nodes, store.lacks address = false) := by
  obtain ⟨ls, hls⟩ := (h.load hcovers hsave).holds
  obtain ⟨layer, -, hroot⟩ := hls.root
  have ht : (Tree.load root config).root.Stored := ⟨_, _, rfl⟩
  have hstored : ∀ c, .tree c ∈ [Entry.tree (Tree.load root config).root] → c.Stored := by
    intro c hc
    cases List.mem_singleton.1 hc
    exact ht
  have hleaves := hls.leaves_run hwhole hreadable
  obtain ⟨vs, hvs, rfl⟩ := run_leaves_eq_ok_iff.1 hleaves
  obtain ⟨pointers, hpointers⟩ := hvs.exists_pointers hstored
  refine ⟨_, vs, pointers, hleaves, hls.listing.sorted, run_entries_eq_ok_iff.2 hvs, hpointers,
    fun store hremains => ⟨?_, ?_⟩⟩
  · obtain ⟨us, hall, hus⟩ := hvs.exists_followed_find hstored hremains hpointers
    rw [run_leaves_of_followed hus]
    cases hfind : pointers.find? store.lacks with
    | some address => rfl
    | none =>
      rw [hall hfind]
      rfl
  · obtain ⟨us, hus, hsub⟩ := hvs.exists_followed_skip hremains
    refine ⟨_, run_reachableLeaves_of_followed hus, hsub, fun l hl => ?_⟩
    obtain ⟨ns, value?, hway⟩ := hreadable.exists_way l.key
    obtain ⟨nodes, hnodes⟩ := hway.exists_addresses ht
    have hvalue : value? = some l.value :=
      ((hroot.get? hls.listing hwhole).of_ok hway.get?_run).trans (hls.listing.value?_eq_some.2 hl)
    refine ⟨nodes, ?_, ?_⟩
    · refine (hway.path_run hnodes).trans ?_
      rw [hvalue]
      rfl
    · rw [hus.mem_leaves_iff,
        ← hway.contains_iff hvalue hroot hls.listing hwhole ht hremains hnodes]
      simp

theorem Sample.remains_upperShelf : (Blockstore.snapshot upperShelf).RemainsOf (.snapshot shelf) :=
  Blockstore.remainsOf_insert (by cbv)

theorem Sample.path_low_load :
    ((Tree.load (pointer 2) Sample.config).path (.snapshot shelf) low.key).run =
      .ok ([pointer 2, pointer 1] ++ [low.value]) := by
  obtain ⟨_, hhigh⟩ := exists_resolve_high_shelf
  obtain ⟨_, hlow⟩ := exists_resolve_low_shelf
  have hfound : (storedLowNode.gap low.key).found? low.key = some (low, []) := by rfl
  exact (Subtree.Way.deeper hhigh rfl rfl (.found hlow hfound)).path_run
    (.cons rfl (.cons rfl .nil))

theorem Sample.path_high_load :
    ((Tree.load (pointer 2) Sample.config).path (.snapshot shelf) high.key).run =
      .ok ([pointer 2] ++ [high.value]) := by
  obtain ⟨_, hhigh⟩ := exists_resolve_high_shelf
  have hfound : (storedHighNode.gap high.key).found? high.key = some (high, []) := by rfl
  exact (Subtree.Way.found hhigh hfound).path_run (.cons rfl .nil)

theorem Tree.Built.leaves_of_lost_of_upperShelf :
    ((Tree.load (Sample.pointer 2) Sample.config).leaves (.snapshot Sample.upperShelf)).run =
      .error (.missingBlock (Sample.pointer 1)) ∧
    ((Tree.load (Sample.pointer 2) Sample.config).reachableLeaves
      (.snapshot Sample.upperShelf)).run = .ok [Sample.high] := by
  obtain ⟨ls, vs, pointers, hleaves, -, hvs, hpointers, hlost⟩ :=
    leaves_of_lost Sample.built Sample.covers Sample.save_tree Sample.agrees_shelf
      Sample.readable_shelf
  cases hvs.symm.trans (run_entries_eq_ok_iff.2 Sample.walked_shelf)
  cases hleaves.symm.trans Sample.leaves_shelf
  obtain ⟨hfail, rs, hrs, hsub, hmem⟩ := hlost _ Sample.remains_upperShelf
  constructor
  · change List.Forall₂ _ [Subtree.resolved Sample.storedHighNode, .resolved Sample.storedLowNode]
      pointers at hpointers
    obtain ⟨_, _, hhigh, hrest, rfl⟩ := List.forall₂_cons_left_iff.1 hpointers
    obtain ⟨_, _, hlow, hnil, rfl⟩ := List.forall₂_cons_left_iff.1 hrest
    cases hhigh
    cases hlow
    cases hnil
    exact hfail.trans (by cbv)
  · have hlow : Sample.low ∉ rs := by
      obtain ⟨nodes, hpath, hreached⟩ := hmem Sample.low List.mem_cons_self
      rw [hreached,
        List.append_cancel_right (Except.ok.inj (hpath.symm.trans Sample.path_low_load))]
      decide +kernel
    have hhigh : Sample.high ∈ rs := by
      obtain ⟨nodes, hpath, hreached⟩ :=
        hmem Sample.high (List.mem_cons_of_mem _ List.mem_cons_self)
      rw [hreached,
        List.append_cancel_right (Except.ok.inj (hpath.symm.trans Sample.path_high_load))]
      decide +kernel
    rw [hrs]
    cases hsub with
    | cons_cons => exact (hlow List.mem_cons_self).elim
    | cons _ hsub =>
      cases hsub with
      | cons _ hsub =>
        cases hsub
        cases hhigh
      | cons_cons _ hsub =>
        cases hsub
        rfl

end MerkleSearch
