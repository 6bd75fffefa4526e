import MerkleSearch.Proofs.Packed
import MerkleSearch.Proofs.Rejoin

/-!
This module contains that splitting and merging are inverse to each other, up to the addresses of
the nodes on the way to the key. The main statement is `Subtree.split_merge_restores`. These
addresses come back as well, unless a node was read from a block that would have been written
differently; there is such a block.
-/

namespace MerkleSearch

theorem NodeOf.addressIn_of_entries {config : Config} {node node' : Node}
    (haddress : node'.address = none)
    (hentries : entryAddresses config node'.entries = entryAddresses config node.entries) :
    node'.addressIn config = (do return (← node.block config).address) := by
  have hblock : node'.block config = node.block config := by
    rw [block, block, record, record, hentries]
  rw [← hblock]
  exact Subtree.address_resolved haddress

namespace Subtree

variable {config : Config} {store : Blockstore Id} {layer height : Nat} {ls : List Leaf}
variable {key : String} {t t' : Subtree} {ns ns' : List Node}

/--
The second subtree is the first one again, where the nodes on the way to the place of the key have
been made anew. They have the addresses that they had just if each of them was stored as it is
written.
-/
structure Restores (store : Blockstore Id) (config : Config) (key : String)
    (t t' : Subtree) : Prop where
  remade : Remade store config key t t'
  addresses : ∃ ns ns', t.Way store config key ns none ∧ t'.Way store config key ns' none ∧
    (ns.map (·.addressIn config) = ns'.map (·.addressIn config) ↔
      ∀ n ∈ ns, n.addressIn config = (do return (← n.block config).address))

theorem Way.exists_head {value? : Option Cid} (h : t.Way store config key ns value?) :
    ∃ n rest, ns = n :: rest ∧ n.addressIn config = t.address config := by
  cases h with
  | found hn => exact ⟨_, _, rfl, address_of_resolve hn⟩
  | deeper hn => exact ⟨_, _, rfl, address_of_resolve hn⟩
  | missed hn => exact ⟨_, _, rfl, address_of_resolve hn⟩

theorem Way.address_eq_of_map_eq {value? value'? : Option Cid}
    (h : t.Way store config key ns value?) (h' : t'.Way store config key ns' value'?)
    (hmap : ns.map (·.addressIn config) = ns'.map (·.addressIn config)) :
    t.address config = t'.address config := by
  obtain ⟨n, rest, rfl, hn⟩ := h.exists_head
  obtain ⟨n', rest', rfl, hn'⟩ := h'.exists_head
  rw [List.map_cons, List.map_cons, List.cons.injEq] at hmap
  rw [← hn, ← hn']
  exact hmap.1

theorem Remade.restores (h : Remade store config key t t')
    (hshaped : t.Shaped store config height ls) (hls : ls.Pairwise (·.key < ·.key))
    (hkey : ∀ l ∈ ls, l.key ≠ key) :
    Restores store config key t t' := by
  refine ⟨h, ?_⟩
  induction h generalizing height ls with
  | @last t n node hn hsubtree hentries haddress =>
    cases height with
    | zero => exact hshaped.elim
    | succ layer =>
      obtain ⟨bs, ss, as, rfl, parts⟩ := (hshaped.of_resolve hn).exists_parts hls key
      have hfound := parts.found?_eq_none_of_ne fun l hl => hkey l (List.mem_append_right _ hl)
      have hgap : node.gap key = n.val.gap key := by rw [NodeOf.gap, hentries, NodeOf.gap]
      refine ⟨[n.val], [node], .missed hn hfound hsubtree, ?_, ?_⟩
      · rw [← hgap] at hfound hsubtree
        exact .missed (n := ⟨node, covers_resolved node⟩) rfl hfound hsubtree
      · have hsame : entryAddresses config node.entries = entryAddresses config n.val.entries := by
          rw [hentries]
        have hnode := NodeOf.addressIn_of_entries haddress hsame
        rw [List.map_singleton, List.map_singleton, hnode, List.cons.injEq,
          List.forall_mem_singleton]
        exact and_iff_left rfl
  | @through t c c' n node hn hsubtree hentries haddress _ _ ih =>
    cases height with
    | zero => exact hshaped.elim
    | succ layer =>
      obtain ⟨bs, ss, as, rfl, parts⟩ := (hshaped.of_resolve hn).exists_parts hls key
      have hfound := parts.found?_eq_none_of_ne fun l hl => hkey l (List.mem_append_right _ hl)
      rw [List.pairwise_append, List.pairwise_append] at hls
      obtain ⟨ns, ns', hway, hway', hiff⟩ := ih (parts.of_subtree_some hsubtree).1 hls.1.2.1
        fun l hl => hkey l (by simp [hl])
      have hgap : node.gap key = ⟨(n.val.gap key).before, some c', (n.val.gap key).after⟩ := by
        rw [NodeOf.gap, hentries]
        exact parts.of_fill parts (some c')
      refine ⟨n.val :: ns, node :: ns', .deeper hn hfound hsubtree hway, ?_, ?_⟩
      · refine .deeper (n := ⟨node, covers_resolved node⟩) rfl ?_ ?_ hway'
        · rw [hgap]
          exact hfound
        · rw [hgap]
      -- The address of the node is that of its block, as soon as the one below it has come back.
      · rw [List.map_cons, List.map_cons, List.cons.injEq, List.forall_mem_cons, ← hiff]
        apply and_congr_left
        intro hmap
        have hc := hway.address_eq_of_map_eq hway' hmap
        have hfill : n.val.entries = (n.val.gap key).fill [.tree c] := by
          rw [← Entry.ofTree?_some, ← hsubtree, NodeOf.fill_gap]
        have hsame : entryAddresses config node.entries = entryAddresses config n.val.entries := by
          rw [hfill, hentries]
          simp only [entryAddresses_eq_map, Gap.fill, List.map_append, List.map_singleton,
            Entry.map, hc]
        rw [NodeOf.addressIn_of_entries haddress hsame]

theorem split_merge_restores (store : Blockstore Id) (config : Config) (layer : Nat)
    (key : String) :
    (∀ t ls, t.Shaped store config (layer + 1) ls → ls.Pairwise (·.key < ·.key) →
      (∀ l ∈ ls, l.key ≠ key) →
      ∃ a b, (t.split store config key).run = .ok (a, b) ∧
        (a = none ↔ ∀ l ∈ ls, key < l.key) ∧ (b = none ↔ ∀ l ∈ ls, l.key < key) ∧
        (∀ left, a = some left → left.Shaped store config (layer + 1) (Leaves.before key ls)) ∧
        (∀ right, b = some right → right.Shaped store config (layer + 1) (Leaves.after key ls)) ∧
        ∀ left right, a = some left → b = some right →
          ∃ node, (left.merge store config right).run = .ok node ∧
            (resolved node).Shaped store config (layer + 1) ls ∧
            Restores store config key t (.resolved node)) ∧
    ∀ left right ls rs, left.Shaped store config (layer + 1) ls →
      right.Shaped store config (layer + 1) rs →
      ls ≠ [] → rs ≠ [] → ls.Pairwise (·.key < ·.key) → rs.Pairwise (·.key < ·.key) →
      (∀ l ∈ ls, l.key < key) → (∀ l ∈ rs, key < l.key) →
      ∃ node left' right', (left.merge store config right).run = .ok node ∧
        (resolved node).Shaped store config (layer + 1) (ls ++ rs) ∧
        ((resolved node).split store config key).run = .ok (some left', some right') ∧
        left'.Shaped store config (layer + 1) ls ∧ right'.Shaped store config (layer + 1) rs ∧
        Restores store config key left left' ∧ Restores store config key right right' := by
  constructor
  · intro t ls hshaped hls hkey
    obtain ⟨a, b, hcut⟩ := hshaped.exists_cut key
    obtain ⟨ha, hb⟩ := hcut.spells hshaped hls hkey
    refine ⟨a, b, hcut.split_eq, ?_, ?_, ?_, ?_, ?_⟩
    · rw [← Entry.ofTree?_eq_nil, ha.eq_nil_iff, Leaves.before_eq_nil_iff hkey]
    · rw [← Entry.ofTree?_eq_nil, hb.eq_nil_iff, Leaves.after_eq_nil_iff hkey]
    · rintro left rfl
      exact ha.of_singleton.1
    · rintro right rfl
      exact hb.of_singleton.1
    · rintro left right rfl rfl
      obtain ⟨hleft, hlne, -⟩ := ha.of_singleton
      obtain ⟨hright, hrne, -⟩ := hb.of_singleton
      have hne : ls ≠ [] := fun hnil => hlne (by rw [hnil]; rfl)
      obtain ⟨t', hrejoins, hremade⟩ := hcut.exists_rejoins hshaped hls hkey hne
      cases hrejoins with
      | @both _ _ node hmerge =>
        obtain ⟨node', hmerge', hmerged, -⟩ :=
          hleft.exists_merged hright hlne hrne (hls.sublist Leaves.before_sublist)
          (hls.sublist Leaves.after_sublist) (fun l hl => (Leaves.mem_before.1 hl).2) fun l hl =>
            (Leaves.mem_after.1 hl).2
        cases hmerge.symm.trans hmerge'
        rw [Leaves.before_append_after hls hkey] at hmerged
        exact ⟨node, hmerge, hmerged, hremade.restores hshaped hls hkey⟩
  · intro left right ls rs hleft hright hlne hrne hls hrs hlt hgt
    obtain ⟨node, hmerge, hshaped, left', right', hcut, hremade, hremade'⟩ :=
      hleft.exists_merged hright hlne hrne hls hrs hlt hgt
    obtain ⟨hl, hr⟩ := hcut.spells_append hshaped hls hrs hlt hgt
    refine ⟨node, left', right', hmerge, hshaped, hcut.split_eq, hl.of_singleton.1,
      hr.of_singleton.1, ?_, ?_⟩
    · exact hremade.restores hleft hls fun l hl => (hlt l hl).ne
    · exact hremade'.restores hright hrs fun l hl => (hgt l hl).ne'

end Subtree

theorem Sample.split_merge_load :
    ∃ left right node left' right',
      ((Tree.load (pointer 2) Sample.config).root.split (.snapshot shelf) Sample.config
        "a/b b").run = .ok (some left, some right) ∧
    (left.merge (.snapshot shelf) Sample.config right).run = .ok node ∧
    Subtree.Restores (.snapshot shelf) Sample.config "a/b b"
      (Tree.load (pointer 2) Sample.config).root (.resolved node) ∧
    ((Subtree.resolved node).split (.snapshot shelf) Sample.config "a/b b").run =
      .ok (some left', some right') ∧
    Subtree.Restores (.snapshot shelf) Sample.config "a/b b" left left' ∧
    Subtree.Restores (.snapshot shelf) Sample.config "a/b b" right right' := by
  have hbuilt : (Tree.load (pointer 2) Sample.config).Built Sample.archive :=
    .load built covers save_tree
  have hreadable := readable_load (Blockstore.run_get?_snapshot_eq get?_shelf.1)
    (Blockstore.run_get?_snapshot_eq get?_shelf.2)
  obtain ⟨ls, hls⟩ := hbuilt.holds
  have hleaves := hls.leaves_run agrees_shelf hreadable
  obtain rfl : ls = [Sample.low, Sample.high] :=
    Except.ok.inj (hleaves.symm.trans (Tree.run_leaves_eq_ok_iff.2 ⟨_, walked_shelf, rfl⟩))
  obtain ⟨layer, -, hroot⟩ := hls.root
  have hshaped := hroot.shaped hls.listing agrees_shelf hreadable
  obtain ⟨hsplit, hmerge⟩ :=
    Subtree.split_merge_restores (.snapshot shelf) Sample.config layer "a/b b"
  obtain ⟨a, b, hparts, ha, hb, hleft, hright, hboth⟩ :=
    hsplit _ _ hshaped hls.listing.sorted (by decide)
  obtain ⟨left, rfl⟩ := Option.ne_none_iff_exists'.1 (mt ha.1 (by decide))
  obtain ⟨right, rfl⟩ := Option.ne_none_iff_exists'.1 (mt hb.1 (by decide))
  obtain ⟨node, hnode, -, hrestores⟩ := hboth left right rfl rfl
  obtain ⟨node', left', right', hnode', -, hagain, -, -, hrestores'⟩ :=
    hmerge left right [Sample.low] [Sample.high]
    (hleft left rfl) (hright right rfl) (by decide) (by decide) (by decide) (by decide) (by decide)
      (by decide)
  cases hnode.symm.trans hnode'
  exact ⟨left, right, node, left', right', hparts, hnode, hrestores, hagain, hrestores'⟩

namespace Loose

/-!
The same record in a store, where it is the block of a node with two keys.
-/

open Sample (low high)

def address : Cid := Cid.ofBlock Cid.dagCbor record.toCbor

def shelf : BlockMap := ({} : BlockMap).insert address record.toCbor

def node : Node where
  entries := [.leaf ⟨"a/b", low.value⟩, .leaf ⟨"a/d", high.value⟩]
  layer := some 0
  address := some address

def tight : NodeRecord :=
  ⟨none, [⟨0, Bytes.ofText "a/b", low.value, none⟩, ⟨2, Bytes.ofText "d", high.value, none⟩]⟩

theorem address_ne : Cid.ofBlock Cid.dagCbor tight.toCbor ≠ address := by
  unfold address
  simp only [NodeRecord.toCbor_eq, tight, record, List.map_cons, List.map_nil, LeafRecord.toCbor_eq]
  decide +kernel

theorem exists_resolve :
    ∃ covers, ((Tree.load address {}).root.resolve (.snapshot shelf) {}).run =
      .ok ⟨node, covers⟩ := by
  have hget : shelf[address]? = some record.toCbor := Std.TreeMap.getElem?_insert_self
  have hwritable : record.Writable := ⟨by decide, by decide⟩
  have hsound : record.Sound {} (Hint.ofLayer? none).layer? texts := sound
  have hlayer : NodeRecord.layer? {} (Hint.ofLayer? none).layer? texts = some 0 := by decide +kernel
  have hstored : NodeOf.ofStored {} address (.ofLayer? none) record = .ok node := by
    rw [NodeOf.ofStored, NodeOf.ofRecord_of_sound hsound, NodeOf.described, hlayer]
    rfl
  exact Subtree.exists_resolve_unresolved (by decide) (Blockstore.run_get?_snapshot_eq hget) rfl
    (NodeCodec.decodeCbor_toCbor hwritable) hstored

def leaves : List Leaf := [⟨"a/b", low.value⟩, ⟨"a/d", high.value⟩]

theorem shaped : (Tree.load address {}).root.Shaped (.snapshot shelf) {} 1 leaves := by
  obtain ⟨covers, hn⟩ := exists_resolve
  have hlayer : ∀ l ∈ leaves, ({} : Config).layerOf l.key = 0 := by decide +kernel
  have hapart : node.entries.IsChain Entry.Apart := by simp [node, Entry.Apart, Entry.isTree]
  refine ⟨_, hn, .inr rfl, hapart, ?_⟩
  exact .leaf (hlayer _ (by simp [leaves])) (.leaf (hlayer _ (by simp [leaves])) .nil)

theorem block_eq {merged : Node} (h : merged.entries = node.entries) :
    merged.block {} = .ok ⟨Cid.ofBlock Cid.dagCbor tight.toCbor, tight.toCbor⟩ := by
  have hrecord : merged.record {} = .ok tight := by
    rw [NodeOf.record, h]
    decide
  rw [NodeOf.block, hrecord]
  rfl

/--
Merging what a split has parted gives the node another address.
-/
theorem merged_elsewhere :
    ∃ left right merged, (Tree.load address {}).root.Shaped (.snapshot shelf) {} 1 leaves ∧
      leaves.Pairwise (·.key < ·.key) ∧ (∀ l ∈ leaves, l.key ≠ "a/c") ∧
      ((Tree.load address {}).root.split (.snapshot shelf) {} "a/c").run =
        .ok (some left, some right) ∧
      (left.merge (.snapshot shelf) {} right).run = .ok merged ∧
      (Subtree.resolved merged).address {} ≠ (Tree.load address {}).root.address {} := by
  obtain ⟨covers, hn⟩ := exists_resolve
  have hsorted : leaves.Pairwise (·.key < ·.key) := by decide
  have hkey : ∀ l ∈ leaves, l.key ≠ "a/c" := by decide
  have hcut :
      (Tree.load address {}).root.Cut (.snapshot shelf) {} "a/c"
        (some (.ofEntries [.leaf ⟨"a/b", low.value⟩] (some 0)))
        (some (.ofEntries [.leaf ⟨"a/d", high.value⟩] (some 0))) :=
    .between hn rfl
  obtain ⟨t', hrejoins, hremade⟩ := hcut.exists_rejoins shaped hsorted hkey (by decide)
  cases hrejoins with
  | @both _ _ merged hmerge =>
    refine ⟨_, _, merged, shaped, hsorted, hkey, hcut.split_eq, hmerge, ?_⟩
    cases hremade with
    | last hn' _ hentries haddress =>
      cases hn.symm.trans hn'
      rw [Subtree.address_resolved haddress, block_eq hentries]
      exact fun heq => address_ne (Except.ok.inj heq)
    | through hn' hsubtree =>
      cases hn.symm.trans hn'
      cases hsubtree

end Loose

end MerkleSearch
