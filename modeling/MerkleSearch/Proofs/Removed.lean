import MerkleSearch.Proofs.References

/-!
This module contains what the difference of two trees says is no longer referred to. Only nodes are
counted: an address that is noted as gone has lost a reference, but it need not have lost all of
them if it is the value of several keys, or of a key that has been given the value of another one.
-/

namespace MerkleSearch

section

variable {config : Config} {archive : Archive config} {ls : List Leaf}
variable {us vs ps qs : List (Entry Extent)} {layer : Nat} {address : Cid} {l : Leaf}
variable {block : Block} {e : Extent}

namespace Extent

def named (config : Config) (us : List (Entry Extent)) (address : Cid) : Nat :=
  (nodes config us).countP fun e => (e.block config).toOption.any (·.address = address)

theorem named_nil : named config [] address = 0 := rfl

theorem named_leaf : named config (.leaf l :: us) address = named config us address := rfl

theorem named_append :
    named config (us ++ vs) address = named config us address + named config vs address := by
  rw [named, nodes_append, List.countP_append, ← named, ← named]

theorem named_skip (us : List (Entry Extent)) :
    named config (.tree e :: us) address =
      named config [.tree e] address + named config us address := by
  rw [← named_append, List.singleton_append]

theorem named_tree (h : canonicalBlock config layer ls = .ok block) :
    named config (.tree ⟨layer + 1, ls⟩ :: us) address =
      named config (entries config ⟨layer + 1, ls⟩ ++ us) address + if block.address =
      address then 1 else 0 := by
  have hblock : Extent.block config ⟨layer + 1, ls⟩ = .ok block := h
  rw [named, nodes_tree, List.countP_cons, hblock, named]
  simp [Except.toOption]

theorem named_pos_iff : 0 < named config us address ↔ Names config us address := by
  rw [named, List.countP_pos_iff, Names]
  constructor
  · rintro ⟨e, he, haddress⟩
    cases hblock : e.block config with
    | error =>
      rw [hblock] at haddress
      cases haddress
    | ok block =>
      rw [hblock] at haddress
      exact ⟨e, he, block, hblock, of_decide_eq_true haddress⟩
  · rintro ⟨e, he, block, hblock, haddress⟩
    refine ⟨e, he, ?_⟩
    rw [hblock]
    exact decide_eq_true haddress

theorem named_le_one (hus : ∀ e ∈ nodes config us, e.Written archive)
    (hnodup : (nodes config us).Nodup) :
    named config us address ≤ 1 := by
  rcases Nat.eq_zero_or_pos (named config us address) with hzero | hpos
  · rw [hzero]
    exact Nat.zero_le 1
  · obtain ⟨x, hx, block, hblock, rfl⟩ := named_pos_iff.1 hpos
    have hone : named config us block.address = (nodes config us).count x := by
      apply List.countP_congr
      intro e he
      obtain ⟨other, hother⟩ := (hus e he).exists_block
      rw [hother]
      constructor
      · intro haddress
        exact beq_iff_eq.2
          ((hus e he).eq_of_address_eq (hus x hx) hother hblock (of_decide_eq_true haddress))
      · intro heq
        cases eq_of_beq heq
        cases hother.symm.trans hblock
        exact decide_eq_true rfl
    rw [hone]
    exact List.nodup_iff_count_le_one.1 hnodup x

end Extent

namespace Diff

variable {d d' : Diff} {n : Int} {key : String} {prev value gone : Cid}

/--
An address has been noted `n` times more as that of a new node than as that of one that is gone, and
no value that is gone has it.
-/
structure Balanced (d : Diff) (address : Cid) (n : Int) : Prop where
  new : 0 < n → address ∈ d.newBlocks
  removed : address ∈ d.removed → n < 0

namespace Balanced

theorem empty : ({} : Diff).Balanced address 0 := by
  constructor <;> simp

theorem of_eq {m : Int} (h : d.Balanced address n) (heq : n = m) : d.Balanced address m := heq ▸ h

theorem addLeaf (h : d.Balanced address n) : (d.addLeaf l).Balanced address n := by
  unfold Diff.addLeaf
  dsimp only
  split
  · exact ⟨h.new, fun hmem => h.removed (Std.TreeSet.mem_of_mem_erase hmem)⟩
  · exact ⟨h.new, h.removed⟩

theorem deleteLeaf (h : d.Balanced address n) (hne : l.value ≠ address) :
    (d.deleteLeaf l).Balanced address n := by
  unfold Diff.deleteLeaf
  dsimp only
  split
  · exact ⟨h.new, h.removed⟩
  · refine ⟨h.new, ?_⟩
    simpa [hne] using h.removed

theorem updateLeaf (h : d.Balanced address n) (hprev : prev = address → prev = value) :
    (d.updateLeaf key prev value).Balanced address n := by
  unfold Diff.updateLeaf
  split
  · exact h
  · next hne =>
    refine ⟨h.new, ?_⟩
    have hne : prev ≠ address := fun heq => hne (hprev heq)
    simpa [hne] using h.removed

theorem addNode (h : d.Balanced block.address n) :
    (d.addNode block).Balanced block.address (n + 1) := by
  unfold Diff.addNode
  split
  · next hmem =>
    have hneg := h.removed hmem
    refine ⟨fun hpos => absurd hpos (by omega), ?_⟩
    simp
  · next hmem =>
    constructor
    · simp
    · exact fun hgone => absurd hgone hmem

theorem addNode_of_ne (h : d.Balanced address n) (hne : block.address ≠ address) :
    (d.addNode block).Balanced address n := by
  unfold Diff.addNode
  split
  · exact ⟨h.new, fun hmem => h.removed (Std.TreeSet.mem_of_mem_erase hmem)⟩
  · refine ⟨?_, h.removed⟩
    simpa [hne] using h.new

theorem deleteNode (h : d.Balanced address n) (hle : n ≤ 1) :
    (d.deleteNode address).Balanced address (n - 1) := by
  unfold Diff.deleteNode
  split
  · refine ⟨fun hpos => absurd hpos (by omega), ?_⟩
    intro hmem
    have hneg := h.removed hmem
    omega
  · next hmem =>
    have hle : n ≤ 0 := not_lt.1 fun hpos => hmem (h.new hpos)
    exact ⟨fun hpos => absurd hpos (by omega), fun _ => by omega⟩

theorem deleteNode_of_ne (h : d.Balanced address n) (hne : gone ≠ address) :
    (d.deleteNode gone).Balanced address n := by
  unfold Diff.deleteNode
  split
  · refine ⟨?_, h.removed⟩
    simpa [hne] using h.new
  · refine ⟨h.new, ?_⟩
    simpa [hne] using h.removed

end Balanced

def Keeps (ps qs : List (Entry Extent)) (value : Cid) : Prop :=
  ∀ l ∈ Extent.content ps, l.value = value → l ∈ Extent.content qs

namespace Keeps

theorem of_newLeaf (h : Keeps ps (.leaf l :: qs) value)
    (hfresh : ∀ k ∈ Extent.content ps, k.key ≠ l.key) :
    Keeps ps qs value := by
  intro k hk hvalue
  exact (List.mem_cons.1 (h k hk hvalue)).resolve_left fun heq =>
    hfresh k hk (congrArg Leaf.key heq)

theorem of_goneLeaf (h : Keeps (.leaf l :: ps) qs value) : Keeps ps qs value :=
  fun k hk => h k (List.mem_cons_of_mem _ hk)

theorem of_sameKey {old new : Leaf} (h : Keeps (.leaf old :: ps) (.leaf new :: qs) value)
    (hkey : old.key = new.key) (hps : Listing (Extent.content (.leaf old :: ps))) :
    Keeps ps qs value := by
  intro k hk hvalue
  refine (List.mem_cons.1 (h k (List.mem_cons_of_mem _ hk) hvalue)).resolve_left ?_
  rintro rfl
  exact (hps.lt_of_cons hk).ne hkey

theorem value_eq {old new : Leaf} (h : Keeps (.leaf old :: ps) (.leaf new :: qs) old.value)
    (hkey : old.key = new.key) (hqs : Listing (Extent.content (.leaf new :: qs))) :
    old.value = new.value := by
  rcases List.mem_cons.1 (h old List.mem_cons_self rfl) with heq | hmem
  · rw [heq]
  · exact absurd hkey (hqs.lt_of_cons hmem).ne'

theorem of_skip (h : Keeps (.tree e :: ps) (.tree e :: qs) value)
    (hps : Listing (Extent.content (.tree e :: ps))) : Keeps ps qs value := by
  intro k hk hvalue
  refine (List.mem_append.1 (h k (List.mem_append_right _ hk) hvalue)).resolve_left ?_
  exact fun hmem => lt_irrefl _ (hps.lt_of_append hmem hk)

end Keeps

theorem Compared.balanced (h : Compared config ps qs d d') (hkeeps : Keeps ps qs address)
    (hps : Listing (Extent.content ps)) (hqs : Listing (Extent.content qs))
    (hd : d.Balanced address n) (hhigh : n + Extent.named config qs address ≤ 1) :
    d'.Balanced address (n + Extent.named config qs address - Extent.named config ps address) := by
  induction h generalizing n with
  | done => simpa [Extent.named_nil] using hd
  | newLeaf hfresh _ ih =>
    rw [Extent.named_leaf] at hhigh ⊢
    exact ih (hkeeps.of_newLeaf hfresh) hps hqs.tail hd.addLeaf hhigh
  | goneLeaf hfresh _ ih =>
    rw [Extent.named_leaf]
    apply ih hkeeps.of_goneLeaf hps.tail hqs (hd.deleteLeaf _) hhigh
    exact fun heq => hfresh _ (hkeeps _ List.mem_cons_self heq) rfl
  | sameKey hkey _ ih =>
    rw [Extent.named_leaf] at hhigh ⊢
    rw [Extent.named_leaf]
    apply ih (hkeeps.of_sameKey hkey hps) hps.tail hqs.tail (hd.updateLeaf _) hhigh
    rintro rfl
    exact hkeeps.value_eq hkey hqs
  | @newNode layer ls block ps qs _ _ hblock _ ih =>
    rw [Extent.named_tree hblock] at hhigh ⊢
    rw [Keeps, ← @Extent.content_enter config] at hkeeps
    rw [← @Extent.content_enter config] at hqs
    split at hhigh
    · next heq =>
      cases heq
      rw [if_pos rfl]
      exact (ih hkeeps hps hqs hd.addNode (by omega)).of_eq (by omega)
    · next hne =>
      rw [if_neg hne]
      exact ih hkeeps hps hqs (hd.addNode_of_ne hne) hhigh
  | @goneNode layer ls block ps qs _ _ hblock _ ih =>
    rw [Extent.named_tree hblock]
    rw [Keeps, ← @Extent.content_enter config] at hkeeps
    rw [← @Extent.content_enter config] at hps
    split
    · next heq =>
      cases heq
      exact (ih hkeeps hps hqs (hd.deleteNode (by omega)) (by omega)).of_eq (by omega)
    · next hne => exact ih hkeeps hps hqs (hd.deleteNode_of_ne hne) hhigh
  | @skip e ps qs _ _ _ ih =>
    rw [Extent.named_skip qs] at hhigh ⊢
    rw [Extent.named_skip ps]
    rw [Extent.content_tree] at hps hqs
    exact (ih (hkeeps.of_skip hps) hps.right hqs.right hd (by omega)).of_eq (by omega)

end Diff

namespace Tree

variable {store prevStore : Blockstore Id} {tree curr prev : Tree}

theorem Spans.named_le_one (h : tree.Spans archive store layer ls) (address : Cid) :
    Extent.named config [.tree ⟨layer + 1, ls⟩] address ≤ 1 :=
  Extent.named_le_one h.mem_nodes h.nodup_nodes

theorem Built.diff_removed (hcurr : curr.Built archive) (hprev : prev.Built archive)
    (hstore : archive.Agrees store) (hprevStore : archive.Agrees prevStore)
    (hcovers : archive.Covers curr) (hprevCovers : archive.Covers prev)
    (hreadable : curr.Readable store) (hprevReadable : prev.Readable prevStore) :
    ∃ d, (curr.diff store prev prevStore).run = .ok d ∧ ∀ address ∈ d.removed,
      (∃ key, (prev.get? prevStore key).run = .ok (some address) ∧
        (curr.get? store key).run ≠ .ok (some address)) ∨
      (prev.HasPointer prevStore address ∧ ¬curr.HasPointer store address) := by
  obtain ⟨layer, ls, hls⟩ := hcurr.exists_spans hstore hcovers hreadable
  obtain ⟨layer', ls', hls'⟩ := hprev.exists_spans hprevStore hprevCovers hprevReadable
  obtain ⟨d, hrun, hcompared⟩ := hls.diff hls'
  refine ⟨d, hrun, ?_⟩
  intro address hgone
  by_cases hkeeps : Diff.Keeps [.tree ⟨layer' + 1, ls'⟩] [.tree ⟨layer + 1, ls⟩] address
  · -- Only the notes about nodes are left to account for it.
    right
    have hone := hls.named_le_one address
    have hone' := hls'.named_le_one address
    have hneg :=
      (hcompared.balanced hkeeps hls'.listing_content hls.listing_content .empty
      (by omega)).removed hgone
    rw [hls.hasPointer_iff, hls'.hasPointer_iff, ← Extent.named_pos_iff, ← Extent.named_pos_iff]
    omega
  · left
    simp only [Diff.Keeps, Extent.content_singleton, not_forall] at hkeeps
    obtain ⟨l, hl, rfl, hnot⟩ := hkeeps
    refine ⟨l.key, ?_, ?_⟩
    · rw [hls'.get?_run, hls'.listing.value?_eq_some.2 hl]
    · rw [hls.get?_run, ne_eq, Except.ok.injEq, hls.listing.value?_eq_some]
      exact hnot

end Tree

end

namespace Swapped

/-!
Two keys whose values change places.
-/

def first : Cid := Sample.low.value

def second : Cid := Sample.high.value

def record (b d : Cid) : NodeRecord :=
  ⟨none, [⟨0, Bytes.ofText "a/b", b, none⟩, ⟨2, Bytes.ofText "d", d, none⟩]⟩

def known : List NodeRecord := [record first second, record second first]

def config : Config := { codec := .table known, hasher := .flat }

def archive : Archive config := .table known .flat (by decide)

def node (b d : Cid) : Node := { entries := [.leaf ⟨"a/b", b⟩, .leaf ⟨"a/d", d⟩], layer := some 0 }

def tree (b d : Cid) : Tree := ⟨.resolved (node b d), config⟩

def single (b : Cid) : Tree :=
  ⟨.resolved { entries := [.leaf ⟨"a/b", b⟩], layer := some 0 }, config⟩

variable (b b' d d' : Cid)

theorem add_b : (Edit.apply (.add "a/b" b) (.empty config) .empty).run = .ok (single b) := by cbv

theorem add_d : (Edit.apply (.add "a/d" d) (single b) .empty).run = .ok (tree b d) := by cbv

theorem update_b : (Edit.apply (.update "a/b" b') (tree b d) .empty).run = .ok (tree b' d) := by cbv

theorem update_d : (Edit.apply (.update "a/d" d') (tree b d) .empty).run = .ok (tree b d') := by cbv

theorem record_node : (node b d).record config = .ok (record b d) := by cbv

theorem addressIn_node :
    (node first second).addressIn config = .ok (NodeCodec.tableAddress []) := by
  cbv

theorem built : (tree b d).Built archive :=
  have hagrees := archive.agrees_empty
  .edit _ (.edit _ .empty hagrees (add_b b)) hagrees (add_d b d)

theorem built_swapped : (tree d b).Built archive :=
  have hagrees := archive.agrees_empty
  .edit _ (.edit _ (built b d) hagrees (update_b b d d)) hagrees (update_d d d b)

theorem readable : (tree b d).Readable .empty :=
  Subtree.readable_resolved fun c hc => by simp [node] at hc

theorem covers (hknown : record b d ∈ known) : archive.Covers (tree b d) := by
  apply Archive.covers_table
  intro node' hnode record' hrecord
  have hmemory : (tree b d).root.inMemory = [.resolved (node b d)] := rfl
  rw [hmemory, List.mem_singleton, Subtree.resolved.injEq] at hnode
  cases hnode
  cases (record_node b d).symm.trans hrecord
  exact hknown

theorem exists_removed :
    ∃ d, ((tree second first).diff Blockstore.empty (tree first second) Blockstore.empty).run =
      .ok d ∧
    first ∈ d.removed := by
  have hrun :
      ((tree second first).diff Blockstore.empty (tree first second) Blockstore.empty).run.map
        (·.removed.contains first) = .ok true := by
    cbv
  cases hdiff :
    ((tree second first).diff Blockstore.empty (tree first second) Blockstore.empty).run with
  | error e =>
    rw [hdiff] at hrun
    cases hrun
  | ok d =>
    rw [hdiff] at hrun
    exact ⟨d, rfl, Except.ok.inj hrun⟩

/--
The newer tree still has the value that is reported to be gone.
-/
theorem removed_but_referenced :
    ((tree second first).Built archive ∧ archive.Covers (tree second first) ∧
      (tree second first).Readable .empty) ∧
    ((tree first second).Built archive ∧ archive.Covers (tree first second) ∧
      (tree first second).Readable .empty) ∧
    ∃ d, ((tree second first).diff Blockstore.empty (tree first second) Blockstore.empty).run =
      .ok d ∧
      ∃ address ∈ d.removed, (tree second first).References .empty address := by
  refine ⟨⟨built_swapped first second, covers _ _ (by simp [known]), readable _ _⟩,
    ⟨built _ _, covers _ _ (by simp [known]), readable _ _⟩, ?_⟩
  obtain ⟨d, hrun, hgone⟩ := exists_removed
  refine ⟨d, hrun, first, hgone, .inr ⟨⟨"a/d", first⟩, ⟨node second first, ?_, ?_⟩, rfl⟩⟩
  · exact Subtree.reaches_resolved.2 (.inl rfl)
  · simp [NodeOf.leaves, node, Entry.leaf?]

end Swapped

theorem Tree.Built.diff_removed_of_swapped :
    ∃ d,
      ((Swapped.tree Swapped.second Swapped.first).diff Blockstore.empty
        (Swapped.tree Swapped.first Swapped.second) Blockstore.empty).run = .ok d ∧
    Swapped.first ∈ d.removed ∧
      ∃ key, ((Swapped.tree Swapped.first Swapped.second).get? Blockstore.empty key).run =
        .ok (some Swapped.first) ∧
        ((Swapped.tree Swapped.second Swapped.first).get? Blockstore.empty key).run ≠
          .ok (some Swapped.first) := by
  have hagrees := Swapped.archive.agrees_empty
  obtain ⟨d, hrun, hremoved⟩ :=
    Built.diff_removed (Swapped.built_swapped _ _) (Swapped.built _ _) hagrees hagrees
    (Swapped.covers _ _ (by simp [Swapped.known])) (Swapped.covers _ _ (by simp [Swapped.known]))
    (Swapped.readable Swapped.second Swapped.first) (Swapped.readable Swapped.first Swapped.second)
  obtain ⟨d', hrun', hgone⟩ := Swapped.exists_removed
  cases hrun.symm.trans hrun'
  refine ⟨d, hrun, hgone, (hremoved _ hgone).resolve_right ?_⟩
  rintro ⟨⟨node, hnode, haddress⟩, -⟩
  obtain rfl : node = Swapped.node Swapped.first Swapped.second := by
    simpa [Swapped.tree, Subtree.reaches_resolved, Swapped.node] using hnode
  have heq := Except.ok.inj (Swapped.addressIn_node.symm.trans haddress)
  exact absurd heq (by decide)

end MerkleSearch
