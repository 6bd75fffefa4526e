import MerkleSearch.Proofs.Built
import MerkleSearch.Proofs.Compare
import MerkleSearch.Proofs.Written

/-!
This module contains what the two ways of making a difference do: the comparison of two trees, and
the walk over one tree that takes everything in it as new. Either is an instance of the steps of a
comparison, from the roots on.
-/

namespace MerkleSearch

variable {config : Config} {archive : Archive config} {store prevStore : Blockstore Id}
variable {layer : Nat} {ls ls' : List Leaf} {us : List (Entry Extent)} {es : List NodeEntry}
variable {d : Diff} {tree curr prev : Tree}

namespace Diff

def noteNew (store : Blockstore Id) (config : Config) (es : List NodeEntry)
    (d : Diff) : Diff × Except Error Unit :=
  Pending.visit (m := Id) store config .fail ⟨es⟩ d fun e d =>
    return .yield (← d.addEntry store config e)

theorem noteNew_leaf {l : Leaf} :
    noteNew store config (.leaf l :: es) d = noteNew store config es (d.addLeaf l) := by
  unfold noteNew
  rw [Pending.visit]
  rfl

theorem noteNew_tree {t : Subtree} {n : { node : Node // t.Covers node }} {block : Block}
    (hn : (t.resolve store config).run = .ok n) (hblock : n.val.block config = .ok block) :
    noteNew store config (.tree t :: es) d =
      noteNew store config (n.val.entries ++ es) (d.addNode block) := by
  have hstep : Pending.step store config .fail (.tree t) es =
      (.ok (some (.tree (.resolved n.val)), ⟨⟨n.val.entries ++ es⟩, .expand n.property⟩) : Id
        _) := by
    unfold Pending.step
    dsimp only
    rw [hn]
    rfl
  have hadd : d.addEntry store config (.tree (.resolved n.val)) = pure (d.addNode block) := by
    show (do return d.addNode (← n.val.block config) : ExceptT Error Id Diff) = _
    rw [hblock]
    rfl
  unfold noteNew
  rw [Pending.visit, hstep]
  dsimp only [bind]
  rw [hadd]
  rfl

theorem noteNew_spec (hstore : archive.Agrees store)
    (h : List.Forall₂ (Entry.Rel fun t e => Subtree.Spans archive store e.height t e) es us)
    (hls : Listing (Extent.content us)) :
    ∃ d', noteNew store config es d = (d', .ok ()) ∧ Compared config [] us d d' := by
  induction hn : Extent.weight config us using Nat.strong_induction_on generalizing es us d with
  | _ w ih =>
    cases h with
    | nil =>
      refine ⟨d, ?_, .done d⟩
      unfold noteNew
      rw [Pending.visit]
      rfl
    | @cons _ _ rest vs hrel hrest =>
      cases hrel with
      | leaf l =>
        rw [Extent.weight_leaf] at hn
        obtain ⟨d', hrun, hcompared⟩ := ih _ (by omega) hrest hls.tail rfl
        exact ⟨d', noteNew_leaf.trans hrun, .newLeaf (List.forall_mem_nil _) hcompared⟩
      | @tree t e hspans =>
        obtain ⟨n, block, hrun, hblock, -, hnode, -⟩ := hspans.exists_block hls.left hstore
        obtain ⟨height, ls⟩ := e
        obtain ⟨-, hholds, hreadable, hhas⟩ := hspans
        cases height with
        | zero => exact hholds.elim
        | succ layer =>
          have hbelow :=
            (hholds.of_resolve hls.left hstore hrun).spans (fun c => hreadable.child hrun) hhas
          have hbelow :
              List.Forall₂ (Entry.Rel fun t e => Subtree.Spans archive store e.height t e)
                n.val.entries (Extent.entries config ⟨layer + 1, ls⟩) := by
            apply Entry.forall₂_imp hbelow
            intro c u hc _ _
            rw [hc.height_eq]
            exact hc
          rw [Extent.weight_tree] at hn
          rw [← @Extent.content_enter config] at hls
          have hall :
              List.Forall₂ (Entry.Rel fun t e => Subtree.Spans archive store e.height t e)
                (n.val.entries ++ rest) (Extent.entries config ⟨layer + 1, ls⟩ ++ vs) :=
            List.rel_append hbelow hrest
          obtain ⟨d', hrun', hcompared⟩ := ih _ (by omega) hall hls rfl
          exact ⟨d', (noteNew_tree hrun hnode).trans hrun', .newNode hblock hcompared⟩

end Diff

structure Tree.Spans (archive : Archive config) (store : Blockstore Id) (layer : Nat) (tree : Tree)
    (ls : List Leaf) : Prop where
  config_eq : tree.config = config
  agrees : archive.Agrees store
  tops : Tops config layer ls
  listing : Listing ls
  root : tree.root.Spans archive store (layer + 1) ⟨layer + 1, ls⟩

theorem Tree.Built.exists_spans (h : tree.Built archive) (hstore : archive.Agrees store)
    (hcovers : archive.Covers tree) (hreadable : tree.Readable store) :
    ∃ layer ls, tree.Spans archive store layer ls := by
  obtain ⟨ls, hls⟩ := h.holds
  obtain ⟨layer, htops, hroot⟩ := hls.root
  cases hls.config_eq
  exact ⟨layer, ls, rfl, hstore, htops, hls.listing, rfl, hroot, hreadable,
    hroot.has hls.listing hcovers⟩

namespace Tree.Spans

theorem get?_run {key : String} (h : tree.Spans archive store layer ls) :
    (tree.get? store key).run = .ok (Leaves.value? key ls) := by
  have hholds : tree.Holds archive ls := ⟨h.config_eq, h.listing, layer, h.tops, h.root.holds⟩
  have hreadable : tree.Readable store := by
    unfold Tree.Readable
    rw [h.config_eq]
    exact h.root.readable
  obtain ⟨_, hrun, rfl⟩ := (hholds.get? h.agrees).exists_ok hreadable
  exact hrun

theorem listing_content (h : tree.Spans archive store layer ls) :
    Listing (Extent.content [.tree ⟨layer + 1, ls⟩]) := by
  rw [Extent.content_singleton]
  exact h.listing

theorem written (h : tree.Spans archive store layer ls) : Extent.Written archive ⟨layer + 1, ls⟩ :=
  .of_tops h.tops h.listing h.root.has

theorem exists_address (h : tree.Spans archive store layer ls) :
    ∃ block, Extent.block config ⟨layer + 1, ls⟩ = .ok block ∧
      tree.address = .ok block.address := by
  obtain ⟨-, block, -, hblock, -, -, haddress⟩ := h.root.exists_block h.listing h.agrees
  refine ⟨block, hblock, ?_⟩
  unfold Tree.address
  rw [h.config_eq, haddress]

theorem start (h : tree.Spans archive store layer ls) :
    Returns True (Cursor.start store tree) fun c =>
      Cursor.Trail archive store c.frames [.tree ⟨layer + 1, ls⟩] := by
  obtain ⟨root, rootConfig⟩ := tree
  cases h.config_eq
  have hroot := h.root
  obtain ⟨⟨node, covers⟩, hn, hnode, hbelow⟩ :=
    (hroot.holds.resolve h.listing h.agrees).exists_ok hroot.readable
  have hreadable : (Subtree.resolved node).Readable store rootConfig :=
    Subtree.readable_resolved (hbelow hroot.readable)
  unfold Cursor.start
  apply (Settles.of_run_ok hn rfl).bind
  rintro _ rfl
  dsimp only
  rw [hnode.layerOf covers]
  apply Settles.pure
  apply Cursor.Trail.on
  · exact .tree ⟨rfl, hnode, hreadable, hroot.has⟩
  · exact fun _ _ _ => rfl
  · show Cursor.Rests archive store _ ([] ++ [])
    exact .cons .nil nofun .nil

theorem contents (h : tree.Spans archive store layer ls) :
    ∃ d, (tree.contents store).run = .ok d ∧
      Diff.Compared config [] [.tree ⟨layer + 1, ls⟩] {} d := by
  obtain ⟨root, rootConfig⟩ := tree
  cases h.config_eq
  obtain ⟨d, hrun, hcompared⟩ :=
    Diff.noteNew_spec (d := {}) h.agrees (.cons (.tree h.root) .nil) h.listing_content
  refine ⟨d, ?_, hcompared⟩
  unfold Tree.contents complete
  unfold Diff.noteNew at hrun
  rw [hrun]
  rfl

theorem diff {layer layer' : Nat} (hcurr : curr.Spans archive store layer' ls')
    (hprev : prev.Spans archive prevStore layer ls) :
    ∃ d, (curr.diff store prev prevStore).run = .ok d ∧
      Diff.Compared config [.tree ⟨layer + 1, ls⟩] [.tree ⟨layer' + 1, ls'⟩] {} d := by
  obtain ⟨block, hblock, haddress⟩ := hprev.exists_address
  obtain ⟨block', hblock', haddress'⟩ := hcurr.exists_address
  refine Returns.exists_ok ?_ True.intro
  unfold Tree.diff
  apply (Settles.lift haddress' rfl).bind
  rintro _ rfl
  apply (Settles.lift haddress rfl).bind
  rintro _ rfl
  split
  · next heq =>
    cases hprev.written.eq_of_address_eq hcurr.written hblock hblock' heq.symm
    exact Settles.pure (.skip (.done {}))
  · apply hprev.start.bind
    intro left hleft
    apply hcurr.start.bind
    intro right hright
    rw [hcurr.config_eq, hprev.config_eq]
    exact Diff.compare_below hcurr.agrees hprev.agrees _ (Nat.lt_succ_self _) hleft hright
      hprev.listing_content hcurr.listing_content

end Tree.Spans

end MerkleSearch
