import MerkleSearch.Proofs.Layered
import MerkleSearch.Proofs.Lockstep
import MerkleSearch.Proofs.Table
import MerkleSearch.Proofs.Walk.Outcome

/-!
This module contains how far down a tree can go whoever stored it. What is fetched for a subtree on
a known layer has its own subtrees one layer below, so a descent ends even if the addresses lead in
a circle. The descents that `Subtree.resolve` allows for where no layer is known play no part in
that.
-/

namespace MerkleSearch

section

variable {store : Blockstore Id} {config : Config} {layer height : Nat} {address : Cid}
variable {hint : Hint} {key : String} {t c : Subtree} {node : Node} {ts us : List Subtree}
variable {es es' vs : List NodeEntry} {e : Error} {onMissing : OnMissing}
variable {outcome : Except Error Unit}

namespace Subtree

/--
The node that is loaded for a subtree, without regard to how far down the descent has gone.
-/
inductive Loads (store : Blockstore Id) (config : Config) : Subtree → Node → Prop
  | resolved (node : Node) : Loads store config (.resolved node) node
  | unresolved {address : Cid} {hint : Hint} {bytes : Bytes} {record : NodeRecord} {node : Node}
    (hget : (store.get? address).run = .ok (some bytes))
    (haddress : config.codec.address bytes = .ok address)
    (hdecode : config.codec.decode bytes = .ok record)
    (hnode : NodeOf.ofStored config address hint record = .ok node) :
    Loads store config (.unresolved address hint) node

def Opens (store : Blockstore Id) (config : Config) (t c : Subtree) : Prop :=
  ∃ node, t.Loads store config node ∧ .tree c ∈ node.entries

/--
What a node hands down to a subtree about its layer, or what a root tells of it by its keys.
-/
inductive OnLayer (store : Blockstore Id) (config : Config) : Subtree → Nat → Prop
  | handed (address : Cid) (layer : Nat) :
    OnLayer store config (.unresolved address (.layer layer)) layer
  | keyed {address : Cid} {node : Node} {l : Leaf}
    (hnode : (Tree.load address config).root.Loads store config node)
    (hl : .leaf l ∈ node.entries) :
    OnLayer store config (Tree.load address config).root (config.layerOf l.key)

/--
No more than `height` nodes are loaded one below the other.
-/
def Ends (store : Blockstore Id) (config : Config) : (height : Nat) → Subtree → Prop
  | 0, _ => False
  | layer + 1, t => (∃ address hint, t = .unresolved address hint ∧ hint ≠ .unknown 0) ∧
      ∀ c, t.Opens store config c → c.Ends store config layer

theorem loads_of_resolve {n : { node : Node // t.Covers node }}
    (hn : (t.resolve store config).run = .ok n) :
    t.Loads store config n.val := by
  cases t with
  | resolved node =>
    cases hn
    exact .resolved node
  | unresolved address hint =>
    obtain ⟨-, bytes, record, hget, haddress, hdecode, hnode⟩ := resolve_unresolved hn
    exact .unresolved hget haddress hdecode hnode

theorem Loads.eq {node' : Node} (h : t.Loads store config node) (h' : t.Loads store config node') :
    node = node' := by
  cases h with
  | resolved node =>
    cases h'
    rfl
  | unresolved hget _ hdecode hnode =>
    cases h' with
    | unresolved hget' _ hdecode' hnode' =>
      cases hget.symm.trans hget'
      cases hdecode.symm.trans hdecode'
      exact Except.ok.inj (hnode.symm.trans hnode')

theorem Loads.layer_eq_of_hint
    (h : (Subtree.unresolved address (.layer layer)).Loads store config node) :
    node.layer = some layer := by
  cases h with
  | unresolved _ _ _ hnode => exact NodeOf.layer_eq_of_hint hnode rfl

theorem Loads.layer_eq_of_leaf (h : (Subtree.unresolved address hint).Loads store config node)
    {l : Leaf} (hl : .leaf l ∈ node.entries) :
    node.layer = some (config.layerOf l.key) := by
  cases h with
  | unresolved _ _ _ hnode => exact NodeOf.layer_eq_of_leaf hnode hl

theorem ends_of_layer (hhint : hint ≠ .unknown 0)
    (hlayer : ∀ node, (unresolved address hint).Loads store config node → node.layer = some layer) :
    (unresolved address hint).Ends store config (layer + 1) := by
  induction layer using Nat.strong_induction_on generalizing address hint with
  | h layer ih =>
    refine ⟨⟨address, hint, rfl, hhint⟩, ?_⟩
    rintro c ⟨node, hnode, hc⟩
    have hknown := hlayer node hnode
    cases hnode with
    | unresolved _ _ _ hstored =>
      obtain ⟨below, address, rfl, rfl⟩ := NodeOf.on_of_ofStored hstored hknown _ hc
      exact ih below (Nat.lt_succ_self below) nofun fun _ => Loads.layer_eq_of_hint

theorem OnLayer.ends (h : t.OnLayer store config layer) : t.Ends store config (layer + 1) := by
  cases h with
  | handed address layer => exact ends_of_layer nofun fun _ => Loads.layer_eq_of_hint
  | keyed hnode hl =>
    refine ends_of_layer nofun fun node hnode' => ?_
    rw [hnode'.eq hnode]
    exact hnode.layer_eq_of_leaf hl

namespace Ends

theorem length_le (h : t.Ends store config height)
    (hchain : (t :: ts).IsChain (Opens store config)) :
    (t :: ts).length ≤ height := by
  induction ts generalizing t height with
  | nil =>
    cases height with
    | zero => exact h.elim
    | succ layer => exact Nat.succ_le_succ (Nat.zero_le layer)
  | cons c ts ih =>
    cases height with
    | zero => exact h.elim
    | succ layer =>
      rw [List.isChain_cons_cons] at hchain
      exact Nat.succ_le_succ (ih (h.2 c hchain.1) hchain.2)

theorem inFetch_of_resolve_error (h : t.Ends store config height)
    (he : (t.resolve store config).run = .error e) :
    e.InFetch := by
  cases height with
  | zero => exact h.elim
  | succ layer =>
    obtain ⟨⟨address, hint, rfl, hhint⟩, -⟩ := h
    rcases Subtree.inFetch_of_resolve_error he with hfetch | ⟨-, _, heq⟩
    · exact hfetch
    · cases heq
      exact (hhint rfl).elim

theorem child (h : t.Ends store config (layer + 1)) {n : { node : Node // t.Covers node }}
    (hn : (t.resolve store config).run = .ok n) (hc : .tree c ∈ n.val.entries) :
    c.Ends store config layer :=
  h.2 c ⟨n.val, loads_of_resolve hn, hc⟩

theorem exists_end_below (h : t.Ends store config height) :
    ∃ us c, (t :: us).IsChain (Opens store config) ∧
    (t :: us).getLast? = some c ∧ ((∃ e, (c.resolve store config).run = .error e ∧ e.InFetch) ∨
      ∃ n, (c.resolve store config).run = .ok n ∧ n.val.subtrees = []) := by
  induction height generalizing t with
  | zero => exact h.elim
  | succ layer ih =>
    cases hn : (t.resolve store config).run with
    | error e => exact ⟨[], t, .singleton t, rfl, .inl ⟨e, hn, h.inFetch_of_resolve_error hn⟩⟩
    | ok n =>
      cases hsubtrees : n.val.subtrees with
      | nil => exact ⟨[], t, .singleton t, rfl, .inr ⟨n, hn, hsubtrees⟩⟩
      | cons c cs =>
        have hc : .tree c ∈ n.val.entries :=
          NodeOf.mem_subtrees.1 (by rw [hsubtrees]; exact List.mem_cons_self)
        obtain ⟨us, last, hchain, hlast, hend⟩ := ih (h.child hn hc)
        refine ⟨c :: us, last, .cons_cons ⟨n.val, loads_of_resolve hn, hc⟩ hchain, ?_, hend⟩
        rwa [List.getLast?_cons_cons]

theorem exists_end (h : t.Ends store config height)
    (hchain : (t :: ts).IsChain (Opens store config)) :
    ∃ us c, (t :: (ts ++ us)).IsChain (Opens store config) ∧ (t :: (ts ++ us)).getLast? = some c ∧
      ((∃ e, (c.resolve store config).run = .error e ∧ e.InFetch) ∨
        ∃ n, (c.resolve store config).run = .ok n ∧ n.val.subtrees = []) := by
  induction ts generalizing t height with
  | nil => exact h.exists_end_below
  | cons c ts ih =>
    cases height with
    | zero => exact h.elim
    | succ layer =>
      rw [List.isChain_cons_cons] at hchain
      obtain ⟨us, last, hrest, hlast, hend⟩ := ih (h.2 c hchain.1) hchain.2
      refine ⟨us, last, .cons_cons hchain.1 hrest, ?_, hend⟩
      rwa [List.cons_append, List.getLast?_cons_cons]

theorem acc (h : t.Ends store config height) : Acc (fun c t => t.Opens store config c) t := by
  induction height generalizing t with
  | zero => exact h.elim
  | succ layer ih => exact .intro t fun c hc => ih (h.2 c hc)

theorem resolve (h : t.Ends store config (layer + 1)) :
    Settles True (t.resolve store config) (fun n => (∃ address, n.val.address = some address) ∧
      ∀ c, .tree c ∈ n.val.entries → c.Ends store config layer) Error.InFetch := by
  unfold Settles
  split
  · next n hn =>
    refine ⟨?_, fun c hc => h.2 c ⟨n.val, loads_of_resolve hn, hc⟩⟩
    obtain ⟨⟨address, hint, rfl, -⟩, -⟩ := h
    obtain ⟨-, _, _, -, -, -, hstored⟩ := resolve_unresolved hn
    obtain ⟨keys, -, hnode⟩ := NodeOf.exists_described hstored
    rw [hnode]
    exact ⟨address, rfl⟩
  · next he => exact .inl (h.inFetch_of_resolve_error he)

theorem get? (h : t.Ends store config height) :
    Settles True (t.get? store config key) (fun _ => True) Error.InFetch := by
  induction height generalizing t with
  | zero => exact h.elim
  | succ layer ih =>
    rw [get?_eq]
    apply h.resolve.bind
    rintro n ⟨-, below⟩
    split
    · exact Settles.pure trivial
    · next c _ hsubtree => exact ih (below c (NodeOf.tree_mem_of_gap hsubtree))
    · exact Settles.pure trivial

theorem path (h : t.Ends store config height) :
    Settles True (t.path store config key) (·.length ≤ height + 1) Error.InFetch := by
  induction height generalizing t with
  | zero => exact h.elim
  | succ layer ih =>
    rw [path_eq]
    apply h.resolve.bind
    rintro n ⟨⟨address, haddress⟩, below⟩
    have hknown : n.val.addressIn config = .ok address := address_resolved_some haddress
    rw [hknown]
    refine Settles.bind (A := (· = address)) (Settles.lift rfl rfl) ?_
    rintro _ rfl
    split
    · exact Settles.pure (Nat.le_add_left 2 layer)
    · next c _ hsubtree =>
      apply (ih (below c (NodeOf.tree_mem_of_gap hsubtree))).bind
      exact fun cids hlength => Settles.pure (Nat.succ_le_succ hlength)
    · exact Settles.pure (Nat.le_add_left 1 (layer + 1))

end Ends

end Subtree

def AllEnd (store : Blockstore Id) (config : Config) (es : List NodeEntry) : Prop :=
  ∀ t, .tree t ∈ es → ∃ height, t.Ends store config height

theorem allEnd_nil : AllEnd store config [] := by
  intro t ht
  cases ht

theorem allEnd_append (h : AllEnd store config es) (hes : AllEnd store config es') :
    AllEnd store config (es ++ es') := by
  intro t ht
  rcases List.mem_append.1 ht with ht | ht
  · exact h t ht
  · exact hes t ht

theorem AllEnd.tail {entry : NodeEntry} (h : AllEnd store config (entry :: es)) :
    AllEnd store config es :=
  fun t ht => h t (List.mem_cons_of_mem _ ht)

theorem Subtree.Ends.allEnd_entries (h : t.Ends store config height)
    (hnode : t.Loads store config node) :
    AllEnd store config node.entries := by
  cases height with
  | zero => exact h.elim
  | succ layer => exact fun c hc => ⟨layer, h.2 c ⟨node, hnode, hc⟩⟩

theorem Subtree.Ends.seek (h : t.Ends store config height) (hes : AllEnd store config es) :
    Settles True (t.seek store config key es) (fun p =>
      AllEnd store config p.entries) Error.InFetch := by
  induction height generalizing t es with
  | zero => exact h.elim
  | succ layer ih =>
    rw [seek_eq]
    apply h.resolve.bind
    rintro n ⟨-, below⟩
    have hafter : AllEnd store config ((n.val.gap key).after ++ es) := by
      apply allEnd_append _ hes
      intro c hc
      refine ⟨layer, below c ?_⟩
      rw [← Gap.entries_of key n.val.entries]
      exact List.mem_append_right _ hc
    split
    · next c hsubtree => exact ih (below c (NodeOf.tree_mem_of_gap hsubtree)) hafter
    · exact Settles.pure hafter

theorem Followed.inFetch (h : Followed store config onMissing es vs outcome)
    (hes : AllEnd store config es) :
    ∀ e, outcome = .error e → e.InFetch := by
  induction h with
  | nil => exact nofun
  | leaf _ ih => exact ih hes.tail
  | tree hn _ ih =>
    obtain ⟨height, ht⟩ := hes _ List.mem_cons_self
    exact ih (allEnd_append (ht.allEnd_entries (Subtree.loads_of_resolve hn)) hes.tail)
  | skip _ _ _ ih => exact ih hes.tail
  | fail he _ =>
    rintro _ ⟨⟩
    obtain ⟨height, ht⟩ := hes _ List.mem_cons_self
    exact ht.inFetch_of_resolve_error he

theorem feed_outcome {α σ : Type} (f : α → σ → ForInStep σ) (outcome : Except Error Unit)
    (as : List α) (s : σ) :
    (feed f outcome as s).2 = .ok () ∨ (feed f outcome as s).2 = outcome := by
  induction as generalizing s with
  | nil => exact .inr rfl
  | cons a as ih =>
    rw [feed]
    split
    · exact .inl rfl
    · exact ih _

theorem Tree.gather_of_pos {α : Type} (tree : Tree) (select : NodeEntry → Option α)
    {limit : Option Nat} (hlimit : limit ≠ some 0) (p : Pending) :
    tree.gather store select limit onMissing p = (do
      let (found, outcome) ← p.visit store tree.config onMissing [] fun e found =>
        pure ((select e).elim (.yield found) fun x =>
          if limit = some (x :: found).length then .done (x :: found) else .yield (x :: found))
      return (found.reverse, outcome)) := by
  unfold gather
  rw [if_neg hlimit]
  congr
  funext e found
  cases select e <;> rfl

theorem Tree.gather_outcome {α : Type} (tree : Tree) (select : NodeEntry → Option α)
    (limit : Option Nat) (h : Followed store tree.config onMissing es vs outcome) :
    (tree.gather store select limit onMissing ⟨es⟩).2 = .ok () ∨
      (tree.gather store select limit onMissing ⟨es⟩).2 = outcome := by
  by_cases hlimit : limit = some 0
  · unfold gather
    rw [if_pos hlimit]
    exact .inl rfl
  · rw [gather_of_pos tree select hlimit, h.visit fun _ _ => rfl]
    exact feed_outcome _ outcome vs []

namespace Pending

/--
One step of a walk. Any subtree may be passed over.
-/
inductive Advances (store : Blockstore Id)
    (config : Config) : List NodeEntry → List NodeEntry → Prop
  | drop {e : NodeEntry} {es : List NodeEntry} : Advances store config (e :: es) es
  | expand {t : Subtree} {node : Node} {es : List NodeEntry} (h : t.Loads store config node) :
    Advances store config (.tree t :: es) (node.entries ++ es)

theorem acc_advances_append (hes : Acc (fun rest es => Advances store config es rest) es')
    (h : ∀ t, .tree t ∈ es → ∀ rest, Acc (fun rest es => Advances store config es rest) rest →
      Acc (fun rest es => Advances store config es rest) (.tree t :: rest)) :
    Acc (fun rest es => Advances store config es rest) (es ++ es') := by
  induction es with
  | nil => exact hes
  | cons e es ih =>
    have hrest := ih fun t ht => h t (List.mem_cons_of_mem _ ht)
    cases e with
    | leaf l =>
      refine .intro _ fun rest hstep => ?_
      cases hstep with
      | drop => exact hrest
    | tree t => exact h t List.mem_cons_self _ hrest

theorem acc_advances_tree (h : t.Ends store config height)
    (hes : Acc (fun rest es => Advances store config es rest) es) :
    Acc (fun rest es => Advances store config es rest) (.tree t :: es) := by
  induction height generalizing t es with
  | zero => exact h.elim
  | succ layer ih =>
    refine .intro _ fun rest hstep => ?_
    cases hstep with
    | drop => exact hes
    | expand hnode =>
      exact acc_advances_append hes fun c hc rest hrest => ih (h.2 c ⟨_, hnode, hc⟩) hrest

theorem acc_advances (hes : AllEnd store config es) :
    Acc (fun rest es => Advances store config es rest) es := by
  have hnil : Acc (fun rest es => Advances store config es rest) ([] : List NodeEntry) :=
    .intro _ nofun
  have happend := acc_advances_append hnil fun t ht rest hrest =>
    let ⟨_, hends⟩ := hes t ht
    acc_advances_tree hends hrest
  rwa [List.append_nil] at happend

end Pending

namespace Tree

variable {tree : Tree} {limit : Option Nat}

theorem inFetch_of_get?_error (h : tree.root.Ends store tree.config height)
    (he : (tree.get? store key).run = .error e) :
    e.InFetch := by
  unfold get? at he
  split at he
  · exact h.get?.of_error trivial he
  · cases he

theorem inFetch_of_gather_error {α : Type} {select : NodeEntry → Option α}
    (hes : AllEnd store tree.config es)
    (he : (tree.gather store select limit onMissing ⟨es⟩).2 = .error e) :
    e.InFetch := by
  obtain ⟨vs, outcome, h⟩ := exists_followed store tree.config onMissing es
  rcases tree.gather_outcome select limit h with hok | heq
  · cases he.symm.trans hok
  · exact h.inFetch hes e (heq.symm.trans he)

theorem inFetch_of_walk_error (h : tree.root.Ends store tree.config height)
    (he : (tree.walk store limit onMissing).2 = .error e) : e.InFetch := by
  apply inFetch_of_gather_error _ he
  intro t ht
  cases List.mem_singleton.1 ht
  exact ⟨height, h⟩

theorem inFetch_of_leavesFrom_error (h : tree.root.Ends store tree.config height)
    (he : (tree.leavesFrom store key limit).2 = .error e) : e.InFetch := by
  unfold leavesFrom at he
  split at he
  · cases he
  · cases hseek : (tree.root.seek store tree.config key []).run with
    | error e' =>
      rw [hseek] at he
      cases he
      exact (h.seek allEnd_nil).of_error trivial hseek
    | ok p =>
      rw [hseek] at he
      exact inFetch_of_gather_error ((h.seek allEnd_nil).of_ok hseek) he

/--
From where the layer is known, no descent goes on for longer than there are layers, and none of the
ways through a stored tree does if its root has a key. Nothing is asked of the store, and nothing of
the addresses it keeps its blocks under.
-/
theorem descents_end (store : Blockstore Id) (config : Config) :
    (∀ t layer, t.OnLayer store config layer →
      ∀ ts, (t :: ts).IsChain (Subtree.Opens store config) →
      (t :: ts).length ≤ layer + 1 ∧
      ∃ us c, (t :: (ts ++ us)).IsChain (Subtree.Opens store config) ∧
        (t :: (ts ++ us)).getLast? = some c ∧
        ((∃ e, (c.resolve store config).run = .error e ∧ e.InFetch) ∨
          ∃ n, (c.resolve store config).run = .ok n ∧ n.val.subtrees = [])) ∧
    ∀ address node l, (load address config).root.Loads store config node → .leaf l ∈ node.entries →
      Acc (fun c t => t.Opens store config c) (load address config).root ∧
      Acc (fun rest es => Pending.Advances store config es rest)
        [.tree (load address config).root] ∧
      (∀ key p, ((load address config).root.seek store config key []).run = .ok p →
        Acc (fun rest es => Pending.Advances store config es rest) p.entries) ∧
      (∀ key cids, ((load address config).path store key).run = .ok cids →
        cids.length ≤ config.layerOf l.key + 2) ∧
      ∀ key limit onMissing, let endless : Error := .malformedNode .endlessDescent
        ((load address config).get? store key).run ≠ .error endless ∧
        ((load address config).path store key).run ≠ .error endless ∧
        ((load address config).walk store limit onMissing).2 ≠ .error endless ∧
        ((load address config).leavesFrom store key limit).2 ≠ .error endless := by
  constructor
  · intro t layer h ts hchain
    exact ⟨h.ends.length_le hchain, h.ends.exists_end hchain⟩
  · intro address node l hnode hl
    have hends := (Subtree.OnLayer.keyed hnode hl).ends
    have hroot : AllEnd store config [.tree (load address config).root] := by
      intro t ht
      cases List.mem_singleton.1 ht
      exact ⟨_, hends⟩
    refine ⟨hends.acc, Pending.acc_advances hroot, ?_, fun key cids hcids =>
      hends.path.of_ok hcids, ?_⟩
    · intro key p hp
      exact Pending.acc_advances ((hends.seek allEnd_nil).of_ok hp)
    · intro key limit onMissing
      have hother : ¬(Error.malformedNode .endlessDescent).InFetch := by
        intro h
        rcases h.of_malformedNode with heq | ⟨_, _, heq⟩ | hrecord
        · cases heq
        · cases heq
        · cases hrecord
      refine ⟨fun h => hother ?_, fun h => hother ?_, fun h => hother ?_, fun h => hother ?_⟩
      · exact inFetch_of_get?_error hends h
      · exact hends.path.of_error trivial h
      · exact inFetch_of_walk_error hends h
      · exact inFetch_of_leavesFrom_error hends h

end Tree

end

namespace Circle

/-!
A record that leads to its own address, below a node with a key on layer three.
-/

def top : Leaf := ⟨"a/e-3", .v1 Cid.raw ⟨0, [5], by decide⟩⟩

def known : List NodeRecord := [
  ⟨some (Sample.pointer 0), []⟩,
  ⟨some (Sample.pointer 0), [⟨0, Bytes.ofText top.key, top.value, none⟩]⟩]

def config : Config := { codec := .table known, hasher := .tail }

def pointer (place : Nat) : Cid := NodeCodec.tableAddress (List.replicate place 0)

def shelf : BlockMap := (({} : BlockMap).insert (pointer 0) []).insert (pointer 1) [0]

def tree : Tree := .load (pointer 1) config

def topNode : Node where
  entries := [.tree (.unresolved (pointer 0) (.layer 2)), .leaf top]
  layer := some 3
  address := some (pointer 1)

def ring (layer : Nat) : Subtree := .unresolved (pointer 0) (.layer layer)

theorem loads_top : tree.root.Loads (.snapshot shelf) config topNode := by
  have hget : shelf[pointer 1]? = some [0] := by cbv
  exact .unresolved (congrArg Except.ok hget) rfl rfl (by cbv)

theorem opens_ring (layer : Nat) :
    (ring (layer + 1)).Opens (.snapshot shelf) config (ring layer) := by
  have hget : shelf[pointer 0]? = some [] := by cbv
  exact ⟨_, .unresolved (congrArg Except.ok hget) rfl rfl rfl, List.mem_cons_self⟩

theorem isChain :
    [tree.root, ring 2, ring 1, ring 0].IsChain (Subtree.Opens (.snapshot shelf) config) :=
  .cons_cons ⟨topNode, loads_top, List.mem_cons_self⟩
    (.cons_cons (opens_ring 1) (.cons_cons (opens_ring 0) (.singleton (ring 0))))

theorem walk_tree :
    (tree.walk (.snapshot shelf)).2 = .error (.malformedNode .subtreeOnLayerZero) := by
  cbv

end Circle

theorem Tree.descents_end_of_circle :
    [Circle.tree.root, Circle.ring 2, Circle.ring 1, Circle.ring 0].IsChain
      (Subtree.Opens (.snapshot Circle.shelf) Circle.config) ∧
    [Circle.tree.root, Circle.ring 2, Circle.ring 1, Circle.ring 0].length ≤
      Circle.config.layerOf Circle.top.key + 1 ∧
    Circle.config.layerOf Circle.top.key = 3 ∧
    Acc (fun rest es => Pending.Advances (.snapshot Circle.shelf) Circle.config es rest)
      [.tree Circle.tree.root] ∧
    (Circle.tree.walk (.snapshot Circle.shelf)).2 =
      .error (.malformedNode .subtreeOnLayerZero) := by
  obtain ⟨hchains, hroots⟩ := descents_end (.snapshot Circle.shelf) Circle.config
  have hleaf : .leaf Circle.top ∈ Circle.topNode.entries :=
    List.mem_cons_of_mem _ List.mem_cons_self
  refine ⟨Circle.isChain, ?_, by cbv, ?_, Circle.walk_tree⟩
  · exact (hchains _ _ (.keyed Circle.loads_top hleaf) _ Circle.isChain).1
  · exact (hroots (Circle.pointer 1) _ _ Circle.loads_top hleaf).2.1

end MerkleSearch
