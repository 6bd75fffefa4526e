import MerkleSearch.Proofs.Confined
import MerkleSearch.Proofs.Key

/-!
This module contains which records are accepted as nodes. Acceptance is spread over the rebuilding
of the keys, the search for their layer and a look at the subtrees; the main statement is
`NodeOf.ofRecord_iff_sound`, what a record has to be like all in all (`NodeRecord.Sound`) and what
is then read of it.
-/

namespace MerkleSearch

theorem Bytes.text?_eq_some_iff {bytes : Bytes} {text : String} :
    text? bytes = some text ↔ bytes = ofText text := by
  constructor
  · intro h
    unfold text? String.fromUTF8? at h
    split at h
    · cases h
      rfl
    · cases h
  · rintro rfl
    exact text?_ofText text

theorem Bytes.ofText_injective : Function.Injective ofText := by
  intro a b h
  have := text?_ofText a
  rw [h, text?_ofText] at this
  exact (Option.some.inj this).symm

namespace LeafRecord

variable {leaf : LeafRecord} {text : String} {previous : Option String}

def keyBytes (leaf : LeafRecord) (previous : Bytes) : Bytes :=
  previous.take leaf.shared.toNat ++ leaf.suffix

theorem text?_of_key_ok (h : leaf.key previous = .ok text) :
    leaf.shared.toNat ≤ (Bytes.ofText (previous.getD "")).length ∧
      Bytes.text? (leaf.keyBytes (Bytes.ofText (previous.getD ""))) = some text := by
  unfold key at h
  dsimp only at h
  split at h
  · obtain ⟨_, hthrow, -⟩ := exists_of_bind_eq_ok h
    cases hthrow
  · next hshared =>
    split at h
    · next found hfound =>
      refine ⟨not_lt.1 hshared, hfound.trans (congrArg some ?_)⟩
      split at h
      · obtain ⟨_, hthrow, -⟩ := exists_of_bind_eq_ok h
        cases hthrow
      · split at h
        · split at h
          · obtain ⟨_, hthrow, -⟩ := exists_of_bind_eq_ok h
            cases hthrow
          · exact Except.ok.inj h
        · exact Except.ok.inj h
    · cases h

theorem key_ok_iff : leaf.key previous = .ok text ↔
    leaf.shared.toNat ≤ (Bytes.ofText (previous.getD "")).length ∧
      Bytes.ofText text = leaf.keyBytes (Bytes.ofText (previous.getD "")) ∧
      Key.isValid text ∧ ∀ last ∈ previous, last < text := by
  constructor
  · intro h
    obtain ⟨hshared, htext⟩ := text?_of_key_ok h
    exact ⟨hshared, (Bytes.text?_eq_some_iff.1 htext).symm, of_key_ok h⟩
  · rintro ⟨hshared, hkey, hvalid, hlt⟩
    have htext := Bytes.text?_eq_some_iff.2 hkey.symm
    rw [keyBytes] at htext
    unfold key
    simp only [Nat.not_lt.2 hshared, if_false, htext, hvalid]
    cases previous with
    | none => rfl
    | some last =>
      simp only [(hlt last rfl).not_ge, if_false]
      rfl

end LeafRecord

namespace NodeRecord

variable {config : Config} {record : NodeRecord} {leaves : List LeafRecord} {texts : List String}
variable {expected : Option Nat}

/--
Leaves that follow a key with the bytes `previous`, each with the bytes of the key before it.
-/
def chain (previous : Bytes) : List LeafRecord → List (LeafRecord × Bytes)
  | [] => []
  | leaf :: rest => (leaf, previous) :: chain (leaf.keyBytes previous) rest

def keyBytes (record : NodeRecord) : List Bytes :=
  (chain [] record.leaves).map fun p => p.1.keyBytes p.2

def layer? (config : Config) (expected : Option Nat) (keys : List String) : Option Nat :=
  expected.or (keys.head?.map config.layerOf)

structure Sound (config : Config) (expected : Option Nat) (record : NodeRecord)
    (keys : List String) : Prop where
  shared : ∀ p ∈ chain [] record.leaves, p.1.shared.toNat ≤ p.2.length
  text : keys.map Bytes.ofText = record.keyBytes
  valid : ∀ key ∈ keys, Key.isValid key
  sorted : keys.Pairwise (· < ·)
  layer : ∀ key ∈ keys, layer? config expected keys = some (config.layerOf key)
  bottom : layer? config expected keys = some 0 → record.left = none ∧
    ∀ leaf ∈ record.leaves, leaf.right = none

theorem keys_ok_iff {previous : Option String} :
    keys previous leaves = .ok texts ↔
    (∀ p ∈ chain (Bytes.ofText (previous.getD "")) leaves, p.1.shared.toNat ≤ p.2.length) ∧
      texts.map Bytes.ofText =
        (chain (Bytes.ofText (previous.getD "")) leaves).map (fun p => p.1.keyBytes p.2) ∧
      (∀ key ∈ texts, Key.isValid key) ∧ texts.Pairwise (· < ·) ∧
      ∀ last ∈ previous, ∀ key ∈ texts, last < key := by
  induction leaves generalizing previous texts with
  | nil =>
    constructor
    · intro h
      cases h
      exact ⟨nofun, rfl, nofun, .nil, fun _ _ => nofun⟩
    · rintro ⟨-, htext, -⟩
      rw [List.map_eq_nil_iff.1 htext]
      rfl
  | cons leaf leaves ih =>
    unfold keys chain
    constructor
    · intro h
      obtain ⟨key, hkey, h⟩ := exists_of_bind_eq_ok h
      obtain ⟨rest, hrest, h⟩ := exists_of_bind_eq_ok h
      cases h
      obtain ⟨hshared, htext, hvalid, hlt⟩ := LeafRecord.key_ok_iff.1 hkey
      obtain ⟨hshareds, htexts, hvalids, hsorted, hbound⟩ := ih.1 hrest
      have hfirst := hbound key rfl
      -- What was rebuilt of this key is what the next one shares its bytes with.
      rw [Option.getD_some, htext] at hshareds htexts
      refine ⟨List.forall_mem_cons.2 ⟨hshared, hshareds⟩, ?_,
        List.forall_mem_cons.2 ⟨hvalid, hvalids⟩, .cons hfirst hsorted, ?_⟩
      · rw [List.map_cons, List.map_cons, htext, htexts]
      · intro last hlast
        exact List.forall_mem_cons.2 ⟨hlt last hlast, fun k hk =>
          (hlt last hlast).trans (hfirst k hk)⟩
    · rintro ⟨hshared, htext, hvalid, hsorted, hlt⟩
      obtain ⟨key, rest, rfl, hkey, hrest⟩ := List.map_eq_cons_iff.1 htext
      rw [List.forall_mem_cons] at hshared hvalid
      rw [List.pairwise_cons] at hsorted
      have hfirst : leaf.key previous = .ok key :=
        LeafRecord.key_ok_iff.2 ⟨hshared.1, hkey, hvalid.1, fun last hlast =>
          hlt last hlast key List.mem_cons_self⟩
      have hothers : NodeRecord.keys (some key) leaves = .ok rest := by
        apply ih.2
        rw [Option.getD_some, hkey]
        refine ⟨hshared.2, hrest, hvalid.2, hsorted.2, ?_⟩
        rintro _ ⟨⟩
        exact hsorted.1
      rw [hfirst]
      simp only [bind, Except.bind, hothers]
      rfl

theorem layerOf_ok_iff {layer : Option Nat} :
    layerOf config expected texts = .ok layer ↔
    layer = layer? config expected texts ∧ ∀ key ∈ texts,
      layer? config expected texts = some (config.layerOf key) := by
  induction texts generalizing expected with
  | nil =>
    have hnil : layer? config expected [] = expected := by simp [layer?]
    rw [hnil]
    constructor
    · intro h
      cases h
      exact ⟨rfl, nofun⟩
    · rintro ⟨rfl, -⟩
      rfl
  | cons key keys ih =>
    have hrest : layerOf config (some (config.layerOf key)) keys = .ok layer ↔
        layer = some (config.layerOf key) ∧ ∀ k ∈ keys,
        some (config.layerOf key) = some (config.layerOf k) :=
      ih
    unfold layerOf
    -- From the second key on a layer is expected, that of the first.
    cases expected with
    | none =>
      rw [show layer? config none (key :: keys) = some (config.layerOf key) from
        rfl, List.forall_mem_cons]
      simpa using hrest
    | some n =>
      rw [show layer? config (some n) (key :: keys) = some n from rfl, List.forall_mem_cons]
      by_cases hn : n = config.layerOf key
      · subst hn
        simpa using hrest
      · simp [hn, throw, throwThe, MonadExceptOf.throw, bind, Except.bind]

theorem hasSubtrees_eq_false_iff : record.hasSubtrees = false ↔
    record.left = none ∧ ∀ leaf ∈ record.leaves, leaf.right = none := by
  simp [hasSubtrees]

theorem map_subtree {α : Type} (f : Cid → α) (address : Option Cid) :
    (subtree address).map (Entry.map f) = address.toList.map fun a => .tree (f a) := by
  cases address <;> rfl

theorem sound_iff : Sound config expected record texts ↔ keys none record.leaves = .ok texts ∧
    layerOf config expected texts = .ok (layer? config expected texts) ∧
      (layer? config expected texts = some 0 → record.hasSubtrees = false) := by
  rw [keys_ok_iff, layerOf_ok_iff, hasSubtrees_eq_false_iff]
  constructor
  · intro ⟨hshared, htext, hvalid, hsorted, hlayer, hbottom⟩
    exact ⟨⟨hshared, htext, hvalid, hsorted, nofun⟩, ⟨rfl, hlayer⟩, hbottom⟩
  · rintro ⟨⟨hshared, htext, hvalid, hsorted, -⟩, ⟨-, hlayer⟩, hbottom⟩
    exact ⟨hshared, htext, hvalid, hsorted, hlayer, hbottom⟩

end NodeRecord

namespace NodeOf

variable {config : Config} {hint : Hint} {record : NodeRecord} {node : Node} {texts : List String}

def described (config : Config) (hint : Hint) (record : NodeRecord)
    (keys : List String) : Node where
  entries := (record.toEntries keys).map
    (Entry.map (.unresolved · (hint.below (NodeRecord.layer? config hint.layer? keys))))
  layer := NodeRecord.layer? config hint.layer? keys

theorem ofRecord_of_sound (h : record.Sound config hint.layer? texts) :
    ofRecord config hint record = .ok (described config hint record texts) := by
  obtain ⟨hkeys, hlayer, hbottom⟩ := NodeRecord.sound_iff.1 h
  have hguard : (NodeRecord.layer? config hint.layer? texts = some 0 && record.hasSubtrees) =
      false := by
    rw [Bool.and_eq_false_imp]
    simpa using hbottom
  unfold ofRecord
  simp only [hkeys, hlayer, bind, Except.bind, hguard, Bool.false_eq_true, if_false, pure,
    Except.pure]
  congr 2
  apply List.map_congr_left
  intro e _
  cases e <;> rfl

theorem exists_sound (h : ofRecord config hint record = .ok node) :
    ∃ texts, record.Sound config hint.layer? texts := by
  unfold ofRecord at h
  obtain ⟨texts, hkeys, h⟩ := exists_of_bind_eq_ok h
  obtain ⟨layer, hlayer, h⟩ := exists_of_bind_eq_ok h
  split at h
  · cases h
  · next hguard =>
    obtain ⟨rfl, hsame⟩ := NodeRecord.layerOf_ok_iff.1 hlayer
    refine ⟨texts, NodeRecord.sound_iff.2 ⟨hkeys, hlayer, ?_⟩⟩
    intro hzero
    simpa [hzero] using hguard

theorem ofRecord_iff_exists : ofRecord config hint record = .ok node ↔
    ∃ texts, record.Sound config hint.layer? texts ∧ node = described config hint record texts := by
  constructor
  · intro h
    obtain ⟨texts, hsound⟩ := exists_sound h
    rw [ofRecord_of_sound hsound] at h
    exact ⟨texts, hsound, (Except.ok.inj h).symm⟩
  · rintro ⟨texts, hsound, rfl⟩
    exact ofRecord_of_sound hsound

theorem below_of_mem_described (h : record.Sound config hint.layer? texts) {t : Subtree}
    (ht : .tree t ∈ (described config hint record texts).entries) :
    (∃ n, NodeRecord.layer? config hint.layer? texts = some (n + 1) ∧
        hint.below (NodeRecord.layer? config hint.layer? texts) = .layer n) ∨
      NodeRecord.layer? config hint.layer? texts = none ∧
        (hint.below (NodeRecord.layer? config hint.layer? texts)).layer? = none := by
  have hsubtrees : record.hasSubtrees := by
    obtain ⟨_ | _, he, heq⟩ := List.mem_map.1 ht
    · exact NodeRecord.hasSubtrees_of_mem_toEntries he
    · cases heq
  have hbottom := (NodeRecord.sound_iff.1 h).2.2
  cases hlayer : NodeRecord.layer? config hint.layer? texts with
  | none =>
    cases hint with
    | layer n => cases hlayer
    | unknown k => exact .inr ⟨rfl, rfl⟩
  | some n =>
    cases n with
    | zero =>
      rw [hbottom hlayer] at hsubtrees
      cases hsubtrees
    | succ n => exact .inl ⟨n, rfl, rfl⟩

theorem resolve_of_ofRecord_error {store : Blockstore Id} {address : Cid} {bytes : Bytes}
    {defect : Defect} (h : ofRecord config hint record = .error defect) (hhint : hint ≠ .unknown 0)
    (hget : (store.get? address).run = .ok (some bytes))
    (haddress : config.codec.address bytes = .ok address)
    (hdecode : config.codec.decode bytes = .ok record) :
    ((Subtree.unresolved address hint).resolve store config).run =
      .error (.malformedNode defect) := by
  apply (Subtree.resolve_of_get? hhint hget haddress hdecode).2
  unfold ofStored
  rw [h]
  rfl

theorem ofRecord_iff_sound (config : Config) (hint : Hint) (record : NodeRecord) :
    ((∃ node, ofRecord config hint record = .ok node) ↔
      ∃ keys, record.Sound config hint.layer? keys) ∧
    (∀ defect, ofRecord config hint record = .error defect → hint ≠ .unknown 0 →
      ∀ (store : Blockstore Id) (address : Cid) (bytes : Bytes),
        (store.get? address).run = .ok (some bytes) →
        config.codec.address bytes = .ok address → config.codec.decode bytes = .ok record →
          ((Subtree.unresolved address hint).resolve store config).run =
            .error (.malformedNode defect)) ∧
    ∀ node, ofRecord config hint record = .ok node → ∃ (keys : List String) (below : Hint),
      keys.map Bytes.ofText = record.keyBytes ∧
      node.layer = NodeRecord.layer? config hint.layer? keys ∧
      node.entries = record.left.toList.map (fun address => .tree (.unresolved address below)) ++
        (record.leaves.zip keys).flatMap (fun (leaf, key) =>
          .leaf ⟨key, leaf.value⟩ :: leaf.right.toList.map fun address =>
            .tree (.unresolved address below)) ∧
      node.entries.IsChain Entry.Apart ∧
      ((∃ t, .tree t ∈ node.entries) →
        (∃ n, node.layer = some (n + 1) ∧ below = .layer n) ∨
          node.layer = none ∧ below.layer? = none) := by
  refine ⟨⟨fun ⟨node, h⟩ => exists_sound h, fun ⟨texts, h⟩ => ⟨_, ofRecord_of_sound h⟩⟩, ?_, ?_⟩
  · intro defect h hhint store address bytes hget haddress hdecode
    exact resolve_of_ofRecord_error h hhint hget haddress hdecode
  · intro node h
    obtain ⟨texts, hsound, rfl⟩ := ofRecord_iff_exists.1 h
    refine ⟨texts, hint.below (NodeRecord.layer? config hint.layer? texts), hsound.text, rfl, ?_,
      (Entry.isChain_apart_map _).2 NodeRecord.toEntries_apart, ?_⟩
    · simp only [described, NodeRecord.toEntries_eq, List.map_append, List.map_flatMap,
        List.map_cons, NodeRecord.map_subtree, Entry.map_leaf]
    · rintro ⟨t, ht⟩
      exact below_of_mem_described hsound ht

theorem ofRecord_iff_sound_of_common_prefix :
    let config : Config := { hasher := .tail }
    let record (shared : UInt64) : NodeRecord :=
      ⟨none, [⟨0, Bytes.ofText "a/c-1", Sample.high.value, some Sample.low.value⟩,
        ⟨shared, Bytes.ofText "d-1", Sample.last.value, none⟩]⟩
    let address := Cid.ofBlock Cid.dagCbor (record 6).toCbor
    (∃ node, ofRecord config (.layer 1) (record 2) = .ok node ∧ node.entries =
      [.leaf Sample.high, .tree (.unresolved Sample.low.value (.layer 0)), .leaf Sample.last]) ∧
    ((Subtree.unresolved address (.layer 1)).resolve
      (.snapshot (({} : BlockMap).insert address (record 6).toCbor)) config).run =
        .error (.malformedNode (.sharedTooLong 6)) := by
  intro config record address
  constructor
  · have hsound : (record 2).Sound config (Hint.layer 1).layer? ["a/c-1", "a/d-1"] :=
      ⟨by decide, by decide, by decide, by decide, by decide, by decide⟩
    obtain ⟨hiff, -, hentries⟩ := ofRecord_iff_sound config (.layer 1) (record 2)
    obtain ⟨node, hnode⟩ := hiff.2 ⟨_, hsound⟩
    obtain ⟨keys, below, htext, hlayer, hes, -, hmarked⟩ := hentries node hnode
    have hkeys : keys = ["a/c-1", "a/d-1"] :=
      List.map_injective_iff.2 Bytes.ofText_injective (htext.trans hsound.text.symm)
    subst hkeys
    have hmem : .tree (.unresolved Sample.low.value below) ∈ node.entries := by simp [hes, record]
    have hbelow : below = .layer 0 := by
      rcases hmarked ⟨_, hmem⟩ with ⟨n, hn, rfl⟩ | ⟨hnone, -⟩
      · rw [hlayer] at hn
        cases hn
        rfl
      · rw [hlayer] at hnone
        cases hnone
    rw [hbelow] at hes
    exact ⟨node, hnode, hes⟩
  · have herror : ofRecord config (.layer 1) (record 6) = .error (.sharedTooLong 6) := by cbv
    have hwritable : (record 6).Writable := ⟨by decide, by decide⟩
    exact (ofRecord_iff_sound config (.layer 1) (record 6)).2.1 _ herror (by decide) _ address _
      (Blockstore.run_get?_snapshot_eq Std.TreeMap.getElem?_insert_self) rfl
      (NodeCodec.decodeCbor_toCbor hwritable)

end NodeOf

end MerkleSearch
