import Mathlib.Algebra.Group.Nat.Defs
import Mathlib.Data.List.Basic
import MerkleSearch.Config

/-!
This module contains the way of a record into bytes and back. A reader takes off the front what its
writer has written, whatever follows, so that every record is read as what it was
(`NodeRecord.ofCbor?_toCbor`). The main statement is `NodeCodec.dagCbor_roundTrip`: the codec loses
nothing, and no two records have the same block.
-/

namespace MerkleSearch

namespace Varint

theorem read?_encode_of_lt {size n : Nat} (h : n < 128) (rest : Bytes) :
    read? (size + 1) (encode n ++ rest) = some (n, rest) := by
  have hbyte : (UInt8.ofNat n).toNat = n := by
    rw [UInt8.toNat_ofNat']
    omega
  have hlt : UInt8.ofNat n < 128 := by
    rw [UInt8.lt_iff_toNat_lt, hbyte]
    exact h
  rw [encode, if_pos h, List.singleton_append, read?, if_pos hlt, hbyte]

theorem read?_encode {size n : Nat} (h : n < 128 ^ (size + 1)) (rest : Bytes) :
    read? (size + 1) (encode n ++ rest) = some (n, rest) := by
  induction size generalizing n with
  | zero => exact read?_encode_of_lt h rest
  | succ size ih =>
    by_cases hshort : n < 128
    · exact read?_encode_of_lt hshort rest
    · have hbyte : (UInt8.ofNat (n % 128 + 128)).toNat = n % 128 + 128 := by
        rw [UInt8.toNat_ofNat']
        omega
      have hge : ¬UInt8.ofNat (n % 128 + 128) < 128 := by
        rw [UInt8.lt_iff_toNat_lt, hbyte]
        exact Nat.not_lt.2 (Nat.le_add_left _ _)
      have hrest := ih ((Nat.div_lt_iff_lt_mul (by decide)).2 h)
      obtain ⟨m, hm⟩ : ∃ m, n / 128 = m + 1 := Nat.exists_eq_succ_of_ne_zero (by omega)
      rw [encode, if_neg hshort, List.cons_append, read?, if_neg hge, hrest, hm]
      dsimp only
      rw [hbyte, Nat.add_sub_cancel, ← hm, Nat.div_add_mod]

theorem length_encode_le {size n : Nat} (h : n < 128 ^ (size + 1)) :
    (encode n).length ≤ size + 1 := by
  induction size generalizing n with
  | zero =>
    have hshort : n < 128 := h
    rw [encode, if_pos hshort]
    exact Nat.le_refl 1
  | succ size ih =>
    rw [encode]
    split
    · exact Nat.succ_le_succ (Nat.zero_le _)
    · exact Nat.succ_le_succ (ih ((Nat.div_lt_iff_lt_mul (by decide)).2 h))

theorem readWord?_encode (n : UInt64) (rest : Bytes) :
    readWord? (encode n.toNat ++ rest) = some (n, rest) := by
  have hn := n.toNat_lt
  unfold readWord?
  rw [read?_encode (by omega)]
  simp

end Varint

namespace Multihash

theorem read?_toBytes (h : Multihash) (rest : Bytes) :
    read? (h.toBytes ++ rest) = some (h, rest) := by
  obtain ⟨code, digest, hlength⟩ := h
  have hsize : (UInt64.ofNat digest.length).toNat = digest.length := by
    rw [UInt64.toNat_ofNat']
    omega
  have hword := Varint.readWord?_encode (UInt64.ofNat digest.length) (digest ++ rest)
  rw [hsize] at hword
  unfold read? toBytes
  simp [Varint.readWord?_encode, hword, hsize, hlength]

end Multihash

namespace Cid

theorem read?_toBytes (c : Cid) (rest : Bytes) : read? (c.toBytes ++ rest) = some (c, rest) := by
  cases c with
  | v0 digest hlength =>
    have hcode : Varint.readWord? (0x12 :: 0x20 :: (digest ++ rest)) =
        some (0x12, 0x20 :: (digest ++ rest)) :=
      rfl
    have hsize : Varint.readWord? (0x20 :: (digest ++ rest)) = some (0x20, digest ++ rest) := rfl
    unfold read? toBytes
    simp [hcode, hsize, ← hlength]
  | v1 codec hash =>
    have hversion : ∀ rest, Varint.readWord? (Varint.encode 1 ++ rest) = some (1, rest) :=
      Varint.readWord?_encode 1
    unfold read? toBytes
    simp [hversion, Varint.readWord?_encode, Multihash.read?_toBytes]

theorem length_toBytes_lt (c : Cid) : c.toBytes.length < 128 := by
  cases c with
  | v0 digest hlength => simp [toBytes, hlength]
  | v1 codec hash =>
    have hversion : (Varint.encode 1).length ≤ 1 := Varint.length_encode_le (by decide)
    have hcodec := codec.toNat_lt
    have hcode := hash.code.toNat_lt
    have hlength := hash.length_digest_le
    have hcodec : (Varint.encode codec.toNat).length ≤ 9 + 1 := Varint.length_encode_le (by omega)
    have hcode : (Varint.encode hash.code.toNat).length ≤ 9 + 1 :=
      Varint.length_encode_le (by omega)
    have hsize : (Varint.encode hash.digest.length).length ≤ 0 + 1 :=
      Varint.length_encode_le (by omega)
    simp only [toBytes, Multihash.toBytes, List.length_append]
    omega

theorem ofBytes?_toBytes (c : Cid) : ofBytes? c.toBytes = some c := by
  have h := read?_toBytes c []
  rw [List.append_nil] at h
  rw [ofBytes?, h]
  rfl

end Cid

namespace Cbor

variable {α β : Type} {bs cs : Bytes} {a : α} {b : β} {r : Reader α} {f : α → Reader β}

/--
The reader takes `bs` off the front, whatever follows, and makes `a` of it.
-/
def Reads (r : Reader α) (bs : Bytes) (a : α) : Prop := ∀ rest, r.run (bs ++ rest) = some (a, rest)

namespace Reads

theorem pure : Reads (Pure.pure a) [] a := fun _ => rfl

theorem bind (h : Reads r bs a) (hf : Reads (f a) cs b) : Reads (r >>= f) (bs ++ cs) b := by
  intro rest
  rw [StateT.run_bind, List.append_assoc, h]
  exact hf rest

theorem bind_nil (h : Reads r bs a) (hf : Reads (f a) [] b) : Reads (r >>= f) bs b := by
  have hread := h.bind hf
  rwa [List.append_nil] at hread

theorem map (g : α → β) (h : Reads r bs a) : Reads (g <$> r) bs (g a) := by
  intro rest
  rw [StateT.run_map, h]
  rfl

theorem byte (x : UInt8) : Reads Reader.byte [x] x := fun _ => rfl

theorem peek_bind {x : UInt8} {g : UInt8 → Reader β} (h : Reads (g x) (x :: cs) b) :
    Reads (Reader.peek >>= g) (x :: cs) b := by
  intro rest
  rw [StateT.run_bind]
  exact h rest

theorem take {n : Nat} (h : bs.length = n) : Reads (Reader.take n) bs bs := by
  intro rest
  unfold Reader.take
  simp [StateT.run_bind, ← h]

theorem info_eq {major info : UInt8} (hmajor : major < 8) (hinfo : info < 28) :
    initial major info &&& ~~~initial major 0 = info := by
  have hall : ∀ m : Fin 8, ∀ i : Fin 28,
      initial (.ofNat m) (.ofNat i) &&& ~~~initial (.ofNat m) 0 = .ofNat i := by decide
  simpa using hall ⟨major.toNat, hmajor⟩ ⟨info.toNat, hinfo⟩

theorem initial_ne {major info : UInt8} (hmajor : major < 8) (hinfo : info < 28) :
    initial major info ≠ initial major 31 := by
  have hall : ∀ m : Fin 8, ∀ i : Fin 28,
      initial (.ofNat m) (.ofNat i) ≠ initial (.ofNat m) 31 := by decide
  simpa using hall ⟨major.toNat, hmajor⟩ ⟨info.toNat, hinfo⟩

theorem argument_of_info {major info : UInt8} {n : Nat} (hmajor : major < 8) (hinfo : info < 28)
    (h : Reads (Reader.argumentOf info) bs n) :
    Reads (Reader.argument major) (initial major info :: bs) n := by
  unfold Reader.argument
  rw [← List.singleton_append]
  apply (Reads.byte _).bind
  rw [info_eq hmajor hinfo]
  exact h

theorem exists_head {major : UInt8} {n : Nat} (h : n < 2 ^ 64) :
    ∃ info bs, info < 28 ∧ head major n = initial major info :: bs ∧
      Reads (Reader.argumentOf info) bs n := by
  have hnumber : ∀ {width : Nat}, n < Nat.pow 256 width →
      Reads (Bytes.ofBigEndian <$> Reader.take width) (Bytes.bigEndian width n) n := by
    intro width hn
    have hread := (Reads.take (Bytes.length_bigEndian width n)).map Bytes.ofBigEndian
    rwa [Bytes.ofBigEndian_bigEndian hn] at hread
  unfold head
  split_ifs with h₁ h₂ h₃ h₄
  · have hbyte : (UInt8.ofNat n).toNat = n := by
      rw [UInt8.toNat_ofNat']
      omega
    have hlt : UInt8.ofNat n < 24 := by
      rw [UInt8.lt_iff_toNat_lt, hbyte]
      exact h₁
    refine ⟨.ofNat n, [], UInt8.lt_trans hlt (by decide), rfl, ?_⟩
    unfold Reader.argumentOf
    rw [if_pos hlt, hbyte]
    exact Reads.pure
  · exact ⟨24, _, by decide, rfl, hnumber h₂⟩
  · exact ⟨25, _, by decide, rfl, hnumber h₃⟩
  · exact ⟨26, _, by decide, rfl, hnumber h₄⟩
  · exact ⟨27, _, by decide, rfl, hnumber h⟩

theorem argument {major : UInt8} {n : Nat} (hmajor : major < 8) (h : n < 2 ^ 64) :
    Reads (Reader.argument major) (head major n) n := by
  obtain ⟨info, bs, hinfo, heq, hread⟩ := exists_head h
  rw [heq]
  exact argument_of_info hmajor hinfo hread

theorem stringOf {major : UInt8} {chunk : Reader Bytes} (hmajor : major < 8)
    (h : bs.length < 2 ^ 64) :
    Reads (Reader.stringOf major chunk) (head major bs.length ++ bs) bs := by
  obtain ⟨info, tail, hinfo, heq, hread⟩ := exists_head h
  rw [heq, List.cons_append]
  apply peek_bind
  rw [if_neg (initial_ne hmajor hinfo), ← List.cons_append]
  exact (argument_of_info hmajor hinfo hread).bind (take rfl)

theorem string {major : UInt8} {levels : Nat} (hmajor : major < 8) (h : bs.length < 2 ^ 64) :
    Reads (Reader.string major levels) (head major bs.length ++ bs) bs := by
  cases levels <;> exact stringOf hmajor h

theorem byteString {levels : Nat} (h : bs.length < 2 ^ 64) :
    Reads (Reader.byteString levels) (Cbor.byteString bs) bs :=
  string (by decide) h

theorem text {levels : Nat} {s : String} (h : (Bytes.ofText s).length < 2 ^ 64) :
    Reads (Reader.text levels) (Cbor.text s) s := by
  apply (string (by decide) h).bind_nil
  rw [Bytes.text?_ofText]
  exact .pure

theorem link {levels : Nat} (c : Cid) : Reads (Reader.link levels) (Cbor.link c) c := by
  have hlength : (0 :: c.toBytes).length < 2 ^ 64 := by
    have := c.length_toBytes_lt
    rw [List.length_cons]
    omega
  obtain ⟨info, tail, hinfo, heq, -⟩ := @exists_head Major.bytes _ hlength
  have hmajor : initial Major.bytes info >>> 5 = Major.bytes := by
    have hall : ∀ i : Fin 28, initial Major.bytes (.ofNat i) >>> 5 = Major.bytes := by decide
    simpa using hall ⟨info.toNat, hinfo⟩
  have hread :
      Reads (Reader.byteString levels) (initial Major.bytes info :: (tail ++ 0 :: c.toBytes))
        (0 :: c.toBytes) := by
    rw [← List.cons_append, ← heq]
    exact byteString hlength
  unfold Reader.link Cbor.link
  apply (argument (by decide) (by decide)).bind
  dsimp only
  rw [if_pos rfl, Cbor.byteString, heq]
  apply peek_bind
  rw [if_pos hmajor]
  apply hread.bind_nil
  simp only [Cid.ofBytes?_toBytes]
  exact .pure

theorem linkOrNull {levels : Nat} (c : Option Cid) :
    Reads (Reader.linkOrNull (levels + 1)) (Cbor.linkOrNull c) c := by
  cases c with
  | none =>
    have hread : Reads (Reader.byte >>= fun _ => Pure.pure none) [0xf6] (none : Option Cid) :=
      (byte _).bind_nil .pure
    exact peek_bind hread
  | some c =>
    have hread : Reads (Reader.link levels >>= fun a => Pure.pure (some a)) _ _ := (link c).map some
    have hfirst : Cbor.link c = 0xd8 :: (0x2a :: Cbor.byteString (0 :: c.toBytes)) := rfl
    rw [hfirst] at hread
    show Reads _ (Cbor.link c) _
    rw [hfirst]
    unfold Reader.linkOrNull
    apply peek_bind
    rw [if_neg (by decide)]
    exact hread

theorem int {n : Nat} (h : n < 2 ^ 64) : Reads (Reader.argument Major.unsigned) (Cbor.int n) n := by
  rw [Cbor.int, if_pos (Int.natCast_nonneg n), Int.toNat_natCast]
  exact argument (by decide) h

theorem times {item : Reader α} {write : α → Bytes} (as : List α)
    (h : ∀ a ∈ as, Reads item (write a) a) :
    Reads (Reader.times item as.length) (as.map write).flatten as := by
  induction as with
  | nil => exact .pure
  | cons a as ih =>
    rw [List.forall_mem_cons] at h
    exact h.1.bind ((ih h.2).bind_nil .pure)

section Fields

variable {σ : Type} {levels : Nat} {field : σ → String → Reader σ} {found found' final : σ}
variable {value : Bytes} {key : String}

theorem go_cons {n : Nat} (hkey : (Bytes.ofText key).length < 2 ^ 64)
    (h : Reads (field found key) value found')
    (hrest : Reads (Reader.fields.go levels field found' n) bs final) :
    Reads (Reader.fields.go levels field found (n + 1)) (Cbor.text key ++ value ++ bs) final := by
  rw [List.append_assoc]
  exact (text hkey).bind (h.bind hrest)

theorem fields {n : Nat} {initial : σ} (hn : n < 2 ^ 64)
    (h : Reads (Reader.fields.go levels field initial n) bs final) :
    Reads (Reader.fields initial levels field) (head Major.map n ++ bs) final :=
  (argument (by decide) hn).bind h

end Fields

end Reads

end Cbor

open Cbor

theorem Cbor.map_eq {fields : List (String × Bytes)}
    (h : (fields.map Prod.fst).Pairwise fun a b =>
      ((compare a.utf8ByteSize b.utf8ByteSize).then (compare a b)).isLE) :
    map fields = head Major.map fields.length ++ fields.flatMap fun (key, value) =>
      text key ++ value := by
  have hsorted : fields.Pairwise fun a b =>
      ((compare a.1.utf8ByteSize b.1.utf8ByteSize).then (compare a.1 b.1)).isLE :=
        List.pairwise_map.1 h
  unfold map
  dsimp only
  rw [List.mergeSort_of_pairwise hsorted]

theorem Cbor.Reads.once {value : Reader α} (h : Reads value bs a) :
    Reads (Reader.once none value) bs (some a) :=
  h.map some

namespace LeafRecord

theorem toCbor_eq (leaf : LeafRecord) : leaf.toCbor = head Major.map 4 ++
    (text "k" ++ byteString leaf.suffix ++ (text "p" ++ int leaf.shared.toNat ++
      (text "t" ++ linkOrNull leaf.right ++ (text "v" ++ link leaf.value ++ [])))) := by
  rw [toCbor, Cbor.map_eq]
  · simp
  · show List.Pairwise _ ["k", "p", "t", "v"]
    decide

theorem length_suffix_lt (leaf : LeafRecord) : leaf.suffix.length < leaf.toCbor.length := by
  have hhead : (head Major.map 4).length = 1 := rfl
  simp only [toCbor_eq, byteString, List.length_append, hhead]
  omega

theorem reads {levels : Nat} {leaf : LeafRecord} (h : leaf.suffix.length < 2 ^ 64) :
    Reads (reader (levels + 2)) leaf.toCbor leaf := by
  have hsuffix : Reads (Fields.read (levels + 1) {} "k") (byteString leaf.suffix)
      ⟨some leaf.suffix, none, none, none⟩ :=
    show Reads (_ >>= _) _ _ from (Reads.byteString h).once.bind_nil .pure
  have hshared :
      Reads (Fields.read (levels + 1) ⟨some leaf.suffix, none, none, none⟩ "p")
        (int leaf.shared.toNat) ⟨some leaf.suffix, some leaf.shared.toNat, none, none⟩ :=
    show Reads (_ >>= _) _ _ from (Reads.int leaf.shared.toNat_lt).once.bind_nil .pure
  have hright :
      Reads (Fields.read (levels + 1) ⟨some leaf.suffix, some leaf.shared.toNat, none, none⟩ "t")
        (linkOrNull leaf.right) ⟨some leaf.suffix, some leaf.shared.toNat, some leaf.right, none⟩ :=
    show Reads (_ >>= _) _ _ from (Reads.linkOrNull leaf.right).once.bind_nil .pure
  have hvalue :
      Reads
        (Fields.read (levels + 1) ⟨some leaf.suffix, some leaf.shared.toNat, some leaf.right, none⟩
          "v") (link leaf.value) ⟨some leaf.suffix, some leaf.shared.toNat, some leaf.right,
          some leaf.value⟩ :=
    show Reads (_ >>= _) _ _ from (Reads.link leaf.value).once.bind_nil .pure
  have hread : Reads (Reader.fields {} (levels + 1) (Fields.read (levels + 1))) leaf.toCbor
      ⟨some leaf.suffix, some leaf.shared.toNat, some leaf.right, some leaf.value⟩ := by
    rw [toCbor_eq]
    apply Reads.fields (by decide)
    apply Reads.go_cons (by decide) hsuffix
    apply Reads.go_cons (by decide) hshared
    apply Reads.go_cons (by decide) hright
    apply Reads.go_cons (by decide) hvalue
    exact .pure
  apply hread.bind_nil
  simp only [UInt64.ofNat_toNat]
  exact .pure

end LeafRecord

namespace NodeRecord

theorem toCbor_eq (record : NodeRecord) :
    record.toCbor = head Major.map 2 ++
      (text "e" ++ array (record.leaves.map LeafRecord.toCbor) ++
        (text "l" ++ linkOrNull record.left ++ [])) := by
  rw [toCbor, Cbor.map_eq]
  · simp
  · show List.Pairwise _ ["e", "l"]
    decide

/--
The record has no more leaves, and these no longer keys, than the head of an item can say.
-/
structure Writable (record : NodeRecord) : Prop where
  leaves : record.leaves.length < 2 ^ 64
  suffix : ∀ leaf ∈ record.leaves, leaf.suffix.length < 2 ^ 64

theorem length_flatten_le (record : NodeRecord) :
    (record.leaves.map LeafRecord.toCbor).flatten.length ≤ record.toCbor.length := by
  simp only [toCbor_eq, array, List.length_append]
  omega

theorem writable_of_length_lt {record : NodeRecord} (h : record.toCbor.length < 2 ^ 64) :
    record.Writable := by
  have hflatten := Nat.lt_of_le_of_lt record.length_flatten_le h
  constructor
  · have hcount : ∀ leaves : List LeafRecord,
        leaves.length ≤ (leaves.map LeafRecord.toCbor).flatten.length := by
      intro leaves
      induction leaves with
      | nil => exact Nat.le_refl 0
      | cons leaf leaves ih =>
        have hleaf := leaf.length_suffix_lt
        rw [List.map_cons, List.flatten_cons, List.length_append, List.length_cons]
        omega
    exact Nat.lt_of_le_of_lt (hcount record.leaves) hflatten
  · intro leaf hleaf
    have hsub : leaf.toCbor.length ≤ (record.leaves.map LeafRecord.toCbor).flatten.length :=
      (List.sublist_flatten_of_mem (List.mem_map_of_mem hleaf)).length_le
    exact Nat.lt_trans leaf.length_suffix_lt (Nat.lt_of_le_of_lt hsub hflatten)

theorem reads {levels : Nat} {record : NodeRecord} (h : record.Writable) :
    Reads (reader (levels + 4)) record.toCbor record := by
  have hlist :
      Reads (LeafRecord.listReader (levels + 3)) (array (record.leaves.map LeafRecord.toCbor))
        record.leaves := by
    rw [array, List.length_map]
    apply (Reads.argument (by decide) h.leaves).bind
    exact Reads.times record.leaves fun leaf hleaf => LeafRecord.reads (h.suffix leaf hleaf)
  have hleaves :
      Reads (Fields.read (levels + 3) {} "e") (array (record.leaves.map LeafRecord.toCbor))
        ⟨some record.leaves, none⟩ :=
    show Reads (_ >>= _) _ _ from hlist.once.bind_nil .pure
  have hleft :
      Reads (Fields.read (levels + 3) ⟨some record.leaves, none⟩ "l") (linkOrNull record.left)
        ⟨some record.leaves, some record.left⟩ :=
    show Reads (_ >>= _) _ _ from (Reads.linkOrNull record.left).once.bind_nil .pure
  have hread : Reads (Reader.fields {} (levels + 3) (Fields.read (levels + 3))) record.toCbor
      ⟨some record.leaves, some record.left⟩ := by
    rw [toCbor_eq]
    apply Reads.fields (by decide)
    apply Reads.go_cons (by decide) hleaves
    apply Reads.go_cons (by decide) hleft
    exact .pure
  exact hread.bind_nil .pure

theorem ofCbor?_toCbor {record : NodeRecord} (h : record.Writable) :
    ofCbor? record.toCbor = some record := by
  have hrun : reader maxLevels (record.toCbor ++ []) = some (record, []) := reads h []
  rw [List.append_nil] at hrun
  rw [ofCbor?, hrun]

end NodeRecord

namespace NodeCodec

theorem decodeCbor_toCbor {record : NodeRecord} (h : record.Writable) :
    decodeCbor record.toCbor = .ok record :=
  decodeCbor_eq_ok.2 (NodeRecord.ofCbor?_toCbor h)

theorem dagCbor_roundTrip {record : NodeRecord} (h : record.Writable) :
    ∃ bytes, dagCbor.encode record = .ok bytes ∧ dagCbor.decode bytes = .ok record ∧
      ∀ other : NodeRecord, other.Writable → dagCbor.encode other = .ok bytes → other = record := by
  refine ⟨record.toCbor, rfl, decodeCbor_toCbor h, ?_⟩
  intro other hother hencode
  have heq : other.toCbor = record.toCbor := Except.ok.inj hencode
  have hread := NodeRecord.ofCbor?_toCbor hother
  rw [heq, NodeRecord.ofCbor?_toCbor h] at hread
  exact (Option.some.inj hread).symm

theorem dagCbor_roundTrip_of_all_kinds :
    let short : Cid := .v1 0 ⟨0, [], by decide⟩
    let long : Cid := .v1 0xffffffffffffffff ⟨0x8000000000000000, List.replicate 64 0xff, by decide⟩
    let old : Cid := .v0 (List.replicate 32 0) (by decide)
    let record : NodeRecord :=
      ⟨some old, [⟨0, [], short, none⟩, ⟨0xffffffffffffffff, [0xff, 0x00], long, some long⟩]⟩
    record.Writable ∧ ∃ bytes, dagCbor.encode record = .ok bytes ∧
      dagCbor.decode bytes = .ok record ∧
      ∀ other : NodeRecord, other.Writable → dagCbor.encode other = .ok bytes → other = record := by
  intro short long old record
  have h : record.Writable := by
    constructor
    · decide
    · simp [record]
  exact ⟨h, dagCbor_roundTrip h⟩

end NodeCodec

end MerkleSearch
