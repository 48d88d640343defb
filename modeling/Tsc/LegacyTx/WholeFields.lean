import Tsc.LegacyTx.Decoder

/-!
# Whole protobuf fields

A field is whole if its tag is a varint and its payload is all there: a varint, eight
bytes, a length and that many bytes, or four bytes. `WholeField` carries both facts, so
that a list of whole fields is a byte string every parser splits in the same way.
Varints need not be written in the shortest way.
-/

namespace Tsc.LegacyTx

open Go Sdk

/-! ### Varints -/

/-- Up to nine bytes with the high bit set and one without. -/
def IsVarint (b : Bytes) : Prop :=
  ∃ groups last, b = groups ++ [last] ∧ groups.length ≤ 9 ∧ (∀ x ∈ groups, 128 ≤ x.val) ∧
    last.val < 128

def varintValue (b : Bytes) : ℕ := (protoDecodeVarint b).1

theorem varintValue_lt (b : Bytes) : varintValue b < 2 ^ 64 := protoDecodeVarint_lt b

theorem varintLoop_groups {groups : Bytes} (hg : ∀ x ∈ groups, 128 ≤ x.val) {last : Byte}
    (hlast : last.val < 128) (rest : Bytes) {i val : ℕ} (hi : i + groups.length ≤ 9) :
    (varintLoop i val (groups ++ last :: rest)).2 = i + groups.length + 1 := by
  induction groups generalizing i val with
  | nil =>
    rw [List.length_nil] at hi
    rw [List.nil_append]
    unfold varintLoop
    dsimp only
    rw [if_pos (by omega), if_pos hlast]
    rfl
  | cons b groups ih =>
    obtain ⟨hb, hg⟩ := List.forall_mem_cons.mp hg
    rw [List.length_cons] at hi ⊢
    rw [List.cons_append]
    unfold varintLoop
    dsimp only
    rw [if_pos (by omega), if_neg (by omega), ih hg (by omega)]
    omega

theorem exists_groups {i val : ℕ} {data : Bytes} (h : (varintLoop i val data).2 ≠ 0) :
    ∃ groups last rest, data = groups ++ last :: rest ∧ i + groups.length ≤ 9 ∧
      (∀ x ∈ groups, 128 ≤ x.val) ∧ last.val < 128 := by
  induction data generalizing i val with
  | nil => exact absurd rfl h
  | cons b bs ih =>
    unfold varintLoop at h
    dsimp only at h
    split_ifs at h with hi hb
    · exact ⟨[], b, bs, rfl, by rw [List.length_nil]; omega, by simp, hb⟩
    · obtain ⟨groups, last, rest, rfl, hlen, hg, hlast⟩ := ih h
      refine ⟨b :: groups, last, rest, rfl, by rw [List.length_cons]; omega, ?_, hlast⟩
      exact List.forall_mem_cons.mpr ⟨by omega, hg⟩
    · exact absurd rfl h

theorem exists_isVarint {data : Bytes} (h : (protoDecodeVarint data).2 ≠ 0) :
    ∃ b rest, data = b ++ rest ∧ IsVarint b := by
  obtain ⟨groups, last, rest, rfl, hlen, hg, hlast⟩ := exists_groups h
  refine ⟨groups ++ [last], rest, ?_, groups, last, rfl, by omega, hg, hlast⟩
  rw [List.append_assoc, List.singleton_append]

theorem isVarint_singleton {b : Byte} (h : b.val < 128) : IsVarint [b] :=
  ⟨[], b, rfl, by simp, by simp, h⟩

namespace IsVarint

variable {a b x y : Bytes}

theorem length_pos (h : IsVarint b) : 0 < b.length := by
  obtain ⟨groups, last, rfl, -⟩ := h
  rw [List.length_append, List.length_singleton]
  omega

/-- The decoders read a varint and stop behind it. -/
theorem decode (h : IsVarint b) (rest : Bytes) :
    protoDecodeVarint (b ++ rest) = (varintValue b, b.length) := by
  have hsize : (protoDecodeVarint b).2 = b.length := by
    obtain ⟨groups, last, rfl, hlen, hg, hlast⟩ := h
    rw [List.length_append, List.length_singleton]
    refine (varintLoop_groups hg hlast [] (by omega)).trans ?_
    omega
  have hne : (varintLoop 0 0 b).2 ≠ 0 := hsize.trans_ne h.length_pos.ne'
  exact (varintLoop_append_of_ne hne rest).trans (Prod.ext rfl hsize)

theorem append_inj (ha : IsVarint a) (hb : IsVarint b) (h : a ++ x = b ++ y) : a = b ∧ x = y := by
  have hread := ha.decode x
  rw [h, hb.decode y] at hread
  exact List.append_inj h (congrArg Prod.snd hread).symm

end IsVarint

/-! ### Payloads and fields -/

/-- The payload of a field with the wire type, all of it. -/
inductive IsPayload : ℕ → Bytes → Prop
  | varint {p : Bytes} (h : IsVarint p) : IsPayload 0 p
  | fixed64 {p : Bytes} (h : p.length = 8) : IsPayload 1 p
  | bytes {size content : Bytes} (hsize : IsVarint size) (h : content.length = varintValue size) :
      IsPayload 2 (size ++ content)
  | fixed32 {p : Bytes} (h : p.length = 4) : IsPayload 5 p

/-- What stands behind the length of a length-delimited payload. -/
def payloadContent (p : Bytes) : Bytes := p.drop (protoDecodeVarint p).2

theorem payloadContent_append {size : Bytes} (h : IsVarint size) (content : Bytes) :
    payloadContent (size ++ content) = content := by
  unfold payloadContent
  rw [h.decode]
  exact List.drop_left

theorem IsPayload.append_inj {w : ℕ} {p q x y : Bytes} (hp : IsPayload w p) (hq : IsPayload w q)
    (h : p ++ x = q ++ y) : p = q ∧ x = y := by
  cases hp with
  | varint hp =>
    cases hq with
    | varint hq => exact hp.append_inj hq h
  | fixed64 hp =>
    cases hq with
    | fixed64 hq => exact List.append_inj h (hp.trans hq.symm)
  | @bytes size content hsize hcontent =>
    generalize hw : 2 = w at hq
    cases hq with
    | @bytes size' content' hsize' hcontent' =>
      rw [List.append_assoc, List.append_assoc] at h
      obtain ⟨rfl, hrest⟩ := hsize.append_inj hsize' h
      obtain ⟨rfl, hend⟩ := List.append_inj hrest (hcontent.trans hcontent'.symm)
      exact ⟨rfl, hend⟩
    | _ => cases hw
  | fixed32 hp =>
    cases hq with
    | fixed32 hq => exact List.append_inj h (hp.trans hq.symm)

structure WholeField where
  tag : Bytes
  payload : Bytes
  isVarint : IsVarint tag
  isPayload : IsPayload (varintValue tag % 8) payload

namespace WholeField

def num (f : WholeField) : ℕ := varintValue f.tag / 8

def wireType (f : WholeField) : ℕ := varintValue f.tag % 8

def bytes (f : WholeField) : Bytes := f.tag ++ f.payload

theorem bytes_pos (f : WholeField) : 0 < f.bytes.length := by
  have hpos := f.isVarint.length_pos
  unfold bytes
  rw [List.length_append]
  omega

/-- Where a whole field begins, only one does. -/
theorem bytes_append_inj {f g : WholeField} {x y : Bytes} (h : f.bytes ++ x = g.bytes ++ y) :
    f.bytes = g.bytes ∧ x = y := by
  unfold bytes at h ⊢
  rw [List.append_assoc, List.append_assoc] at h
  obtain ⟨htag, h⟩ := f.isVarint.append_inj g.isVarint h
  obtain ⟨hpayload, h⟩ := f.isPayload.append_inj (htag ▸ g.isPayload) h
  exact ⟨by rw [htag, hpayload], h⟩

end WholeField

def wholeBytes (fs : List WholeField) : Bytes := fs.flatMap WholeField.bytes

theorem wholeBytes_cons (f : WholeField) (fs : List WholeField) :
    wholeBytes (f :: fs) = f.bytes ++ wholeBytes fs := List.flatMap_cons

theorem wholeBytes_append (fs gs : List WholeField) :
    wholeBytes (fs ++ gs) = wholeBytes fs ++ wholeBytes gs := List.flatMap_append

theorem wholeBytes_concat (fs : List WholeField) (f : WholeField) :
    wholeBytes (fs ++ [f]) = wholeBytes fs ++ f.bytes := by
  rw [wholeBytes_append, wholeBytes_cons]
  exact congrArg _ (List.append_nil _)

theorem length_wholeBytes (fs : List WholeField) :
    (wholeBytes fs).length = (fs.map fun f => f.bytes.length).sum := by
  unfold wholeBytes
  rw [List.length_flatMap]

/-- The bytes are whole fields, one after the other. -/
def Complete (data : Bytes) : Prop := ∃ fs, data = wholeBytes fs

/-! ### Reading at a cursor -/

/-- The bytes `b` are in the data at offset `i`. -/
def StandsAt (data b : Bytes) (i : ℕ) : Prop := ∃ pre post, data = pre ++ (b ++ post) ∧ pre.length = i

section Reading

variable {data a b : Bytes} {i w : ℕ}

theorem StandsAt.left (h : StandsAt data (a ++ b) i) : StandsAt data a i := by
  obtain ⟨pre, post, hdata, hi⟩ := h
  exact ⟨pre, b ++ post, by rw [hdata, List.append_assoc], hi⟩

theorem StandsAt.right (h : StandsAt data (a ++ b) i) : StandsAt data b (i + a.length) := by
  obtain ⟨pre, post, hdata, hi⟩ := h
  refine ⟨pre ++ a, post, by rw [hdata, List.append_assoc, List.append_assoc], ?_⟩
  rw [List.length_append, hi]

theorem StandsAt.drop_eq (h : StandsAt data b i) : ∃ post, data.drop i = b ++ post := by
  obtain ⟨pre, post, hdata, hi⟩ := h
  exact ⟨post, by rw [hdata, ← hi, List.drop_left]⟩

theorem StandsAt.of_drop {rest : Bytes} (hi : i ≤ data.length) (h : data.drop i = b ++ rest) :
    StandsAt data b i := by
  refine ⟨data.take i, rest, ?_, by rw [List.length_take, min_eq_left hi]⟩
  rw [← h, List.take_append_drop]

theorem StandsAt.le (h : StandsAt data b i) : i + b.length ≤ data.length := by
  obtain ⟨pre, post, hdata, hi⟩ := h
  rw [hdata, List.length_append, List.length_append, hi]
  omega

theorem StandsAt.sliceFrom_eq (h : StandsAt data b i) : sliceFrom data i = .ok (data.drop i) := by
  have hle := h.le
  unfold sliceFrom
  rw [if_pos ⟨by omega, by omega⟩, Int.toNat_natCast]

theorem StandsAt.slice_eq (h : StandsAt data b i) : slice data i (i + b.length : ℕ) = .ok b := by
  obtain ⟨pre, post, hdata, hi⟩ := h
  have hin : (i : ℤ) ≤ (i + b.length : ℕ) ∧ ((i + b.length : ℕ) : ℤ) ≤ data.length := by
    rw [hdata, List.length_append, List.length_append, hi]
    omega
  have htake : data.take (i + b.length) = pre ++ b := by
    rw [hdata, ← List.append_assoc, ← hi, ← List.length_append, List.take_left]
  unfold slice
  rw [if_pos ⟨by omega, hin⟩, Int.toNat_natCast, Int.toNat_natCast, htake, ← hi, List.drop_left]

theorem StandsAt.decodeVarintAt_eq (h : StandsAt data b i) (hb : IsVarint b) :
    decodeVarintAt data i = .ok (varintValue b, b.length) := by
  obtain ⟨post, hdrop⟩ := h.drop_eq
  unfold decodeVarintAt
  rw [h.sliceFrom_eq, ok_bind, hdrop, hb.decode]

variable (hdata : data.length < 2 ^ 63)
include hdata

theorem StandsAt.readTag_eq (bad : String) (h : StandsAt data b i) (hb : IsVarint b) :
    readTag bad data i = .ok (varintValue b / 8, varintValue b % 8, (i + b.length : ℕ)) := by
  have hle := h.le
  unfold readTag
  rw [h.decodeVarintAt_eq hb, ok_bind]
  dsimp only
  rw [failIf_of_not _ hb.length_pos.ne', ok_bind, ← Nat.cast_add, wrap64_natCast (by omega)]

theorem StandsAt.readEnd_eq (bad : Err) (h : StandsAt data (a ++ b) i) (ha : IsVarint a)
    (hb : b.length = varintValue a) :
    readEnd bad data i = .ok ((i + a.length : ℕ), (i + a.length + b.length : ℕ)) := by
  have hle := h.right.le
  unfold readEnd
  rw [h.left.decodeVarintAt_eq ha, ← hb, ok_bind]
  dsimp only
  rw [failIf_of_not _ ha.length_pos.ne', ok_bind, ← Nat.cast_add, wrap64_natCast (by omega),
    wrap64_natCast (by omega), ← Nat.cast_add, wrap64_natCast (by omega), failIf_of_not _ (by omega),
    ok_bind]

/-- `readLenDelimited` counts from the length varint, not from the start of the data. -/
theorem readLenDelimited_eq_readEnd :
    readLenDelimited data = readEnd (errorf "bad length varint" []) data (0 : ℕ) >>= fun p =>
      slice data p.1 p.2 >>= fun content => .ok (content, p.2) := by
  have hle := protoDecodeVarint_le data
  have hread : decodeVarintAt data (0 : ℕ) = .ok (protoDecodeVarint data) := by
    rw [decodeVarintAt_eq (by omega) (by omega)]
    unfold varintAt
    rw [Int.toNat_natCast, List.drop_zero]
  unfold readLenDelimited readEnd
  rw [hread, ok_bind]
  generalize protoDecodeVarint data = read at hle
  obtain ⟨length, n⟩ := read
  dsimp only at hle ⊢
  rw [Nat.cast_zero, zero_add, wrap64_natCast (show n < 2 ^ 63 by omega), bind_assoc]
  refine bind_congr fun _ => ?_
  rw [bind_assoc]
  refine bind_congr fun _ => ?_
  rw [ok_bind]

theorem StandsAt.readLenDelimited_eq (h : StandsAt data (a ++ b) i) (ha : IsVarint a)
    (hb : b.length = varintValue a) :
    (sliceFrom data i >>= readLenDelimited) = .ok (b, (a.length + b.length : ℕ)) := by
  obtain ⟨post, hdrop⟩ := h.drop_eq
  have hlen : (data.drop i).length < 2 ^ 63 := by
    rw [List.length_drop]
    omega
  have hat : StandsAt (data.drop i) (a ++ b) 0 := ⟨[], post, hdrop, rfl⟩
  have hslice := hat.right.slice_eq
  rw [zero_add] at hslice
  rw [h.sliceFrom_eq, ok_bind, readLenDelimited_eq_readEnd hlen, hat.readEnd_eq hlen _ ha hb, ok_bind]
  dsimp only
  rw [zero_add, hslice, ok_bind]

theorem StandsAt.skipProtoField_eq (h : StandsAt data b i) (hb : IsPayload w b) :
    (sliceFrom data i >>= fun rest => skipProtoField rest w) = .ok (b.length : ℤ) := by
  have hle := h.le
  obtain ⟨post, hdrop⟩ := h.drop_eq
  rw [h.sliceFrom_eq, ok_bind, hdrop]
  cases hb with
  | varint hb =>
    simp only [skipProtoField, hb.decode, failIf_of_not _ hb.length_pos.ne', ok_bind]
  | fixed64 hb =>
    rw [hb]
    rfl
  | @bytes size content hsize hcontent =>
    rw [List.length_append] at hle
    simp only [skipProtoField, List.append_assoc, hsize.decode, ← hcontent,
      failIf_of_not _ hsize.length_pos.ne', ok_bind]
    rw [wrap64_natCast (by omega), ← Nat.cast_add, wrap64_natCast (by omega), List.length_append]
  | fixed32 hb =>
    rw [hb]
    rfl

end Reading

end Tsc.LegacyTx
