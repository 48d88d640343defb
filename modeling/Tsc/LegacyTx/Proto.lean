import Tsc.LegacyTx.Total

/-!
# What protobuf reads in a byte string

The fields of a message as a protobuf parser splits them off, groups included, and
from it the messages in the body of a transaction: of a field that may be given once
the last one counts, and several bodies are read as one, one after the other.

This is the abstract side. It is connected to `extractProtoField`, which returns the
first field of a number without reading further: where both read the bytes, they
agree on that field, also if bytes follow that the extractor does not have.
-/

namespace Tsc.LegacyTx

open Go Sdk

/-! ### Fields -/

def readVarint (data : Bytes) : Option (ℕ × Bytes) :=
  let p := protoDecodeVarint data
  if p.2 = 0 then none else some (p.1, data.drop p.2)

def readBytes (n : ℕ) (data : Bytes) : Option (Bytes × Bytes) :=
  if data.length < n then none else some (data.take n, data.drop n)

inductive Payload where
  | varint (v : ℕ)
  | fixed (b : Bytes)
  | content (b : Bytes)
  | group
  deriving DecidableEq

def readPayload (wireType : ℕ) (data : Bytes) : Option (Payload × Bytes) :=
  match wireType with
  | 0 => (readVarint data).map fun p => (.varint p.1, p.2)
  | 1 => (readBytes 8 data).map fun p => (.fixed p.1, p.2)
  | 2 => (readVarint data).bind fun p => (readBytes p.1 p.2).map fun q => (.content q.1, q.2)
  | 5 => (readBytes 4 data).map fun p => (.fixed p.1, p.2)
  | _ => none

/-- What follows the groups that are open; the innermost is the first. -/
def skipGroups : ℕ → List ℕ → Bytes → Option Bytes
  | _, [], data => some data
  | 0, _, _ => none
  | fuel + 1, num :: nums, data =>
    (readVarint data).bind fun p =>
      if p.1 % 8 = 3 then skipGroups fuel (p.1 / 8 :: num :: nums) p.2
      else if p.1 % 8 = 4 then
        if p.1 / 8 = num then skipGroups fuel nums p.2 else none
      else (readPayload (p.1 % 8) p.2).bind fun q => skipGroups fuel (num :: nums) q.2

/-- The first field and what follows it. -/
def readField (data : Bytes) : Option ((ℕ × Payload) × Bytes) :=
  (readVarint data).bind fun p =>
    if 1 ≤ p.1 / 8 ∧ p.1 / 8 < 2 ^ 29 then
      if p.1 % 8 = 3 then
        (skipGroups p.2.length [p.1 / 8] p.2).map fun rest => ((p.1 / 8, .group), rest)
      else (readPayload (p.1 % 8) p.2).map fun q => ((p.1 / 8, q.1), q.2)
    else none

def readFields : ℕ → Bytes → Option (List (ℕ × Payload))
  | _, [] => some []
  | 0, _ :: _ => none
  | fuel + 1, b :: bs =>
    (readField (b :: bs)).bind fun p => (readFields fuel p.2).map fun fs => p.1 :: fs

def wireFields (data : Bytes) : Option (List (ℕ × Payload)) := readFields data.length data

def contentOf (k : ℕ) : ℕ × Payload → Option Bytes
  | (num, .content b) => if num = k then some b else none
  | _ => none

/-- The contents of the length-delimited fields of number `k`. -/
def contents (k : ℕ) (fs : List (ℕ × Payload)) : List Bytes := fs.filterMap (contentOf k)

/-! ### Messages of a transaction -/

/-- An `Any` of the body: its type URL, and its value fields in the order of the bytes. -/
structure BodyMessage where
  typeUrl : Bytes
  values : List Bytes
  deriving DecidableEq

def BodyMessage.value (m : BodyMessage) : Bytes := m.values.getLast?.getD []

def bodyMessage (any : Bytes) : Option BodyMessage :=
  (wireFields any).map fun fs => ⟨(contents 1 fs).getLast?.getD [], contents 2 fs⟩

/-- The messages of `cosmos.tx.v1beta1.Tx`: field 1 is the body, its field 1 a message. -/
def bodyMessages (txBytes : Bytes) : Option (List BodyMessage) := do
  let tx ← wireFields txBytes
  let body ← wireFields (contents 1 tx).flatten
  (contents 1 body).mapM bodyMessage

/-! ### Reading with more bytes behind -/

theorem readVarint_append {data rest : Bytes} {v : ℕ} (h : readVarint data = some (v, rest))
    (t : Bytes) : readVarint (data ++ t) = some (v, rest ++ t) := by
  have hle := protoDecodeVarint_le data
  unfold readVarint at h
  dsimp only at h
  split_ifs at h with h0
  cases h
  have hloop : protoDecodeVarint (data ++ t) = protoDecodeVarint data :=
    varintLoop_append_of_ne h0 t
  unfold readVarint
  dsimp only
  rw [hloop, if_neg h0, List.drop_append_of_le_length hle]

theorem readVarint_length {data rest : Bytes} {v : ℕ} (h : readVarint data = some (v, rest)) :
    rest.length < data.length := by
  have hle := protoDecodeVarint_le data
  unfold readVarint at h
  dsimp only at h
  split_ifs at h
  cases h
  rw [List.length_drop]
  omega

/-! ### The extractor -/

section Extractor

variable {data t : Bytes} {i : ℕ}

theorem readVarint_of_decodeVarintAt {v n : ℕ} (h : decodeVarintAt data i = .ok (v, n))
    (hn : n ≠ 0) :
    readVarint (data.drop i) = some (v, data.drop (i + n)) ∧ i + n ≤ data.length := by
  simp only [decodeVarintAt, sliceFrom, bind_eq_ok] at h
  obtain ⟨rest, hslice, h⟩ := h
  split_ifs at hslice with hi
  cases hslice
  rw [Int.toNat_natCast] at h
  have hdec : protoDecodeVarint (data.drop i) = (v, n) := Except.ok.inj h
  have hle := protoDecodeVarint_le (data.drop i)
  rw [hdec, List.length_drop] at hle
  dsimp only at hle
  refine ⟨?_, by omega⟩
  unfold readVarint
  dsimp only
  rw [hdec, if_neg hn, List.drop_drop]

theorem readTag_readVarint {bad : String} {f w : ℕ} {j : ℤ} (hdata : data.length < 2 ^ 63)
    (h : readTag bad data i = .ok (f, w, j)) :
    ∃ (tag j' : ℕ), readVarint (data.drop i) = some (tag, data.drop j') ∧ f = tag / 8 ∧
      w = tag % 8 ∧ j = j' ∧ i < j' ∧ j' ≤ data.length := by
  simp only [readTag, bind_eq_ok, failIf_eq_ok] at h
  obtain ⟨⟨tag, n⟩, hdec, _, hn, h⟩ := h
  obtain ⟨hread, hle⟩ := readVarint_of_decodeVarintAt hdec hn
  cases h
  refine ⟨tag, i + n, hread, rfl, rfl, ?_, by omega, hle⟩
  dsimp only
  rw [← Nat.cast_add, wrap64_natCast (by omega)]

theorem readBytes_append {n : ℕ} {b rest : Bytes} (hi : i ≤ data.length)
    (h : readBytes n (data.drop i ++ t) = some (b, rest)) :
    i + n ≤ (data ++ t).length ∧ (i + n ≤ data.length →
      b = (data.take (i + n)).drop i ∧ rest = data.drop (i + n) ++ t) := by
  simp only [readBytes] at h
  split_ifs at h with hlen
  cases h
  rw [List.length_append, List.length_drop] at hlen
  refine ⟨by rw [List.length_append]; omega, ?_⟩
  intro hin
  have hle : n ≤ (data.drop i).length := by
    rw [List.length_drop]
    omega
  rw [List.take_append_of_le_length hle, List.drop_append_of_le_length hle, List.drop_drop,
    List.take_drop]
  exact ⟨rfl, rfl⟩

/-- A round of the extractor at a field that protobuf reads, with `t` behind the data:
it returns that field's content, or goes on behind a field that is not the wanted one. -/
def SameField (data t : Bytes) (k : ℕ) (f : ℕ × Payload) (rest : Bytes) : Jump Unit Bytes → Prop
  | .ret b => contentOf k f = some b
  | .next i' _ => contentOf k f = none ∧ ∃ j : ℕ, i' = j ∧ j ≤ data.length ∧ rest = data.drop j ++ t

theorem extractFixed_same {k size num : ℕ} {rest b : Bytes} {jump : Jump Unit Bytes}
    {isTarget : Prop} [Decidable isTarget] (hfalse : ¬ isTarget) (hi : i ≤ data.length)
    (hdata : (data ++ t).length < 2 ^ 63) (h : extractFixed data isTarget size i = .ok jump)
    (hread : readBytes size (data.drop i ++ t) = some (b, rest)) :
    SameField data t k (num, .fixed b) rest jump := by
  obtain ⟨hend, hrest⟩ := readBytes_append hi hread
  have hwrap : wrap64 (i + size) = (i + size : ℕ) := by
    rw [← Nat.cast_add, wrap64_natCast (by omega)]
  simp only [extractFixed, bind_eq_ok, failIf_eq_ok, if_neg hfalse, hwrap] at h
  obtain ⟨_, hin, h⟩ := h
  cases h
  exact ⟨rfl, i + size, rfl, by omega, (hrest (by omega)).2⟩

/-- A content whose end the extractor accepts is the one protobuf reads. -/
theorem readEnd_same {bad : Err} {p : Payload} {rest : Bytes} {start stop : ℤ}
    (hdata : (data ++ t).length < 2 ^ 63) (h : readEnd bad data i = .ok (start, stop))
    (hread : readPayload 2 (data.drop i ++ t) = some (p, rest)) :
    ∃ s e : ℕ, start = s ∧ stop = e ∧ e ≤ data.length ∧ p = .content ((data.take e).drop s) ∧
      rest = data.drop e ++ t := by
  simp only [readEnd, bind_eq_ok, failIf_eq_ok] at h
  obtain ⟨⟨len, n⟩, hdec, _, hn, _, hfit, hpair⟩ := h
  obtain ⟨hvarint, hle⟩ := readVarint_of_decodeVarintAt hdec hn
  simp only [readPayload, readVarint_append hvarint t, Option.bind_some] at hread
  obtain ⟨⟨b, r⟩, hb, hcontent⟩ := Option.map_eq_some_iff.mp hread
  cases hcontent
  obtain ⟨hend, hrest⟩ := readBytes_append hle hb
  have hlen : data.length ≤ (data ++ t).length := by
    rw [List.length_append]
    omega
  have hstart : wrap64 (i + n) = (i + n : ℕ) := by
    rw [← Nat.cast_add, wrap64_natCast (by omega)]
  have hstop : wrap64 ((i + n : ℕ) + wrap64 len) = (i + n + len : ℕ) := by
    rw [wrap64_add_wrap64, ← Nat.cast_add, wrap64_natCast (by omega)]
  dsimp only at hfit hpair
  rw [hstart, hstop] at hfit hpair
  cases hpair
  obtain ⟨hb, hr⟩ := hrest (by omega)
  exact ⟨i + n, i + n + len, rfl, rfl, by omega, by rw [hb], hr⟩

theorem extractField_same {k f w : ℕ} {p : Payload} {rest : Bytes} {jump : Jump Unit Bytes}
    (hi : i ≤ data.length) (hdata : (data ++ t).length < 2 ^ 63)
    (h : extractField data k 2 f w i = .ok jump)
    (hread : readPayload w (data.drop i ++ t) = some (p, rest)) :
    SameField data t k (f, p) rest jump := by
  have hlen : data.length < 2 ^ 63 := by
    rw [List.length_append] at hdata
    omega
  unfold extractField at h
  split at h
  · simp only [bind_eq_ok, failIf_eq_ok] at h
    obtain ⟨⟨v, n⟩, hdec, _, hn, h⟩ := h
    obtain ⟨hvarint, hle⟩ := readVarint_of_decodeVarintAt hdec hn
    have hsame := readVarint_append hvarint t
    simp only [readPayload, hsame, Option.map_some, Option.some.injEq, Prod.mk.injEq] at hread
    obtain ⟨hp, hrest⟩ := hread
    rw [if_neg (by simp)] at h
    cases h
    refine ⟨by rw [← hp]; rfl, i + n, ?_, hle, hrest.symm⟩
    dsimp only
    rw [← Nat.cast_add, wrap64_natCast (by omega)]
  · obtain ⟨⟨b, r⟩, hb, hpair⟩ := Option.map_eq_some_iff.mp hread
    cases hpair
    exact extractFixed_same (by simp) hi hdata h hb
  · obtain ⟨⟨start, stop⟩, hend, h⟩ := (bind_eq_ok _ _ _).mp h
    obtain ⟨s, e, rfl, rfl, hle, rfl, hrest⟩ := readEnd_same hdata hend hread
    dsimp only at h
    by_cases hf : f = k
    · simp only [hf, and_self, if_true, bind_eq_ok] at h
      obtain ⟨field, hslice, h⟩ := h
      cases h
      simp only [slice] at hslice
      split_ifs at hslice
      cases hslice
      simp only [SameField, contentOf, hf, if_true, Int.toNat_natCast]
    · rw [if_neg (by simp [hf])] at h
      cases h
      exact ⟨if_neg hf, e, rfl, hle, hrest⟩
  · obtain ⟨⟨b, r⟩, hb, hpair⟩ := Option.map_eq_some_iff.mp hread
    cases hpair
    exact extractFixed_same (by simp) hi hdata h hb
  · cases h

theorem extractBody_same {k : ℕ} {f : ℕ × Payload} {rest : Bytes} {jump : Jump Unit Bytes}
    (hdata : (data ++ t).length < 2 ^ 63) (h : extractBody data k 2 i () = .ok jump)
    (hread : readField (data.drop i ++ t) = some (f, rest)) : SameField data t k f rest jump := by
  have hlen : data.length < 2 ^ 63 := by
    rw [List.length_append] at hdata
    omega
  obtain ⟨⟨num, w, j⟩, htag, h⟩ := (bind_eq_ok _ _ _).mp h
  obtain ⟨tag, j', hvarint, rfl, rfl, rfl, _, hj⟩ := readTag_readVarint hlen htag
  simp only [readField, readVarint_append hvarint t, Option.bind_some] at hread
  split_ifs at hread with hnum hgroup
  · -- the extractor has no groups
    dsimp only at h
    rw [hgroup] at h
    cases h
  · obtain ⟨⟨p, r⟩, hp, hpair⟩ := Option.map_eq_some_iff.mp hread
    cases hpair
    exact extractField_same hj hdata h hp

/-- The extractor returns the first content that protobuf reads for the number. -/
theorem extractLoop_first {k fuel n : ℕ} {raw : Bytes} {fs : List (ℕ × Payload)}
    (hdata : (data ++ t).length < 2 ^ 63) (h : (extractLoop data k 2).run fuel i () = .ok raw)
    (hfs : readFields n (data.drop i ++ t) = some fs) : (contents k fs).head? = some raw := by
  induction fuel generalizing i n fs with
  | zero => cases h
  | succ fuel ih =>
    unfold CursorLoop.run at h
    split_ifs at h with hi
    · obtain ⟨jump, hbody, h⟩ := (bind_eq_ok _ _ _).mp h
      have hne : data.drop i ++ t ≠ [] := by
        have hlt : i < data.length := by exact_mod_cast hi
        intro hnil
        have hlen := congrArg List.length (List.append_eq_nil_iff.mp hnil).1
        rw [List.length_drop, List.length_nil] at hlen
        omega
      obtain ⟨b, bs, hcons⟩ := List.exists_cons_of_ne_nil hne
      rw [hcons] at hfs
      cases n with
      | zero => cases hfs
      | succ n =>
        rw [readFields, ← hcons] at hfs
        obtain ⟨⟨f, rest⟩, hfield, hrest⟩ := Option.bind_eq_some_iff.mp hfs
        obtain ⟨fs', hfs', rfl⟩ := Option.map_eq_some_iff.mp hrest
        have hsame := extractBody_same hdata hbody hfield
        cases jump with
        | ret b =>
          cases h
          rw [contents, List.filterMap_cons_some hsame, List.head?_cons]
        | next i' u =>
          obtain ⟨hnone, j, rfl, _, hrest⟩ := hsame
          dsimp only at hfs'
          rw [hrest] at hfs'
          rw [contents, List.filterMap_cons_none hnone]
          exact ih h hfs'
    · cases h

end Extractor

theorem extractProtoField_first {data t raw : Bytes} {k : ℕ} {fs : List (ℕ × Payload)}
    (hdata : (data ++ t).length < 2 ^ 63) (h : extractProtoField data k 2 = .ok raw)
    (hfs : wireFields (data ++ t) = some fs) : (contents k fs).head? = some raw :=
  extractLoop_first (i := 0) hdata h hfs

/-! ### Contents are parts of the data -/

theorem readBytes_length {n : ℕ} {data b rest : Bytes} (h : readBytes n data = some (b, rest)) :
    b.length + rest.length = data.length := by
  simp only [readBytes] at h
  split_ifs at h with hlen
  cases h
  rw [List.length_take, List.length_drop]
  omega

def Payload.size : Payload → ℕ
  | .content b => b.length
  | _ => 0

theorem readPayload_length {w : ℕ} {data rest : Bytes} {p : Payload}
    (h : readPayload w data = some (p, rest)) : p.size + rest.length ≤ data.length := by
  have hfixed : ∀ k, (readBytes k data).map (fun p => (Payload.fixed p.1, p.2)) = some (p, rest) →
      p.size + rest.length ≤ data.length := by
    intro k h
    obtain ⟨⟨b, r⟩, hb, hpair⟩ := Option.map_eq_some_iff.mp h
    cases hpair
    have hsum := readBytes_length hb
    dsimp only [Payload.size]
    omega
  unfold readPayload at h
  split at h
  · obtain ⟨⟨v, r⟩, hv, hpair⟩ := Option.map_eq_some_iff.mp h
    cases hpair
    have hlt := readVarint_length hv
    dsimp only [Payload.size]
    omega
  · exact hfixed 8 h
  · obtain ⟨⟨len, r⟩, hv, h⟩ := Option.bind_eq_some_iff.mp h
    obtain ⟨⟨b, r'⟩, hb, hpair⟩ := Option.map_eq_some_iff.mp h
    cases hpair
    have hlt := readVarint_length hv
    have hsum := readBytes_length hb
    dsimp only [Payload.size] at hsum ⊢
    omega
  · exact hfixed 4 h
  · cases h

theorem skipGroups_length {fuel : ℕ} {nums : List ℕ} {data rest : Bytes}
    (h : skipGroups fuel nums data = some rest) : rest.length ≤ data.length := by
  induction fuel generalizing nums data with
  | zero =>
    cases nums with
    | nil =>
      cases h
      exact le_refl _
    | cons num nums => cases h
  | succ fuel ih =>
    cases nums with
    | nil =>
      cases h
      exact le_refl _
    | cons num nums =>
      rw [skipGroups] at h
      obtain ⟨⟨tag, r⟩, hv, h⟩ := Option.bind_eq_some_iff.mp h
      have hlt := readVarint_length hv
      dsimp only at h
      split_ifs at h
      · exact (ih h).trans hlt.le
      · exact (ih h).trans hlt.le
      · obtain ⟨⟨p, r'⟩, hp, h⟩ := Option.bind_eq_some_iff.mp h
        have hsum := readPayload_length hp
        have hle := ih h
        dsimp only at hle
        omega

theorem readField_length {data rest : Bytes} {f : ℕ × Payload}
    (h : readField data = some (f, rest)) : f.2.size + rest.length ≤ data.length := by
  obtain ⟨⟨tag, r⟩, hv, h⟩ := Option.bind_eq_some_iff.mp h
  have hlt := readVarint_length hv
  dsimp only at h
  split_ifs at h
  · obtain ⟨r', hr, hpair⟩ := Option.map_eq_some_iff.mp h
    cases hpair
    have hle := skipGroups_length hr
    dsimp only [Payload.size]
    omega
  · obtain ⟨⟨p, r'⟩, hp, hpair⟩ := Option.map_eq_some_iff.mp h
    cases hpair
    have hsum := readPayload_length hp
    dsimp only
    omega

theorem contents_cons_length (k : ℕ) (f : ℕ × Payload) (fs : List (ℕ × Payload)) :
    (contents k (f :: fs)).flatten.length ≤ f.2.size + (contents k fs).flatten.length := by
  obtain ⟨num, p⟩ := f
  unfold contents
  cases hc : contentOf k (num, p) with
  | none =>
    rw [List.filterMap_cons_none hc]
    exact Nat.le_add_left _ _
  | some b =>
    have hb : p = .content b := by
      cases p with
      | content c =>
        simp only [contentOf] at hc
        split_ifs at hc
        cases hc
        rfl
      | _ => cases hc
    rw [List.filterMap_cons_some hc, List.flatten_cons, List.length_append, hb]
    exact le_refl _

theorem contents_length {n k : ℕ} {data : Bytes} {fs : List (ℕ × Payload)}
    (h : readFields n data = some fs) : (contents k fs).flatten.length ≤ data.length := by
  induction n generalizing data fs with
  | zero =>
    cases data with
    | nil =>
      cases h
      exact Nat.zero_le _
    | cons b bs => cases h
  | succ n ih =>
    cases data with
    | nil =>
      cases h
      exact Nat.zero_le _
    | cons b bs =>
      obtain ⟨⟨f, rest⟩, hfield, hrest⟩ := Option.bind_eq_some_iff.mp h
      obtain ⟨fs', hfs', hcons⟩ := Option.map_eq_some_iff.mp hrest
      have hlen := readField_length hfield
      have htail := ih hfs'
      have hhead := contents_cons_length k f fs'
      rw [← hcons]
      dsimp only at htail ⊢
      omega

/-! ### The message that is taken -/

/-- What is extracted from a transaction whose body protobuf reads is the first value
field of the first message. -/
theorem extractMsgAnyValue_first {txBytes raw : Bytes} {ms : List BodyMessage}
    (hlen : txBytes.length < 2 ^ 63) (h : extractMsgAnyValue txBytes = .ok raw)
    (hms : bodyMessages txBytes = some ms) :
    ∃ m rest, ms = m :: rest ∧ m.values.head? = some raw := by
  simp only [extractMsgAnyValue, bind_eq_ok, wrapErr_eq_ok] at h
  obtain ⟨body, hbody, any, hany, hvalue⟩ := h
  simp only [bodyMessages, Option.bind_eq_bind, Option.bind_eq_some_iff] at hms
  obtain ⟨tx, htx, fs, hfs, hms⟩ := hms
  have hnil : wireFields (txBytes ++ []) = some tx := by rw [List.append_nil]; exact htx
  have hfirst := extractProtoField_first (by rw [List.append_nil]; exact hlen) hbody hnil
  obtain ⟨bodies, hbodies⟩ := List.head?_eq_some_iff.mp hfirst
  have hall : (contents 1 tx).flatten.length ≤ txBytes.length := contents_length htx
  rw [hbodies, List.flatten_cons] at hfs hall
  have hfirstAny := extractProtoField_first (by omega) hany hfs
  obtain ⟨anys, hanys⟩ := List.head?_eq_some_iff.mp hfirstAny
  rw [hanys, List.mapM_cons] at hms
  simp only [Option.bind_eq_bind, Option.bind_eq_some_iff] at hms
  obtain ⟨m, hm, rest, _, hpure⟩ := hms
  obtain ⟨afs, hafs, hm⟩ := Option.map_eq_some_iff.mp hm
  have hanyLen := (extractProtoField_length hany).trans (extractProtoField_length hbody)
  have hnil' : wireFields (any ++ []) = some afs := by rw [List.append_nil]; exact hafs
  have hraw := extractProtoField_first (by rw [List.append_nil]; omega) hvalue hnil'
  refine ⟨m, rest, (Option.some.inj hpure).symm, ?_⟩
  rw [← hm]
  exact hraw

end Tsc.LegacyTx
