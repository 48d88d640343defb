import Tsc.LegacyTx.FieldReader

/-!
# The two readers of an `Any`

`extractProtoField` returns the first field of the number it looks for, `unmarshalAny`
goes on to the end of the data and keeps the last one. On whole fields both are
determined by the list of the field's contents: one is its head, the other its last
entry.
-/

namespace Tsc.LegacyTx

open Go Sdk

def isContent (k : ℕ) (f : WholeField) : Bool := f.num = k ∧ f.wireType = 2

theorem isContent_iff {k : ℕ} {f : WholeField} :
    isContent k f = true ↔ varintValue f.tag / 8 = k ∧ varintValue f.tag % 8 = 2 :=
  decide_eq_true_iff

/-- The contents of the length-delimited fields of number `k`, in their order. -/
def occurrences (k : ℕ) (fs : List WholeField) : List Bytes :=
  (fs.filter (isContent k)).map fun f => payloadContent f.payload

section Occurrences

variable {k : ℕ} {f : WholeField} (fs : List WholeField)

theorem occurrences_cons_pos (h : isContent k f) :
    occurrences k (f :: fs) = payloadContent f.payload :: occurrences k fs := by
  unfold occurrences
  rw [List.filter_cons_of_pos h, List.map_cons]

theorem occurrences_cons_neg (h : ¬ isContent k f) :
    occurrences k (f :: fs) = occurrences k fs := by
  unfold occurrences
  rw [List.filter_cons_of_neg h]

theorem head_occurrences (k : ℕ) :
    (occurrences k fs).head? = (fs.find? (isContent k)).map fun f => payloadContent f.payload := by
  unfold occurrences
  rw [List.head?_map, List.head?_filter]

end Occurrences

/-! ### The first occurrence -/

section Extract

variable {data p : Bytes} {k n w j : ℕ} (hdata : data.length < 2 ^ 63)
include hdata

theorem extractFixed_whole {c : Prop} [Decidable c] (hc : ¬ c) {size : ℕ} (hp : p.length = size)
    (h : StandsAt data p j) :
    extractFixed data c size j = .ok (.next (j + p.length : ℕ) ()) := by
  have hle := h.le
  unfold extractFixed
  rw [h.wrap_fixed hdata hp, failIf_of_not _ (by omega), ok_bind, if_neg hc]

theorem extractField_whole (hp : IsPayload w p) (h : StandsAt data p j) :
    extractField data k 2 n w j =
      if n = k ∧ w = 2 then .ok (.ret (payloadContent p))
      else .ok (.next (j + p.length : ℕ) ()) := by
  cases hp with
  | varint hp =>
    simp only [extractField, h.decodeVarintAt_eq hp, failIf_of_not _ hp.length_pos.ne', ok_bind,
      h.wrap_end hdata]
    rw [if_neg (by simp), if_neg (by simp)]
  | fixed64 hp =>
    rw [if_neg (by simp)]
    exact extractFixed_whole hdata (by simp) hp h
  | @bytes size content hsize hcontent =>
    have hslice := h.right.slice_eq
    simp only [extractField, h.readEnd_eq hdata _ hsize hcontent, ok_bind, hslice,
      payloadContent_append hsize]
    rw [List.length_append, Nat.add_assoc]
  | fixed32 hp =>
    rw [if_neg (by simp)]
    exact extractFixed_whole hdata (by simp) hp h

end Extract

theorem extractBody_whole {data : Bytes} (hdata : data.length < 2 ^ 63) (k : ℕ) {f : WholeField}
    {i : ℕ} (h : StandsAt data f.bytes i) :
    extractBody data k 2 i () =
      if isContent k f then .ok (.ret (payloadContent f.payload))
      else .ok (.next (i + f.bytes.length : ℕ) ()) := by
  have hlen : f.bytes.length = f.tag.length + f.payload.length := List.length_append
  unfold extractBody
  rw [h.left.readTag_eq hdata _ f.isVarint, ok_bind, hlen, ← Nat.add_assoc]
  dsimp only
  rw [extractField_whole hdata f.isPayload h.right]
  exact if_congr isContent_iff.symm rfl rfl

theorem extractProtoField_wholeBytes (k : ℕ) {fs : List WholeField}
    (hdata : (wholeBytes fs).length < 2 ^ 63) :
    extractProtoField (wholeBytes fs) k 2 =
      ofOption (.err (errorf "field %d not found" [.int k])) (occurrences k fs).head? := by
  have hfind : (extractLoop (wholeBytes fs) k 2).call () =
      (fs.find? (isContent k)).elim ((extractLoop (wholeBytes fs) k 2).done ())
        fun f => .ok (payloadContent f.payload) := by
    apply CursorLoop.call_eq_find (fun f : WholeField => f.bytes.length)
    · exact length_wholeBytes fs
    · exact WholeField.bytes_pos
    · intro pre f post hsplit
      rw [← length_wholeBytes]
      apply extractBody_whole hdata
      refine ⟨wholeBytes pre, wholeBytes post, ?_, rfl⟩
      rw [hsplit, wholeBytes_append, wholeBytes_cons]
  unfold extractProtoField
  rw [hfind, head_occurrences]
  cases fs.find? (isContent k) with
  | some f => rfl
  | none => rfl

/-! ### The last occurrence -/

theorem anyReader_step (any : Any) (f : WholeField) :
    anyReader.step any f =
      some ⟨if isContent 1 f then payloadContent f.payload else any.typeUrl,
        if isContent 2 f then payloadContent f.payload else any.value⟩ := by
  show applyAny f.num f.wireType f.payload any = _
  unfold applyAny isContent
  by_cases hw : f.wireType = 2
  · rw [if_pos hw]
    split <;> simp_all
  · simp [hw]

theorem anyReader_fold (fs : List WholeField) (any : Any) :
    fs.foldlM anyReader.step any =
      some ⟨(occurrences 1 fs).getLastD any.typeUrl, (occurrences 2 fs).getLastD any.value⟩ := by
  induction fs generalizing any with
  | nil => rfl
  | cons f fs ih =>
    have hlast : ∀ k (b : Bytes), (occurrences k fs).getLastD
        (if isContent k f then payloadContent f.payload else b) =
          (occurrences k (f :: fs)).getLastD b := by
      intro k b
      by_cases hk : isContent k f
      · rw [if_pos hk, occurrences_cons_pos fs hk, List.getLastD_cons]
      · rw [if_neg hk, occurrences_cons_neg fs hk]
    rw [List.foldlM_cons, anyReader_step, Option.bind_eq_bind, Option.bind_some, ih, hlast, hlast]

theorem unmarshalAny_wholeBytes {fs : List WholeField} (hdata : (wholeBytes fs).length < 2 ^ 63) :
    unmarshalAny (wholeBytes fs) =
      .ok ⟨(occurrences 1 fs).getLastD [], (occurrences 2 fs).getLastD []⟩ := by
  unfold unmarshalAny
  rw [anyLoop_eq]
  exact (anyReader.call_wholeBytes _ hdata _ _).mpr (anyReader_fold fs ⟨[], []⟩)

theorem isVarint_valueTag : IsVarint [0x12] := isVarint_singleton (by decide)

theorem isPayload_oneByte (b : Byte) : IsPayload (varintValue [0x12] % 8) ([0x01] ++ [b]) :=
  .bytes (isVarint_singleton (by decide)) (show 1 = varintValue [0x01] by decide)

/-- A value field of one byte. -/
def byteValue (b : Byte) : WholeField :=
  ⟨[0x12], [0x01] ++ [b], isVarint_valueTag, isPayload_oneByte b⟩

/-- An unknown field, number 3 with a varint. -/
def unknownVarint : WholeField where
  tag := [0x18]
  payload := [0x05]
  isVarint := isVarint_singleton (by decide)
  isPayload := .varint (isVarint_singleton (by decide))

/-- On whole fields with a value among them both readers succeed, and they agree
exactly if the first and the last value are the same. -/
theorem any_readers_agree_iff {fs : List WholeField} (hdata : (wholeBytes fs).length < 2 ^ 63)
    (hvalue : occurrences 2 fs ≠ []) :
    ∃ any, unmarshalAny (wholeBytes fs) = .ok any ∧
      (occurrences 2 fs).getLast? = some any.value ∧
      (extractProtoField (wholeBytes fs) 2 2 = .ok any.value ↔
        (occurrences 2 fs).head? = (occurrences 2 fs).getLast?) := by
  have hlast : (occurrences 2 fs).getLast? = some ((occurrences 2 fs).getLastD []) := by
    rw [List.getLastD_eq_getLast?, List.getLast?_eq_some_getLast hvalue]
    rfl
  refine ⟨_, unmarshalAny_wholeBytes hdata, hlast, ?_⟩
  rw [extractProtoField_wholeBytes 2 hdata, ofOption_eq_ok, hlast]

/-- Of two values the one reader takes the first and the other the second. -/
theorem any_readers_differ :
    occurrences 2 [byteValue 0x61, byteValue 0x62] ≠ [] ∧
      extractProtoField (wholeBytes [byteValue 0x61, byteValue 0x62]) 2 2 = .ok [0x61] ∧
      unmarshalAny (wholeBytes [byteValue 0x61, byteValue 0x62]) = .ok ⟨[], [0x62]⟩ := by
  decide +kernel

theorem any_readers_agree_sample :
    extractProtoField (wholeBytes [unknownVarint, byteValue 0x61]) 2 2 = .ok [0x61] := by
  obtain ⟨any, -, hlast, hiff⟩ := @any_readers_agree_iff [unknownVarint, byteValue 0x61]
    (by decide +kernel) (by decide +kernel)
  have hvalue : (occurrences 2 [unknownVarint, byteValue 0x61]).getLast? = some [0x61] := by
    decide +kernel
  rw [hvalue] at hlast
  rw [Option.some.inj hlast]
  exact hiff.mpr (by decide +kernel)

end Tsc.LegacyTx
