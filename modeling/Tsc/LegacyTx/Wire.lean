import Tsc.Go.CursorLoop
import Tsc.Go.Word
import Tsc.Sdk.Math

/-!
# Protobuf fields read by hand (`app/legacy_ethtx.go`)

Varints, tags and length-delimited fields as the legacy transaction decoders read
them, with the cursor arithmetic of a 64-bit `int`: a length is a `uint64` from the
input, converted with `int(length)` and added to the cursor, and only compared with
`len(data)` from above. `FieldOk` says of the field at a cursor that this arithmetic
leads forward and stays inside the data.
-/

namespace Tsc.LegacyTx

open Go Sdk

/-! ### Slices -/

def outOfRange : Fault Err := .panic "slice bounds out of range"

def sliceFrom (data : Bytes) (i : ℤ) : Out Bytes :=
  if 0 ≤ i ∧ i ≤ data.length then .ok (data.drop i.toNat) else .error outOfRange

def slice (data : Bytes) (i j : ℤ) : Out Bytes :=
  if 0 ≤ i ∧ i ≤ j ∧ j ≤ data.length then .ok ((data.take j.toNat).drop i.toNat)
  else .error outOfRange

def unexpectedEOF : Err := ⟨.plain, "unexpected EOF", []⟩

def errorf (format : String) (args : List Arg) : Err := ⟨.plain, format, args⟩

/-! ### Varints -/

def varintLoop : ℕ → ℕ → Bytes → ℕ × ℕ
  | _, _, [] => (0, 0)
  | i, val, b :: bs =>
    if i < 10 then
      let val := val ||| ((b.val &&& 127) <<< (7 * i)) % 2 ^ 64
      if b.val < 128 then (val, i + 1) else varintLoop (i + 1) val bs
    else (0, 0)

/-- The value and the number of bytes read; no bytes for a bad varint. -/
def protoDecodeVarint (data : Bytes) : ℕ × ℕ := varintLoop 0 0 data

theorem varintLoop_spec (i val : ℕ) (data : Bytes) (h : val < 2 ^ 64) :
    (varintLoop i val data).1 < 2 ^ 64 ∧ (varintLoop i val data).2 ≤ i + data.length := by
  induction data generalizing i val with
  | nil => simp [varintLoop]
  | cons b bs ih =>
    have hor : val ||| ((b.val &&& 127) <<< (7 * i)) % 2 ^ 64 < 2 ^ 64 :=
      Nat.or_lt_two_pow h (Nat.mod_lt _ (by positivity))
    unfold varintLoop
    dsimp only
    split_ifs
    · exact ⟨hor, by simp⟩
    · obtain ⟨hv, hn⟩ := ih (i + 1) _ hor
      refine ⟨hv, hn.trans ?_⟩
      simp only [List.length_cons]
      omega
    · simp

theorem protoDecodeVarint_lt (data : Bytes) : (protoDecodeVarint data).1 < 2 ^ 64 :=
  (varintLoop_spec 0 0 data (by positivity)).1

theorem protoDecodeVarint_le (data : Bytes) : (protoDecodeVarint data).2 ≤ data.length := by
  have h := (varintLoop_spec 0 0 data (by positivity)).2
  rwa [zero_add] at h

/-- Bytes behind a varint do not matter. -/
theorem varintLoop_append_of_ne {i val : ℕ} {data : Bytes} (h : (varintLoop i val data).2 ≠ 0)
    (t : Bytes) : varintLoop i val (data ++ t) = varintLoop i val data := by
  induction data generalizing i val with
  | nil => exact absurd rfl h
  | cons b bs ih =>
    rw [List.cons_append]
    unfold varintLoop at h ⊢
    dsimp only at h ⊢
    split_ifs at h ⊢ with hi hb
    · rfl
    · exact ih h
    · exact absurd rfl h

def decodeVarintAt (data : Bytes) (i : ℤ) : Out (ℕ × ℕ) := do
  let rest ← sliceFrom data i
  .ok (protoDecodeVarint rest)

def varintAt (data : Bytes) (i : ℤ) : ℕ × ℕ := protoDecodeVarint (data.drop i.toNat)

theorem decodeVarintAt_eq {data : Bytes} {i : ℤ} (h0 : 0 ≤ i) (hi : i ≤ data.length) :
    decodeVarintAt data i = .ok (varintAt data i) := by
  unfold decodeVarintAt sliceFrom
  rw [if_pos ⟨h0, hi⟩]
  rfl

theorem varintAt_le {data : Bytes} {i : ℤ} (h0 : 0 ≤ i) (hi : i ≤ data.length) :
    i + (varintAt data i).2 ≤ data.length := by
  have h := protoDecodeVarint_le (data.drop i.toNat)
  rw [List.length_drop] at h
  unfold varintAt
  omega

/-! ### Tags and lengths -/

/-- The first statements of every loop: the field number, the wire type and the
cursor after the tag. -/
def readTag (bad : String) (data : Bytes) (i : ℤ) : Out (ℕ × ℕ × ℤ) := do
  let (tag, n) ← decodeVarintAt data i
  failIf (n = 0) (.err (errorf bad [.int i]))
  .ok (tag / 8, tag % 8, wrap64 (i + n))

/-- The length of a field at cursor `i` as the loops over absolute offsets read it:
the offsets of the content's start and end. -/
def readEnd (bad : Err) (data : Bytes) (i : ℤ) : Out (ℤ × ℤ) := do
  let (length, n) ← decodeVarintAt data i
  failIf (n = 0) (.err bad)
  let i := wrap64 (i + n)
  let stop := wrap64 (i + wrap64 length)
  failIf ((data.length : ℤ) < stop) (.err unexpectedEOF)
  .ok (i, stop)

def readLenDelimited (data : Bytes) : Out (Bytes × ℤ) := do
  let (length, n) := protoDecodeVarint data
  failIf (n = 0) (.err (errorf "bad length varint" []))
  let stop := wrap64 (n + wrap64 length)
  failIf ((data.length : ℤ) < stop) (.err unexpectedEOF)
  let content ← slice data n stop
  .ok (content, stop)

def skipProtoField (data : Bytes) (wireType : ℕ) : Out ℤ :=
  match wireType with
  | 0 => do
    let (_, n) := protoDecodeVarint data
    failIf (n = 0) (.err (errorf "bad varint skip" []))
    .ok n
  | 1 => .ok 8
  | 2 => do
    let (length, n) := protoDecodeVarint data
    failIf (n = 0) (.err (errorf "bad length skip" []))
    .ok (wrap64 (n + wrap64 length))
  | 5 => .ok 4
  | _ => .error (.err (errorf "unsupported wire type %d" [.int wireType]))

/-! ### Fields whose arithmetic is in order -/

/-- What a loop does with a field, as far as the cursor is concerned. -/
inductive FieldUse where
  /-- refused with an error, or a varint -/
  | free
  /-- `size` bytes -/
  | fixed (size : ℕ)
  /-- the content is sliced, with its end counted from the start of the data -/
  | slice
  /-- the content is sliced, with its end counted from the length varint -/
  | subslice
  /-- the content is passed over -/
  | skip

/-- The condition on a field whose tag is at `i` and ends at `j`: the end of the field,
counted exactly, is an `int`. A field that is only passed over may also have a length
within its header's size below `2 ^ 64`, the two's complement of a short step back. -/
def FieldUse.Ok (data : Bytes) (i j : ℤ) : FieldUse → Prop
  | .free => True
  | .fixed size => j + size < 2 ^ 63
  | .slice => (varintAt data j).2 ≠ 0 → j + (varintAt data j).2 + (varintAt data j).1 < 2 ^ 63
  | .subslice => (varintAt data j).2 ≠ 0 →
      ((varintAt data j).2 + (varintAt data j).1 : ℤ) < 2 ^ 63
  | .skip => (varintAt data j).2 ≠ 0 →
      j + (varintAt data j).2 + (varintAt data j).1 < 2 ^ 63 ∨
        2 ^ 64 < (varintAt data j).1 + (j + (varintAt data j).2 - i)

def FieldOk (use : ℕ → ℕ → FieldUse) (data : Bytes) (i : ℤ) : Prop :=
  let tag := varintAt data i
  tag.2 ≠ 0 → (use (tag.1 / 8) (tag.1 % 8)).Ok data i (i + tag.2)

def skipUse (wireType : ℕ) : FieldUse :=
  match wireType with
  | 1 => .fixed 8
  | 2 => .skip
  | 5 => .fixed 4
  | _ => .free

theorem skipUse_other {w : ℕ} (h1 : w ≠ 1) (h2 : w ≠ 2) (h5 : w ≠ 5) : skipUse w = .free := by
  unfold skipUse
  split <;> simp_all

/-- The content of the field whose length stands at `j`, if the data has all of it. -/
def contentFrom (data : Bytes) (j : ℤ) : Option Bytes :=
  let length := varintAt data j
  let start := j + length.2
  if length.2 ≠ 0 ∧ start + length.1 ≤ data.length then
    some ((data.take (start + length.1).toNat).drop start.toNat)
  else none

def contentAt (data : Bytes) (i : ℤ) : Option (ℕ × Bytes) :=
  let tag := varintAt data i
  if 0 ≤ i ∧ tag.2 ≠ 0 ∧ tag.1 % 8 = 2 then
    (contentFrom data (i + tag.2)).map fun content => (tag.1 / 8, content)
  else none

/-! ### The arithmetic of one field -/

theorem fixed_end_iff {i j : ℤ} (size : ℕ) (hi : 0 ≤ i) (hij : i < j) (hj : j < 2 ^ 63)
    (hs : size ≤ 8) : i < wrap64 (j + size) ↔ j + size < 2 ^ 63 := by
  unfold wrap64
  omega

theorem skip_end_iff {i j : ℤ} {length : ℕ} (hi : 0 ≤ i) (hij : i < j) (hj : j < 2 ^ 63)
    (hl : length < 2 ^ 64) :
    i < wrap64 (j + wrap64 length) ↔ j + length < 2 ^ 63 ∨ 2 ^ 64 < length + (j - i) := by
  unfold wrap64
  omega

theorem slice_end_iff (j size : ℤ) (length : ℕ) (hj : 0 ≤ j) (hjs : j ≤ size) (hs : size < 2 ^ 63)
    (hl : length < 2 ^ 64) :
    (wrap64 (j + wrap64 length) ≤ size → j ≤ wrap64 (j + wrap64 length)) ↔
      j + length < 2 ^ 63 := by
  unfold wrap64
  omega

theorem wrap64_add_wrap64 (i j : ℤ) : wrap64 (i + wrap64 j) = wrap64 (i + j) := by
  unfold wrap64
  omega

end Tsc.LegacyTx
