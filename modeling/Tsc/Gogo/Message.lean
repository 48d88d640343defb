import Tsc.Gogo.Buffer

/-!
# Generated `Unmarshal`

The loop that protobuf generators write for a message whose fields are all
length-delimited: a tag, a switch over the field number, and for other numbers a `skip`
that passes over one field of any wire type, groups with everything inside them
included. All lengths are checked against wrapping and against the end of the data, so
the loop is total on every input; and a message that is written as a list of fields is
read back field by field.
-/

namespace Tsc.Gogo

open Go Sdk LegacyTx

/-- The `int32` with the same 32 low bits. -/
def wrap32 (x : ℤ) : ℤ := (x + 2147483648) % 4294967296 - 2147483648

/-! ### Passing over a field -/

/-- The switch over the wire type: the cursor and the depth of groups after it. -/
def skipPayload (dAtA : Bytes) (i : ℤ) (depth : ℕ) : ℕ → Out (ℤ × ℕ)
  | 0 => do
    -- the same loop as for the tag, with the value thrown away
    let (_, i) ← readVarint dAtA i
    .ok (i, depth)
  | 1 => .ok (wrap64 (i + 8), depth)
  | 2 => do
    let (length, i) ← readVarint dAtA i
    let length := wrap64 length
    failIf (length < 0) (.err errInvalidLength)
    .ok (wrap64 (i + length), depth)
  | 3 => .ok (i, depth + 1)
  | 4 => do
    failIf (depth = 0) (.err errUnexpectedEndOfGroup)
    .ok (i, depth - 1)
  | 5 => .ok (wrap64 (i + 4), depth)
  | wireType => .error (.err ⟨.plain, "proto: illegal wireType %d", [.int wireType]⟩)

def skipRound (dAtA : Bytes) (i : ℤ) (depth : ℕ) : Out (Jump ℕ ℤ) := do
  let (wire, i) ← readVarint dAtA i
  let (i, depth) ← skipPayload dAtA i depth (wire % 8)
  failIf (i < 0) (.err errInvalidLength)
  if depth = 0 then .ok (.ret i) else .ok (.next i depth)

def skipLoop (dAtA : Bytes) : CursorLoop Err ℕ ℤ where
  len := dAtA.length
  body := skipRound dAtA
  done _ := .error (.err unexpectedEOF)
  done_settles _ := settles_err _

/-- The number of bytes of the field at the front; it may pass the end of the data. -/
def skip (dAtA : Bytes) : Out ℤ := (skipLoop dAtA).call 0

section Skip

variable {dAtA : Bytes} (hlen : dAtA.length < 2 ^ 63)
include hlen

/-- The cursor moves forward unless it wrapped, and then it is negative. -/
theorem skipPayload_spec {i : ℤ} (h0 : 0 ≤ i) (hi : i ≤ dAtA.length) (depth wireType : ℕ) :
    Settles (skipPayload dAtA i depth wireType) ∧
      ∀ r, skipPayload dAtA i depth wireType = .ok r → 0 ≤ r.1 → i ≤ r.1 ∧ r.1 < 2 ^ 63 := by
  unfold skipPayload
  split
  · simp only [settles_bind, readVarint_settles dAtA h0, settles_ok, implies_true, true_and,
      bind_eq_ok]
    rintro r ⟨p, hp, hr⟩ _
    have hb := readVarint_bounds hp
    cases hr
    exact ⟨hb.2.1.le, by dsimp only; omega⟩
  · simp only [settles_ok, true_and]
    intro r hr
    cases hr
    unfold wrap64
    omega
  · simp only [settles_bind, readVarint_settles dAtA h0, settles_failIf, settles_ok, implies_true,
      true_and, bind_eq_ok, failIf_eq_ok]
    rintro r ⟨p, hp, _, hnn, hr⟩
    have hb := readVarint_bounds hp
    have hw := wrap64_range p.1
    cases hr
    unfold minInt64 maxInt64 at hw
    generalize wrap64 (p.1 : ℤ) = length at hw hnn
    dsimp only
    unfold wrap64
    omega
  · simp only [settles_ok, true_and]
    intro r hr
    cases hr
    dsimp only
    omega
  · simp only [settles_bind, settles_failIf, settles_ok, implies_true, true_and, bind_eq_ok]
    rintro r ⟨_, _, hr⟩ _
    cases hr
    dsimp only
    omega
  · simp only [settles_ok, true_and]
    intro r hr
    cases hr
    unfold wrap64
    omega
  · simp

theorem skipRound_advances {i : ℤ} (h0 : 0 ≤ i) (depth : ℕ) :
    Advances i (skipRound dAtA i depth) := by
  unfold skipRound
  rw [advances_bind]
  refine ⟨readVarint_settles dAtA h0, ?_⟩
  intro p hp
  have hb := readVarint_bounds hp
  obtain ⟨hset, hpast⟩ := skipPayload_spec hlen (by omega) hb.2.2.1 depth (p.1 % 8)
  rw [advances_bind]
  refine ⟨hset, ?_⟩
  intro r hr
  rw [advances_failIf]
  intro hnn
  have hle := hpast r hr (not_lt.mp hnn)
  split_ifs
  · exact advances_ret i r.1
  · rw [advances_next]
    omega

theorem skipRound_bounds {i r : ℤ} {depth : ℕ} (h : skipRound dAtA i depth = .ok (.ret r)) :
    0 < r ∧ r < 2 ^ 63 := by
  simp only [skipRound, bind_eq_ok, failIf_eq_ok, not_lt] at h
  obtain ⟨p, hp, q, hq, _, hnn, hr⟩ := h
  have hb := readVarint_bounds hp
  have hle := (skipPayload_spec hlen (by omega) hb.2.2.1 depth (p.1 % 8)).2 q hq hnn
  split_ifs at hr
  · cases hr
    omega
  · cases hr

theorem skip_settles : Settles (skip dAtA) := by
  apply CursorLoop.Total.settles
  rw [CursorLoop.total_iff_of_body (C := fun _ _ => True)]
  · intros
    trivial
  · intro i depth h0 _
    exact iff_of_true (skipRound_advances hlen h0 depth) trivial

theorem skip_bounds {n : ℤ} (h : skip dAtA = .ok n) : 0 < n ∧ n < 2 ^ 63 := by
  refine CursorLoop.run_ret (P := fun n => 0 < n ∧ n < 2 ^ 63) ?_ ?_ h
  · intro i depth r hr
    exact skipRound_bounds hlen hr
  · intro depth r hr
    cases hr

end Skip

/-! ### Messages -/

/-- The cases of a generated switch: by field number, the name of the field and what is
done with its content. -/
structure Unmarshaler (σ : Type) where
  name : String
  field : ℤ → Option (String × (Bytes → σ → Out σ))

/-- The length of a field and its content. A length that is read as an `int` has the same
bits as one that is read as a `uint64` and converted. -/
def readContent (dAtA : Bytes) (i : ℤ) : Out (Bytes × ℤ) := do
  let (length, i) ← readVarint dAtA i
  let length := wrap64 length
  failIf (length < 0) (.err errInvalidLength)
  let postIndex := wrap64 (i + length)
  failIf (postIndex < 0) (.err errInvalidLength)
  failIf ((dAtA.length : ℤ) < postIndex) (.err unexpectedEOF)
  let content ← slice dAtA i postIndex
  .ok (content, postIndex)

def skipFrom (dAtA : Bytes) (i : ℤ) : Out ℤ := do
  let rest ← sliceFrom dAtA i
  let skippy ← skip rest
  failIf (skippy < 0 ∨ wrap64 (i + skippy) < 0) (.err errInvalidLength)
  failIf ((dAtA.length : ℤ) < wrap64 (i + skippy)) (.err unexpectedEOF)
  .ok (wrap64 (i + skippy))

namespace Unmarshaler

variable {σ : Type} (M : Unmarshaler σ)

def unmarshalField (dAtA : Bytes) (preIndex iNdEx fieldNum : ℤ) (wireType : ℕ) (m : σ) :
    Out (ℤ × σ) :=
  match M.field fieldNum with
  | some (name, read) => do
    failIf (wireType ≠ 2) (.err ⟨.plain, "proto: wrong wireType = %d for field " ++ name,
      [.int wireType]⟩)
    let (content, postIndex) ← readContent dAtA iNdEx
    let m ← read content m
    .ok (postIndex, m)
  | none => do
    let iNdEx ← skipFrom dAtA preIndex
    .ok (iNdEx, m)

/-- One round. The loop keeps the cursor in its state too, for the check behind it. -/
def round (dAtA : Bytes) (preIndex : ℤ) (s : ℤ × σ) : Out (Jump (ℤ × σ) σ) := do
  let (wire, iNdEx) ← readVarint dAtA preIndex
  let fieldNum := wrap32 (wire / 8 : ℕ)
  let wireType := wire % 8
  failIf (wireType = 4)
    (.err ⟨.plain, "proto: " ++ M.name ++ ": wiretype end group for non-group", []⟩)
  failIf (fieldNum ≤ 0) (.err ⟨.plain, "proto: " ++ M.name ++ ": illegal tag %d (wire type %d)",
    [.int fieldNum, .int wire]⟩)
  let (iNdEx, m) ← M.unmarshalField dAtA preIndex iNdEx fieldNum wireType s.2
  .ok (.next iNdEx (iNdEx, m))

def finish (dAtA : Bytes) (s : ℤ × σ) : Out σ := do
  failIf ((dAtA.length : ℤ) < s.1) (.err unexpectedEOF)
  .ok s.2

theorem finish_settles (dAtA : Bytes) (s : ℤ × σ) : Settles (finish dAtA s) := by
  simp only [finish, settles_bind, settles_failIf, settles_ok, implies_true, and_self]

def loop (dAtA : Bytes) : CursorLoop Err (ℤ × σ) σ where
  len := dAtA.length
  body := M.round dAtA
  done := finish dAtA
  done_settles := finish_settles dAtA

/-- `m.Unmarshal(dAtA)`, with the message it leaves in `m`. -/
def unmarshal (m : σ) (dAtA : Bytes) : Out σ := (M.loop dAtA).call (0, m)

end Unmarshaler

/-! ### Total on every input -/

section Total

variable {dAtA : Bytes} (hlen : dAtA.length < 2 ^ 63)
include hlen

theorem readContent_settles {i : ℤ} (h0 : 0 ≤ i) : Settles (readContent dAtA i) := by
  simp only [readContent, settles_bind, readVarint_settles dAtA h0, settles_failIf, settles_ok,
    implies_true, failIf_eq_ok, true_and, and_true]
  intro p hp _ hnn _ hpost _ hend
  have hb := readVarint_bounds hp
  have hw := wrap64_range p.1
  unfold minInt64 maxInt64 at hw
  -- no wrap: the sum of two `int`s that wraps is negative
  have hin : 0 ≤ p.2 ∧ p.2 ≤ wrap64 (p.2 + wrap64 p.1) ∧
      wrap64 (p.2 + wrap64 p.1) ≤ dAtA.length := by
    generalize wrap64 (p.1 : ℤ) = length at hw hnn hpost hend
    unfold wrap64 at hpost hend ⊢
    omega
  rw [slice, if_pos hin]
  exact settles_ok _

omit hlen in
theorem readContent_bounds {i : ℤ} {r : Bytes × ℤ} (h : readContent dAtA i = .ok r) :
    i < r.2 ∧ r.1.length ≤ dAtA.length := by
  simp only [readContent, bind_eq_ok, failIf_eq_ok] at h
  obtain ⟨p, hp, _, _, _, _, _, _, content, hcontent, heq⟩ := h
  have hb := readVarint_bounds hp
  cases heq
  unfold slice at hcontent
  split_ifs at hcontent with hin
  cases hcontent
  refine ⟨by dsimp only; omega, ?_⟩
  rw [List.length_drop, List.length_take]
  omega

theorem skipFrom_settles {i : ℤ} (h0 : 0 ≤ i) (hi : i ≤ dAtA.length) :
    Settles (skipFrom dAtA i) := by
  have hrest : (dAtA.drop i.toNat).length < 2 ^ 63 := by
    rw [List.length_drop]
    omega
  simp only [skipFrom, sliceFrom, if_pos (⟨h0, hi⟩ : _ ∧ _), ok_bind, settles_bind,
    skip_settles hrest, settles_failIf, settles_ok, implies_true, and_self]

theorem skipFrom_lt {i j : ℤ} (h0 : 0 ≤ i) (hi : i ≤ dAtA.length) (h : skipFrom dAtA i = .ok j) :
    i < j := by
  have hrest : (dAtA.drop i.toNat).length < 2 ^ 63 := by
    rw [List.length_drop]
    omega
  simp only [skipFrom, sliceFrom, if_pos (⟨h0, hi⟩ : _ ∧ _), ok_bind, bind_eq_ok, failIf_eq_ok,
    not_or, not_lt] at h
  obtain ⟨n, hn, _, hnn, _, hend, heq⟩ := h
  have hb := skip_bounds hrest hn
  cases heq
  unfold wrap64 at hnn hend ⊢
  omega

namespace Unmarshaler

variable {σ : Type} {M : Unmarshaler σ}
  (hread : ∀ num name read, M.field num = some (name, read) →
    ∀ content m, content.length ≤ dAtA.length → Settles (read content m))
include hread

theorem round_advances {i : ℤ} (h0 : 0 ≤ i) (hi : i < dAtA.length) (s : ℤ × σ) :
    Advances i (M.round dAtA i s) := by
  unfold round
  rw [advances_bind]
  refine ⟨readVarint_settles dAtA h0, ?_⟩
  intro p hp
  have hb := readVarint_bounds hp
  rw [advances_failIf, advances_failIf]
  intro _ _
  rw [advances_bind]
  unfold unmarshalField
  cases hf : M.field (wrap32 (p.1 / 8 : ℕ)) with
  | none =>
    dsimp only
    refine ⟨?_, ?_⟩
    · simp only [settles_bind, skipFrom_settles hlen h0 hi.le, settles_ok, implies_true, and_self]
    · intro r hr
      obtain ⟨j, hj, heq⟩ := (bind_eq_ok _ _ _).mp hr
      cases heq
      rw [advances_next]
      exact skipFrom_lt hlen h0 hi.le hj
  | some entry =>
    obtain ⟨name, read⟩ := entry
    dsimp only
    refine ⟨?_, ?_⟩
    · simp only [settles_bind, settles_failIf, readContent_settles hlen (show 0 ≤ p.2 by omega),
        settles_ok, implies_true, true_and, and_true]
      intro _ _ r hr
      exact hread _ name read hf r.1 s.2 (readContent_bounds hr).2
    · intro r hr
      simp only [bind_eq_ok] at hr
      obtain ⟨_, _, q, hq, _, _, heq⟩ := hr
      have hpast := (readContent_bounds hq).1
      cases heq
      rw [advances_next]
      dsimp only
      omega

theorem loop_total (m : σ) : (M.loop dAtA).Total (0, m) := by
  rw [CursorLoop.total_iff_of_body (C := fun _ _ => True)]
  · intros
    trivial
  · intro i s h0 hi
    exact iff_of_true (round_advances hlen hread h0 hi s) trivial

theorem unmarshal_settles (m : σ) : Settles (M.unmarshal m dAtA) := (loop_total hlen hread m).settles

end Unmarshaler
end Total

/-! ### Written fields are read back -/

/-- A length-delimited field as generated code writes it. -/
structure Field where
  num : ℕ
  content : Bytes

def Field.encode (f : Field) : Bytes :=
  appendVarint (8 * f.num + 2) ++ (appendVarint f.content.length ++ f.content)

def encodeAll (fs : List Field) : Bytes := fs.flatMap Field.encode

theorem encodeAll_append (fs gs : List Field) : encodeAll (fs ++ gs) = encodeAll fs ++ encodeAll gs :=
  List.flatMap_append ..

theorem slice_append (pre content post : Bytes) :
    slice (pre ++ (content ++ post)) pre.length ((pre.length + content.length : ℕ) : ℤ) =
      .ok content := by
  have hin : (0 : ℤ) ≤ pre.length ∧ (pre.length : ℤ) ≤ ((pre.length + content.length : ℕ) : ℤ) ∧
      ((pre.length + content.length : ℕ) : ℤ) ≤ (pre ++ (content ++ post)).length := by
    simp only [List.length_append]
    omega
  rw [slice, if_pos hin, Int.toNat_natCast, Int.toNat_natCast, ← List.append_assoc,
    ← List.length_append, List.take_left, List.drop_left]

theorem readContent_eq {data content : Bytes} {i j : ℤ} {n : ℕ} (hlen : data.length < 2 ^ 63)
    (hread : readVarint data i = .ok (n, j)) (hend : j + n ≤ data.length)
    (hslice : slice data j (j + n) = .ok content) :
    readContent data i = .ok (content, j + n) := by
  have hb := readVarint_bounds hread
  have hword : wrap64 n = n := wrap64_of_range (by omega)
  have hpost : wrap64 (j + n) = j + n := wrap64_of_range (by omega)
  have hnn : ¬ (n : ℤ) < 0 := by omega
  have hnn' : ¬ j + (n : ℤ) < 0 := by omega
  unfold readContent
  rw [hread, ok_bind]
  dsimp only
  rw [hword, failIf_of_not _ hnn, ok_bind, hpost, failIf_of_not _ hnn', ok_bind,
    failIf_of_not _ (not_lt.mpr hend), ok_bind, hslice, ok_bind]

/-- The content of a field is read back behind its tag. -/
theorem readContent_append {content pre post data : Bytes} (hlen : data.length < 2 ^ 63)
    (hdata : data = pre ++ (appendVarint content.length ++ (content ++ post))) :
    readContent data pre.length = .ok (content,
      (pre.length + ((appendVarint content.length).length + content.length) : ℕ)) := by
  have hsize : data.length = pre.length + ((appendVarint content.length).length +
      (content.length + post.length)) := by
    rw [hdata]
    simp only [List.length_append]
  have hread := readVarint_append (v := content.length) (by omega) pre (content ++ post)
  rw [← hdata] at hread
  have hslice := slice_append (pre ++ appendVarint content.length) content post
  rw [List.append_assoc, ← hdata, List.length_append, Nat.cast_add _ content.length] at hslice
  rw [readContent_eq hlen hread (by omega) hslice]
  push_cast
  rw [add_assoc]

theorem tag_read {f : Field} (hnum : 0 < f.num ∧ f.num < 2 ^ 28) :
    wrap32 ((8 * f.num + 2) / 8 : ℕ) = f.num ∧ (8 * f.num + 2) % 8 = 2 := by
  unfold wrap32
  omega

namespace Unmarshaler

variable {σ : Type} {M : Unmarshaler σ}

/-- The case of the switch for a field. -/
def reads (M : Unmarshaler σ) (f : Field) (m : σ) : Option (Out σ) :=
  (M.field f.num).map fun entry => entry.2 f.content m

theorem round_field {f : Field} {pre post data : Bytes} (hnum : 0 < f.num ∧ f.num < 2 ^ 28)
    (hlen : data.length < 2 ^ 63) (hdata : data = pre ++ (f.encode ++ post)) {i : ℤ} {m m' : σ}
    (hread : M.reads f m = some (.ok m')) :
    M.round data pre.length (i, m) = .ok (.next (pre.length + f.encode.length : ℕ)
      ((pre.length + f.encode.length : ℕ), m')) := by
  have htag := readVarint_append (v := 8 * f.num + 2) (by omega) pre
    (appendVarint f.content.length ++ (f.content ++ post))
  have hsplit : data = pre ++ (appendVarint (8 * f.num + 2) ++
      (appendVarint f.content.length ++ (f.content ++ post))) := by
    rw [hdata, Field.encode]
    simp only [List.append_assoc]
  rw [← hsplit] at htag
  have hcontent := @readContent_append f.content (pre ++ appendVarint (8 * f.num + 2)) post data hlen
    (by rw [hsplit, List.append_assoc])
  have hend : (pre ++ appendVarint (8 * f.num + 2)).length +
      ((appendVarint f.content.length).length + f.content.length) =
      pre.length + f.encode.length := by
    simp only [Field.encode, List.length_append]
    omega
  rw [hend, List.length_append] at hcontent
  obtain ⟨hfield, hwire⟩ := tag_read hnum
  obtain ⟨⟨name, read⟩, hf, hok⟩ := Option.map_eq_some_iff.mp hread
  have hone : M.unmarshalField data pre.length
      ((pre.length + (appendVarint (8 * f.num + 2)).length : ℕ) : ℤ) f.num 2 m =
      .ok (((pre.length + f.encode.length : ℕ) : ℤ), m') := by
    unfold unmarshalField
    rw [hf]
    dsimp only at hok ⊢
    rw [failIf_of_not _ (not_not.mpr rfl), ok_bind, hcontent, ok_bind, hok, ok_bind]
  unfold round
  rw [htag, ok_bind]
  dsimp only
  rw [hfield, hwire, failIf_of_not _ (by decide), ok_bind, failIf_of_not _ (by omega), ok_bind, hone,
    ok_bind]

/-- A message written as a list of fields is read back as what the fields make of it one
after another. -/
theorem unmarshal_encodeAll {fs : List Field} (hnum : ∀ f ∈ fs, 0 < f.num ∧ f.num < 2 ^ 28)
    (hlen : (encodeAll fs).length < 2 ^ 63) {m m' : σ}
    (hsteps : Steps (fun f m m' => M.reads f m = some (.ok m')) fs m m') :
    M.unmarshal m (encodeAll fs) = .ok m' := by
  obtain ⟨value, rfl, rfl, hread⟩ := hsteps.states
  have hsum : ∀ gs : List Field, (gs.map fun f => f.encode.length).sum = (encodeAll gs).length := by
    intro gs
    rw [encodeAll, List.length_flatMap]
  have hpos : ∀ f : Field, 0 < f.encode.length := by
    intro f
    have htag := appendVarintLoop_pos 9 (8 * f.num + 2)
    unfold Field.encode appendVarint
    rw [List.length_append]
    omega
  have hcall := CursorLoop.call_of_states (l := M.loop (encodeAll fs))
    (fun f : Field => f.encode.length) fs (hsum fs).symm hpos (fun pre => (((encodeAll pre).length : ℤ), value pre.length)) ?_
  · have hdone : finish (encodeAll fs) (((encodeAll fs).length : ℤ), value fs.length) =
        .ok (value fs.length) := by
      unfold finish
      rw [failIf_of_not _ (lt_irrefl _), ok_bind]
    exact hcall.trans hdone
  · intro pre f post hsplit
    have hmem : f ∈ fs := by
      rw [hsplit]
      exact List.mem_append_right _ (List.mem_cons_self ..)
    have hdata : encodeAll fs = encodeAll pre ++ (f.encode ++ encodeAll post) := by
      rw [hsplit, encodeAll_append]
      rfl
    have hround := round_field (i := (encodeAll pre).length) (hnum f hmem) hlen hdata
      (hread pre f post hsplit)
    have hnext : (encodeAll (pre ++ [f])).length = (encodeAll pre).length + f.encode.length := by
      rw [encodeAll_append, List.length_append]
      simp [encodeAll]
    rw [hsum pre, hnext, List.length_append, List.length_singleton]
    exact hround

end Unmarshaler

/-! ### Fields written from the back -/

/-- The length of a field in front of its content, and the tag in front of that. -/
def writeHeader (dAtA : Bytes) (i : ℤ) (size : ℕ) (tag : Byte) : Out (Bytes × ℤ) := do
  let (dAtA, i) ← encodeVarint dAtA i size
  let i := i - 1
  let dAtA ← put dAtA i tag
  .ok (dAtA, i)

def Field.tag (f : Field) : Byte := Fin.ofNat 256 (8 * f.num + 2)

theorem Field.encode_eq {f : Field} (hnum : f.num < 15) :
    f.encode = f.tag :: (appendVarint f.content.length ++ f.content) := by
  have htag : appendVarint (8 * f.num + 2) = [f.tag] := by
    simp only [appendVarint, appendVarintLoop, if_neg (show ¬ 128 ≤ 8 * f.num + 2 by omega), tag]
  rw [encode, htag, List.singleton_append]

theorem Field.encode_length {f : Field} (hnum : f.num < 15) (hlen : f.content.length < 2 ^ 64) :
    f.encode.length = 1 + f.content.length + sov f.content.length := by
  rw [Field.encode_eq hnum, List.length_cons, List.length_append, sov_eq_length hlen]
  omega

theorem Field.encode_length_le {f : Field} (hnum : f.num < 15) :
    f.encode.length ≤ 1 + f.content.length + sov f.content.length := by
  have hle := length_le_sov f.content.length
  rw [Field.encode_eq hnum, List.length_cons, List.length_append]
  omega

theorem Field.content_le (f : Field) : f.content.length ≤ f.encode.length := by
  simp only [Field.encode, List.length_append]
  omega

theorem writeHeader_eq {dAtA : Bytes} {i : ℕ} {f : Field} (hi : i ≤ dAtA.length) (hnum : f.num < 15)
    (hlen : f.content.length < 2 ^ 64) (hfit : f.encode.length ≤ i) :
    writeHeader (prepend dAtA i f.content) (i - f.content.length : ℤ) f.content.length f.tag =
      .ok (prepend dAtA i f.encode, (i - f.encode.length : ℤ)) := by
  have hsize : f.encode.length = 1 + ((appendVarint f.content.length).length + f.content.length) := by
    rw [Field.encode_eq hnum, List.length_cons, List.length_append]
    omega
  have hbuf := @prepend_length dAtA f.content i hi (by omega)
  have hbuf' := @prepend_length dAtA (appendVarint f.content.length ++ f.content) i hi
    (by rw [List.length_append]; omega)
  have hlength : encodeVarint (prepend dAtA i f.content) (i - f.content.length : ℤ) f.content.length =
      .ok (prepend dAtA i (appendVarint f.content.length ++ f.content),
        (i - f.content.length - (appendVarint f.content.length).length : ℤ)) := by
    have hwrite := @encodeVarint_eq (prepend dAtA i f.content) (i - f.content.length) (by omega)
      f.content.length hlen (by omega)
    rwa [prepend_prepend hi (by omega) (by omega), Nat.cast_sub (by omega)] at hwrite
  have htag : put (prepend dAtA i (appendVarint f.content.length ++ f.content))
      (i - f.content.length - (appendVarint f.content.length).length - 1 : ℤ) f.tag =
      .ok (prepend dAtA i f.encode) := by
    have hwrite := @put_eq (prepend dAtA i (appendVarint f.content.length ++ f.content))
      (i - (appendVarint f.content.length ++ f.content).length) (by omega) f.tag (by rw [List.length_append]; omega)
    rw [prepend_prepend hi (by rw [List.length_append]; omega)
      (by rw [List.length_append, List.length_singleton]; omega), List.singleton_append,
      ← Field.encode_eq hnum] at hwrite
    rw [← hwrite]
    congr 1
    rw [List.length_append]
    omega
  unfold writeHeader
  rw [hlength, ok_bind]
  dsimp only
  rw [htag, ok_bind, hsize]
  congr 2
  push_cast
  ring

/-- `copy` and the header: a whole field. -/
theorem writeField_eq {dAtA : Bytes} {i : ℕ} {f : Field} (hi : i ≤ dAtA.length) (hnum : f.num < 15)
    (hlen : f.content.length < 2 ^ 64) (hfit : f.encode.length ≤ i) :
    (do
      let dAtA ← copyTo dAtA (i - f.content.length : ℤ) f.content
      writeHeader dAtA (i - f.content.length : ℤ) f.content.length f.tag) =
      .ok (prepend dAtA i f.encode, (i - f.encode.length : ℤ)) := by
  rw [copyTo_eq hi (f.content_le.trans hfit), ok_bind]
  exact writeHeader_eq hi hnum hlen hfit

end Tsc.Gogo
