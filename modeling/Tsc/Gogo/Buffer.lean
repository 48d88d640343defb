import Tsc.LegacyTx.Encoder
import Mathlib.Data.Nat.Size

/-!
# Buffers and varints of generated protobuf code

A generated `Marshal` writes into a buffer of the message's size, from the back: each
write goes in front of the last. `prepend` is what a series of such writes comes to. A
generated reader takes at most ten bytes of a varint and tells an input that ends from a
varint that does not.
-/

namespace Tsc.Gogo

open Go Sdk LegacyTx

def indexOutOfRange : Fault Err := .panic "index out of range"

def errIntOverflow : Err := ⟨.plain, "proto: integer overflow", []⟩

def errInvalidLength : Err := ⟨.plain, "proto: negative length found during unmarshaling", []⟩

def errUnexpectedEndOfGroup : Err := ⟨.plain, "proto: unexpected end of group", []⟩

/-! ### Reading varints -/

def index (data : Bytes) (i : ℤ) : Out Byte :=
  if 0 ≤ i then ofOption indexOutOfRange data[i.toNat]? else .error indexOutOfRange

/-- `for shift := uint(0); ; shift += 7 { … }` with `n` rounds to go before the shift is
64 or more. The cursor stays within the data, so its increments do not wrap. -/
def varintRounds (data : Bytes) : ℕ → ℕ → ℕ → ℤ → Out (ℕ × ℤ)
  | 0, _, _, _ => .error (.err errIntOverflow)
  | n + 1, shift, val, i => do
    failIf ((data.length : ℤ) ≤ i) (.err unexpectedEOF)
    let b ← index data i
    let val := val ||| ((b.val &&& 127) <<< shift) % 2 ^ 64
    if b.val < 128 then .ok (val, i + 1) else varintRounds data n (shift + 7) val (i + 1)

/-- The value and the cursor behind it. -/
def readVarint (data : Bytes) (i : ℤ) : Out (ℕ × ℤ) := varintRounds data 10 0 0 i

theorem index_eq {data : Bytes} {i : ℤ} (h0 : 0 ≤ i) (hi : i < data.length) :
    ∃ b, index data i = .ok b ∧ data.drop i.toNat = b :: data.drop (i + 1).toNat := by
  have hn : i.toNat < data.length := by omega
  have hnext : (i + 1).toNat = i.toNat + 1 := by omega
  refine ⟨data[i.toNat], ?_, ?_⟩
  · simp only [index, if_pos h0, List.getElem?_eq_getElem hn, ofOption]
  · rw [hnext]
    exact List.drop_eq_getElem_cons hn

theorem varintRounds_settles (data : Bytes) (n shift val : ℕ) {i : ℤ} (h0 : 0 ≤ i) :
    Settles (varintRounds data n shift val i) := by
  induction n generalizing shift val i with
  | zero => exact settles_err _
  | succ n ih =>
    simp only [varintRounds, settles_bind, settles_failIf, failIf_eq_ok, not_le, true_and]
    intro _ hi
    obtain ⟨b, hb, _⟩ := index_eq h0 hi
    rw [hb]
    refine ⟨settles_ok b, ?_⟩
    intro b' _
    split_ifs
    · exact settles_ok _
    · exact ih _ _ (by omega)

/-- The rounds read the same varints as a loop over the rest of the data. -/
theorem varintRounds_eq_ok_iff (data : Bytes) (n : ℕ) {k val : ℕ} (hn : n + k = 10) {i : ℤ}
    (h0 : 0 ≤ i) (v : ℕ) (j : ℤ) :
    varintRounds data n (7 * k) val i = .ok (v, j) ↔
      ∃ m, varintLoop k val (data.drop i.toNat) = (v, m) ∧ m ≠ 0 ∧ j = i + m - k := by
  induction n generalizing k val i with
  | zero =>
    have hnone : (varintLoop k val (data.drop i.toNat)).2 = 0 := by
      unfold varintLoop
      split
      · rfl
      · rw [if_neg (by omega)]
    simp only [varintRounds, reduceCtorEq, false_iff]
    rintro ⟨m, hm, hne, _⟩
    rw [hm] at hnone
    exact hne hnone
  | succ n ih =>
    by_cases hi : (data.length : ℤ) ≤ i
    · have hnil : data.drop i.toNat = [] := List.drop_eq_nil_of_le (by omega)
      simp only [varintRounds, failIf_of _ hi, error_bind, reduceCtorEq, hnil, varintLoop,
        Prod.mk.injEq, false_iff]
      rintro ⟨m, ⟨_, hm⟩, hne, _⟩
      exact hne hm.symm
    · obtain ⟨b, hb, hdrop⟩ := index_eq h0 (not_le.mp hi)
      simp only [varintRounds, failIf_of_not _ hi, ok_bind, hb, hdrop, varintLoop,
        if_pos (show k < 10 by omega)]
      by_cases hlast : b.val < 128
      · simp only [if_pos hlast, Except.ok.injEq, Prod.mk.injEq]
        constructor
        · rintro ⟨rfl, rfl⟩
          exact ⟨k + 1, ⟨rfl, rfl⟩, by omega, by push_cast; ring⟩
        · rintro ⟨m, ⟨rfl, rfl⟩, _, rfl⟩
          exact ⟨rfl, by push_cast; ring⟩
      · rw [if_neg hlast, if_neg hlast, show 7 * k + 7 = 7 * (k + 1) by ring,
          ih (by omega) (by omega)]
        apply exists_congr
        intro m
        push_cast
        constructor
        · rintro ⟨h1, h2, rfl⟩
          exact ⟨h1, h2, by ring⟩
        · rintro ⟨h1, h2, rfl⟩
          exact ⟨h1, h2, by ring⟩

theorem readVarint_settles (data : Bytes) {i : ℤ} (h0 : 0 ≤ i) : Settles (readVarint data i) :=
  varintRounds_settles data 10 0 0 h0

theorem readVarint_eq_ok_iff {data : Bytes} {i : ℤ} (h0 : 0 ≤ i) (v : ℕ) (j : ℤ) :
    readVarint data i = .ok (v, j) ↔ (varintAt data i).2 ≠ 0 ∧ v = (varintAt data i).1 ∧
      j = i + (varintAt data i).2 := by
  have h := @varintRounds_eq_ok_iff data 10 0 0 rfl i h0 v j
  simp only [mul_zero, Nat.cast_zero, sub_zero] at h
  refine h.trans ?_
  constructor
  · rintro ⟨m, hm, hne, rfl⟩
    have hat : varintAt data i = (v, m) := hm
    rw [hat]
    exact ⟨hne, rfl, rfl⟩
  · rintro ⟨hne, rfl, rfl⟩
    exact ⟨(varintAt data i).2, rfl, hne, rfl⟩

/-- A varint that is read lies in the data and is a `uint64`. -/
theorem readVarint_bounds {data : Bytes} {i j : ℤ} {v : ℕ} (h : readVarint data i = .ok (v, j)) :
    0 ≤ i ∧ i < j ∧ j ≤ data.length ∧ v < 2 ^ 64 := by
  have hstart : 0 ≤ i ∧ i < data.length := by
    have hfirst := h
    simp only [readVarint, varintRounds, bind_eq_ok, failIf_eq_ok, not_le] at hfirst
    obtain ⟨_, hi, b, hb, _⟩ := hfirst
    unfold index at hb
    split_ifs at hb with h0
    exact ⟨h0, hi⟩
  obtain ⟨hne, rfl, rfl⟩ := (readVarint_eq_ok_iff hstart.1 v j).mp h
  have hle := varintAt_le hstart.1 hstart.2.le
  exact ⟨hstart.1, by omega, hle, protoDecodeVarint_lt _⟩

/-- A varint is read back wherever it stands. -/
theorem readVarint_append {v : ℕ} (hv : v < 2 ^ 64) (pre post : Bytes) :
    readVarint (pre ++ (appendVarint v ++ post)) pre.length =
      .ok (v, (pre.length + (appendVarint v).length : ℕ)) := by
  have hat : varintAt (pre ++ (appendVarint v ++ post)) (pre.length : ℤ) =
      (v, (appendVarint v).length) := by
    unfold varintAt
    rw [Int.toNat_natCast, List.drop_left]
    exact protoDecodeVarint_append hv post
  have hpos : 0 < (appendVarint v).length := appendVarintLoop_pos 9 v
  rw [readVarint_eq_ok_iff (Int.natCast_nonneg _), hat]
  exact ⟨hpos.ne', rfl, by push_cast; rfl⟩

/-! ### Sizes -/

/-- `(bits.Len64(x|1) + 6) / 7`. -/
def sov (x : ℕ) : ℕ := ((x ||| 1).size + 6) / 7

theorem or_one_lt_iff (x k : ℕ) (hk : k ≠ 0) : x ||| 1 < 2 ^ k ↔ x < 2 ^ k := by
  constructor
  · intro h
    exact lt_of_le_of_lt Nat.left_le_or h
  · intro h
    exact Nat.or_lt_two_pow h (Nat.one_lt_two_pow hk)

theorem sov_le_iff (x m : ℕ) (hm : m ≠ 0) : sov x ≤ m ↔ x < 128 ^ m := by
  have hpow : 128 ^ m = 2 ^ (7 * m) := by rw [pow_mul]; norm_num
  rw [hpow, ← or_one_lt_iff x (7 * m) (by omega), ← Nat.size_le, sov]
  omega

theorem appendVarintLoop_length_le_iff (n : ℕ) {v m : ℕ} (hv : v < 128 ^ (n + 1)) (hm : m ≠ 0) :
    (appendVarintLoop n v).length ≤ m ↔ v < 128 ^ m := by
  induction n generalizing v m with
  | zero =>
    have hle : 128 ^ 1 ≤ 128 ^ m := Nat.pow_le_pow_right (by norm_num) (by omega)
    simp only [appendVarintLoop, List.length_singleton]
    constructor
    · intro _
      exact lt_of_lt_of_le hv hle
    · intro _
      omega
  | succ n ih =>
    unfold appendVarintLoop
    have hle : 128 ^ 1 ≤ 128 ^ m := Nat.pow_le_pow_right (by norm_num) (by omega)
    by_cases hbig : 128 ≤ v
    · rw [if_pos hbig, List.length_cons]
      obtain ⟨k, rfl⟩ : ∃ k, m = k + 1 := ⟨m - 1, by omega⟩
      have hdiv : ∀ e, v / 128 < 128 ^ e ↔ v < 128 ^ (e + 1) := by
        intro e
        rw [Nat.div_lt_iff_lt_mul (by norm_num), ← pow_succ]
      rw [Nat.add_le_add_iff_right, ← hdiv k]
      by_cases hk : k = 0
      · subst hk
        have hpos := appendVarintLoop_pos n (v / 128)
        have hone : 1 ≤ v / 128 := by omega
        simp only [pow_zero]
        omega
      · exact ih ((hdiv (n + 1)).mpr hv) hk
    · rw [if_neg hbig, List.length_singleton]
      constructor
      · intro _
        omega
      · intro _
        omega

theorem sov_mono {x y : ℕ} (h : x ≤ y) : sov x ≤ sov y := by
  by_cases hy : sov y = 0
  · have hsize : 0 < (y ||| 1).size := Nat.size_pos.mpr (lt_of_lt_of_le Nat.one_pos Nat.right_le_or)
    rw [sov] at hy
    omega
  · rw [sov_le_iff x _ hy]
    exact lt_of_le_of_lt h ((sov_le_iff y _ hy).mp (le_refl _))

theorem sov_eq_length {v : ℕ} (hv : v < 2 ^ 64) : sov v = (appendVarint v).length := by
  have hbound : v < 128 ^ (9 + 1) := hv.trans (by norm_num)
  have hiff : ∀ m, m ≠ 0 → (sov v ≤ m ↔ (appendVarint v).length ≤ m) := by
    intro m hm
    rw [sov_le_iff v m hm]
    exact (appendVarintLoop_length_le_iff 9 hbound hm).symm
  have hpos : 0 < (appendVarint v).length := appendVarintLoop_pos 9 v
  have hpos' : sov v ≠ 0 := by
    have hsize : 0 < (v ||| 1).size := Nat.size_pos.mpr (lt_of_lt_of_le Nat.one_pos Nat.right_le_or)
    rw [sov]
    omega
  exact le_antisymm ((hiff _ hpos.ne').mpr (le_refl _)) ((hiff _ hpos').mp (le_refl _))

theorem appendVarintLoop_length_le (n v : ℕ) : (appendVarintLoop n v).length ≤ n + 1 := by
  induction n generalizing v with
  | zero => exact le_refl 1
  | succ n ih =>
    unfold appendVarintLoop
    split_ifs
    · exact Nat.succ_le_succ (ih _)
    · exact Nat.succ_le_succ (Nat.zero_le _)

/-- Of a number that is no `uint64`, `sov` has more groups than are ever written. -/
theorem length_le_sov (v : ℕ) : (appendVarint v).length ≤ sov v := by
  by_cases hv : v < 2 ^ 64
  · exact (sov_eq_length hv).ge
  · have hlen : (appendVarint v).length ≤ 10 := appendVarintLoop_length_le 9 v
    have hsov : ¬ sov v ≤ 9 := by
      rw [sov_le_iff v 9 (by norm_num)]
      have hpow : 128 ^ 9 ≤ 2 ^ 64 := by norm_num
      omega
    omega

/-! ### Writing from the back -/

/-- `dAtA[i] = b`. -/
def put (dAtA : Bytes) (i : ℤ) (b : Byte) : Out Bytes :=
  if 0 ≤ i ∧ i < dAtA.length then .ok (dAtA.set i.toNat b) else .error indexOutOfRange

/-- `copy(dAtA[i:], src)`. -/
def copyTo (dAtA : Bytes) (i : ℤ) (src : Bytes) : Out Bytes := do
  let tail ← sliceFrom dAtA i
  .ok (dAtA.take i.toNat ++ (src.take tail.length ++ tail.drop src.length))

/-- The loop of the generated `encodeVarint`; a `uint64` has at most nine groups before
the last. -/
def encodeVarintRounds : ℕ → Bytes → ℤ → ℕ → Out Bytes
  | 0, dAtA, offset, v => put dAtA offset (Fin.ofNat 256 v)
  | n + 1, dAtA, offset, v =>
    if 128 ≤ v then do
      let dAtA ← put dAtA offset (Fin.ofNat 256 (v &&& 127 ||| 128))
      encodeVarintRounds n dAtA (offset + 1) (v >>> 7)
    else put dAtA offset (Fin.ofNat 256 v)

/-- The buffer and the offset of the first byte written. -/
def encodeVarint (dAtA : Bytes) (offset : ℤ) (v : ℕ) : Out (Bytes × ℤ) := do
  let base := offset - sov v
  let dAtA ← encodeVarintRounds 9 dAtA base v
  .ok (dAtA, base)

/-- The buffer with `bytes` in front of its position `i`. -/
def prepend (dAtA : Bytes) (i : ℕ) (bytes : Bytes) : Bytes :=
  dAtA.take (i - bytes.length) ++ (bytes ++ dAtA.drop i)

section Prepend

variable {dAtA bytes more : Bytes} {i : ℕ} (hi : i ≤ dAtA.length) (hb : bytes.length ≤ i)
include hi hb

theorem prepend_length : (prepend dAtA i bytes).length = dAtA.length := by
  simp only [prepend, List.length_append, List.length_take, List.length_drop]
  omega

/-- Two writes, one in front of the other, are one. -/
theorem prepend_prepend (hm : more.length + bytes.length ≤ i) :
    prepend (prepend dAtA i bytes) (i - bytes.length) more = prepend dAtA i (more ++ bytes) := by
  have hlen : (dAtA.take (i - bytes.length)).length = i - bytes.length := by
    rw [List.length_take]
    omega
  have htake : (prepend dAtA i bytes).take (i - bytes.length - more.length) =
      dAtA.take (i - (more ++ bytes).length) := by
    rw [prepend, List.take_append_of_le_length (by omega), List.take_take, List.length_append]
    congr 1
    omega
  have hdrop : (prepend dAtA i bytes).drop (i - bytes.length) = bytes ++ dAtA.drop i := by
    unfold prepend
    rw [List.drop_append_of_le_length (by omega), List.drop_eq_nil_of_le (by omega),
      List.nil_append]
  unfold prepend at htake hdrop ⊢
  rw [htake, hdrop, List.append_assoc]

end Prepend

theorem prepend_nil (dAtA : Bytes) (i : ℕ) : prepend dAtA i [] = dAtA := by
  simp [prepend]

/-- A message fills a buffer of its size. -/
theorem prepend_full {dAtA bytes : Bytes} (h : bytes.length = dAtA.length) :
    prepend dAtA dAtA.length bytes = bytes := by
  simp [prepend, h]

/-- Writing in front of `i` in the part of the buffer before `i`. -/
theorem prepend_take {dAtA bytes : Bytes} {i : ℕ} (hi : i ≤ dAtA.length) :
    prepend (dAtA.take i) i bytes ++ dAtA.drop i = prepend dAtA i bytes := by
  have hnil : (dAtA.take i).drop i = [] := List.drop_eq_nil_of_le (by rw [List.length_take]; omega)
  rw [prepend, prepend, hnil, List.append_nil, List.take_take, min_eq_left (by omega),
    List.append_assoc]

theorem set_at {pre : Bytes} {x b : Byte} {post : Bytes} :
    (pre ++ x :: post).set pre.length b = pre ++ b :: post := by
  rw [List.set_append_right _ _ (le_refl _), Nat.sub_self]
  rfl

theorem put_at (pre post : Bytes) (x b : Byte) :
    put (pre ++ x :: post) pre.length b = .ok (pre ++ b :: post) := by
  have hlen : (pre.length : ℤ) < (pre ++ x :: post).length := by
    rw [List.length_append, List.length_cons]
    omega
  simp only [put, if_pos (⟨Int.natCast_nonneg _, hlen⟩ : _ ∧ _), Int.toNat_natCast, set_at]

theorem last_group (v : ℕ) : v &&& 127 ||| 128 = v % 128 + 128 := by
  rw [low_bits, Nat.or_comm]
  exact (Nat.two_pow_add_eq_or_of_lt (i := 7) (Nat.mod_lt v (by norm_num)) 1).symm.trans
    (Nat.add_comm _ _)

theorem encodeVarintRounds_over (n v : ℕ) (pre old post : Bytes)
    (hold : old.length = (appendVarintLoop n v).length) :
    encodeVarintRounds n (pre ++ (old ++ post)) pre.length v =
      .ok (pre ++ (appendVarintLoop n v ++ post)) := by
  induction n generalizing pre old v with
  | zero =>
    obtain ⟨x, rfl⟩ := List.length_eq_one_iff.mp hold
    exact put_at pre post x _
  | succ n ih =>
    unfold appendVarintLoop at hold ⊢
    unfold encodeVarintRounds
    by_cases hbig : 128 ≤ v
    · rw [if_pos hbig, List.length_cons] at hold
      rw [if_pos hbig, if_pos hbig, last_group]
      cases old with
      | nil => cases hold
      | cons x old =>
        have hrest := ih (v / 128) (pre ++ [Fin.ofNat 256 (v % 128 + 128)]) old
          (Nat.succ.inj hold)
        rw [List.length_append, List.length_singleton, List.append_assoc] at hrest
        rw [List.cons_append, put_at, ok_bind, Nat.shiftRight_eq_div_pow]
        simpa using hrest
    · rw [if_neg hbig, List.length_singleton] at hold
      obtain ⟨x, rfl⟩ := List.length_eq_one_iff.mp hold
      rw [if_neg hbig, if_neg hbig]
      exact put_at pre post x _

section Writes

variable {dAtA : Bytes} {i : ℕ} (hi : i ≤ dAtA.length)
include hi

/-- The buffer cut where `bytes` are to go in front of `i`. -/
theorem split_at {bytes : Bytes} (hb : bytes.length ≤ i) : ∃ pre old post,
    dAtA = pre ++ (old ++ post) ∧ pre.length = i - bytes.length ∧ old.length = bytes.length ∧
      prepend dAtA i bytes = pre ++ (bytes ++ post) := by
  refine ⟨dAtA.take (i - bytes.length), (dAtA.drop (i - bytes.length)).take bytes.length,
    dAtA.drop i, ?_, ?_, ?_, rfl⟩
  · have hdrop : dAtA.drop i = (dAtA.drop (i - bytes.length)).drop bytes.length := by
      rw [List.drop_drop, Nat.sub_add_cancel hb]
    rw [hdrop, List.take_append_drop, List.take_append_drop]
  · rw [List.length_take]
    omega
  · rw [List.length_take, List.length_drop]
    omega

theorem put_eq (b : Byte) (hpos : 1 ≤ i) : put dAtA (i - 1 : ℤ) b = .ok (prepend dAtA i [b]) := by
  obtain ⟨pre, old, post, hsplit, hpre, hold, heq⟩ := @split_at dAtA i hi [b] hpos
  obtain ⟨x, rfl⟩ := List.length_eq_one_iff.mp hold
  have hbase : (i : ℤ) - 1 = pre.length := by
    rw [List.length_singleton] at hpre
    omega
  rw [heq, hbase, hsplit]
  exact put_at pre post x b

theorem copyTo_eq {src : Bytes} (hsrc : src.length ≤ i) :
    copyTo dAtA (i - src.length : ℤ) src = .ok (prepend dAtA i src) := by
  obtain ⟨pre, old, post, hsplit, hpre, hold, heq⟩ := split_at hi hsrc
  have hbase : (i : ℤ) - src.length = pre.length := by omega
  have hin : (0 : ℤ) ≤ pre.length ∧ (pre.length : ℤ) ≤ (pre ++ (old ++ post)).length := by
    rw [List.length_append]
    omega
  have htake : src.take (old ++ post).length = src := by
    apply List.take_of_length_le
    rw [List.length_append]
    omega
  rw [heq, hbase, hsplit]
  simp only [copyTo, sliceFrom, if_pos hin, ok_bind, Int.toNat_natCast, List.drop_left,
    List.take_left, htake, ← hold]

theorem encodeVarint_eq {v : ℕ} (hv : v < 2 ^ 64) (hfit : (appendVarint v).length ≤ i) :
    encodeVarint dAtA i v =
      .ok (prepend dAtA i (appendVarint v), (i - (appendVarint v).length : ℤ)) := by
  obtain ⟨pre, old, post, hsplit, hpre, hold, heq⟩ := split_at hi hfit
  have hbase : (i : ℤ) - (appendVarint v).length = pre.length := by omega
  have hwrite := encodeVarintRounds_over 9 v pre old post hold
  simp only [encodeVarint, sov_eq_length hv, hbase, heq]
  rw [hsplit, hwrite, ok_bind]
  rfl

end Writes
end Tsc.Gogo
