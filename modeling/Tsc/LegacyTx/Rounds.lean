import Tsc.LegacyTx.Decoder

/-!
# One round of a legacy decoder

For each loop, the rounds that move the cursor forward and stay inside the data are
those at a field that is in order for it (`FieldOk`), and whose nested message, if
there is one, is read to an end.
-/

namespace Tsc.LegacyTx

open Go Sdk

variable {data : Bytes} {i j : ℤ} {α σ ρ : Type}

/-! ### Common parts of the rounds -/

theorem settles_slice (a b : ℤ) :
    Settles (slice data a b) ↔ 0 ≤ a ∧ a ≤ b ∧ b ≤ data.length := by
  unfold slice outOfRange
  split_ifs with h
  · simp [h]
  · simp [h]

theorem advances_readTag (hdata : data.length < 2 ^ 63) (h0 : 0 ≤ i) (hi : i < data.length)
    (bad : String) (f : ℕ × ℕ × ℤ → Out (Jump σ ρ)) :
    Advances i (readTag bad data i >>= f) ↔
      ((varintAt data i).2 ≠ 0 → Advances i
        (f ((varintAt data i).1 / 8, (varintAt data i).1 % 8, i + (varintAt data i).2))) := by
  have hle := varintAt_le h0 hi.le
  unfold readTag
  rw [decodeVarintAt_eq h0 hi.le, ok_bind]
  dsimp only
  rw [bind_assoc, advances_failIf, ok_bind, wrap64_of_range (by omega)]

/-- A cursor inside the data, after the tag of the round that began at `i`. -/
structure Inside (data : Bytes) (i j : ℤ) : Prop where
  small : data.length < 2 ^ 63
  nonneg : 0 ≤ i
  lt : i < j
  le : j ≤ data.length

theorem Inside.after_tag (hdata : data.length < 2 ^ 63) (h0 : 0 ≤ i) (hi : i < data.length)
    (hn : (varintAt data i).2 ≠ 0) : Inside data i (i + (varintAt data i).2) :=
  ⟨hdata, h0, by omega, varintAt_le h0 hi.le⟩

namespace Inside

variable (hj : Inside data i j)
include hj

theorem pos : 0 ≤ j := hj.nonneg.trans hj.lt.le

theorem varint_end : wrap64 (j + (varintAt data j).2) = j + (varintAt data j).2 ∧
    j + (varintAt data j).2 ≤ data.length := by
  obtain ⟨hdata, h0, hij, hle⟩ := hj
  have hend := varintAt_le (by omega) hle
  exact ⟨wrap64_of_range (by omega), hend⟩

theorem sliceFrom_eq : sliceFrom data j = .ok (data.drop j.toNat) := by
  obtain ⟨hdata, h0, hij, hle⟩ := hj
  unfold sliceFrom
  rw [if_pos ⟨by omega, hle⟩]

theorem advances_varint (f : ℕ × ℕ → Out Unit) (hf : ∀ p, Settles (f p)) (g : ℕ → σ) :
    Advances i (decodeVarintAt data j >>= fun p => f p >>= fun _ =>
      (.ok (.next (wrap64 (j + p.2)) (g p.1)) : Out (Jump σ ρ))) := by
  obtain ⟨hwrap, -⟩ := hj.varint_end
  obtain ⟨hdata, h0, hij, hle⟩ := hj
  rw [decodeVarintAt_eq (by omega) hle, ok_bind, advances_bind]
  refine ⟨hf _, ?_⟩
  intro _ _
  rw [advances_next, hwrap]
  omega

theorem advances_fixed (size : ℕ) (hs : size ≤ 8) (s : σ) :
    Advances i (.ok (.next (wrap64 (j + size)) s) : Out (Jump σ ρ)) ↔ j + size < 2 ^ 63 := by
  obtain ⟨hdata, h0, hij, hle⟩ := hj
  rw [advances_next]
  exact fixed_end_iff size h0 hij (by omega) hs

theorem skip_iff : i < wrap64 (j + wrap64 ((varintAt data j).2 + wrap64 (varintAt data j).1)) ↔
    j + (varintAt data j).2 + (varintAt data j).1 < 2 ^ 63 ∨
      2 ^ 64 < (varintAt data j).1 + (j + (varintAt data j).2 - i) := by
  obtain ⟨-, hend⟩ := hj.varint_end
  obtain ⟨hdata, h0, hij, hle⟩ := hj
  rw [wrap64_add_wrap64, ← add_assoc]
  exact skip_end_iff h0 (by omega) (by omega) (protoDecodeVarint_lt _)

theorem advances_readEnd (bad : Err) (f : ℤ × ℤ → Out (Jump σ ρ)) :
    Advances i (readEnd bad data j >>= f) ↔
      ((varintAt data j).2 ≠ 0 →
        wrap64 (j + (varintAt data j).2 + wrap64 (varintAt data j).1) ≤ data.length →
        Advances i (f (j + (varintAt data j).2,
          wrap64 (j + (varintAt data j).2 + wrap64 (varintAt data j).1)))) := by
  obtain ⟨hwrap, -⟩ := hj.varint_end
  obtain ⟨hdata, h0, hij, hle⟩ := hj
  unfold readEnd
  rw [decodeVarintAt_eq (by omega) hle, ok_bind]
  dsimp only
  rw [bind_assoc, advances_failIf, bind_assoc, advances_failIf, ok_bind, hwrap, not_lt]

theorem contentFrom_eq_some {content : Bytes} (hc : contentFrom data j = some content) :
    (varintAt data j).2 ≠ 0 ∧ j + (varintAt data j).2 + (varintAt data j).1 ≤ data.length ∧
      slice data (j + (varintAt data j).2) (j + (varintAt data j).2 + (varintAt data j).1) =
        .ok content := by
  obtain ⟨hdata, h0, hij, hle⟩ := hj
  unfold contentFrom at hc
  dsimp only at hc
  split_ifs at hc with h
  cases hc
  refine ⟨h.1, h.2, ?_⟩
  unfold slice
  rw [if_pos ⟨by omega, by omega, h.2⟩]

theorem contentFrom_of_fits (hm : (varintAt data j).2 ≠ 0)
    (hfit : j + (varintAt data j).2 + (varintAt data j).1 ≤ data.length) :
    ∃ content, contentFrom data j = some content ∧
      slice data (j + (varintAt data j).2) (j + (varintAt data j).2 + (varintAt data j).1) =
        .ok content := by
  have hc : contentFrom data j = some ((data.take
      (j + (varintAt data j).2 + (varintAt data j).1).toNat).drop
      (j + (varintAt data j).2).toNat) := by
    unfold contentFrom
    dsimp only
    rw [if_pos ⟨hm, hfit⟩]
  exact ⟨_, hc, (hj.contentFrom_eq_some hc).2.2⟩

/-- A content that is sliced and used. The end of the slice is computed as an `int` from
`b`, the start of the data or the offset of the length. -/
theorem advances_sliced {b stop : ℤ} (hb : 0 ≤ b) (hbj : b ≤ j)
    (hstop : stop = wrap64 (j - b + (varintAt data j).2 + wrap64 (varintAt data j).1))
    (use : Bytes → Out α) (g : α → Jump σ ρ)
    (hg : stop = j - b + (varintAt data j).2 + (varintAt data j).1 → b + stop ≤ data.length →
      ∀ a, Advances i (.ok (g a) : Out (Jump σ ρ))) :
    ((varintAt data j).2 ≠ 0 → stop ≤ data.length - b →
        Advances i (slice data (j + (varintAt data j).2) (b + stop) >>= fun content =>
          use content >>= fun a => .ok (g a))) ↔
      ((varintAt data j).2 ≠ 0 →
          j - b + (varintAt data j).2 + (varintAt data j).1 < 2 ^ 63) ∧
        ∀ content, contentFrom data j = some content → Settles (use content) := by
  obtain ⟨-, hend⟩ := hj.varint_end
  have hcontent := fun content (hc : contentFrom data j = some content) =>
    hj.contentFrom_eq_some hc
  have hfits := hj.contentFrom_of_fits
  obtain ⟨hdata, h0, hij, hle⟩ := hj
  have hiff := slice_end_iff (j - b + (varintAt data j).2) (data.length - b) (varintAt data j).1
    (by omega) (by omega) (by omega) (protoDecodeVarint_lt _)
  have hexact : j - b + (varintAt data j).2 + (varintAt data j).1 < 2 ^ 63 →
      stop = j - b + (varintAt data j).2 + (varintAt data j).1 := by
    intro hlt
    rw [hstop, wrap64_add_wrap64]
    exact wrap64_of_range (by omega)
  rw [← hstop] at hiff
  constructor
  · intro h
    -- an end that wraps lies before the start of the content, where the slice panics
    refine ⟨fun hm => hiff.mp fun hle => ?_, ?_⟩
    · have hin := (settles_slice _ _).mp ((advances_bind _ _ _).mp (h hm hle)).1
      omega
    · intro content hc
      obtain ⟨hm, hfit, hslice⟩ := hcontent content hc
      have hstop' := hexact (by omega)
      have hround := h hm (by omega)
      rw [show b + stop = j + (varintAt data j).2 + (varintAt data j).1 by omega, hslice, ok_bind,
        advances_bind] at hround
      exact hround.1
  · rintro ⟨hsmall, huse⟩ hm hle
    have hstop' := hexact (hsmall hm)
    obtain ⟨content, hc, hslice⟩ := hfits hm (by omega)
    rw [show b + stop = j + (varintAt data j).2 + (varintAt data j).1 by omega, hslice, ok_bind,
      advances_bind]
    exact ⟨huse content hc, fun a _ => hg hstop' (by omega) a⟩

theorem advances_content (bad : Err) (use : Bytes → Out α) (g : ℤ → α → Jump σ ρ)
    (hg : ∀ stop a, i < stop → Advances i (.ok (g stop a) : Out (Jump σ ρ))) :
    Advances i (readEnd bad data j >>= fun p => slice data p.1 p.2 >>= fun content =>
        use content >>= fun a => .ok (g p.2 a)) ↔
      ((varintAt data j).2 ≠ 0 → j + (varintAt data j).2 + (varintAt data j).1 < 2 ^ 63) ∧
        ∀ content, contentFrom data j = some content → Settles (use content) := by
  have hiff := hj.advances_sliced (b := 0) le_rfl hj.pos rfl use
    (g (wrap64 (j - 0 + (varintAt data j).2 + wrap64 (varintAt data j).1)))
    fun hstop _ a => hg _ a (by have hij := hj.lt; omega)
  simp only [sub_zero, zero_add] at hiff
  rw [hj.advances_readEnd]
  exact hiff

theorem slice_drop {a : ℤ} (ha : 0 ≤ a) (b : ℤ) :
    slice (data.drop j.toNat) a b = slice data (j + a) (j + b) := by
  obtain ⟨hdata, h0, hij, hle⟩ := hj
  unfold slice
  rw [List.length_drop]
  by_cases hb : a ≤ b ∧ b ≤ data.length - j
  · rw [if_pos ⟨ha, hb.1, by omega⟩, if_pos ⟨by omega, by omega, by omega⟩, List.take_drop,
      List.drop_drop]
    congr 3 <;> omega
  · rw [if_neg (by omega), if_neg (by omega)]

theorem advances_readLenDelimited (f : Bytes × ℤ → Out (Jump σ ρ)) :
    Advances i (sliceFrom data j >>= fun rest => readLenDelimited rest >>= f) ↔
      ((varintAt data j).2 ≠ 0 →
        wrap64 ((varintAt data j).2 + wrap64 (varintAt data j).1) ≤ data.length - j →
        Advances i (slice data (j + (varintAt data j).2)
            (j + wrap64 ((varintAt data j).2 + wrap64 (varintAt data j).1)) >>= fun content =>
          f (content, wrap64 ((varintAt data j).2 + wrap64 (varintAt data j).1)))) := by
  have hdrop := fun b => hj.slice_drop (a := (varintAt data j).2) (by omega) b
  have hrest := hj.sliceFrom_eq
  obtain ⟨hdata, h0, hij, hle⟩ := hj
  have hlen : ((data.drop j.toNat).length : ℤ) = data.length - j := by
    rw [List.length_drop]
    omega
  have hvarint : protoDecodeVarint (data.drop j.toNat) = varintAt data j := rfl
  rw [hrest, ok_bind]
  unfold readLenDelimited
  rw [hvarint]
  dsimp only
  rw [bind_assoc, advances_failIf, bind_assoc, advances_failIf, hlen, not_lt, bind_assoc, hdrop]
  rfl

theorem advances_subslice (use : Bytes → Out σ) :
    Advances i (sliceFrom data j >>= fun rest => readLenDelimited rest >>= fun p =>
        use p.1 >>= fun s => (.ok (.next (wrap64 (j + p.2)) s) : Out (Jump σ ρ))) ↔
      ((varintAt data j).2 ≠ 0 → ((varintAt data j).2 + (varintAt data j).1 : ℤ) < 2 ^ 63) ∧
        ∀ content, contentFrom data j = some content → Settles (use content) := by
  have hiff := hj.advances_sliced (ρ := ρ) (b := j) hj.pos le_rfl rfl use (fun s => .next
      (wrap64 (j + wrap64 (j - j + (varintAt data j).2 + wrap64 (varintAt data j).1))) s) (by
    intro hstop hfit s
    have hdata := hj.small
    have hpos := hj.pos
    have hij := hj.lt
    rw [advances_next, wrap64_of_range (by omega)]
    omega)
  simp only [sub_self, zero_add] at hiff
  rw [hj.advances_readLenDelimited]
  exact hiff

theorem advances_skip_checked (bad : Err) (s : σ) :
    Advances i (readEnd bad data j >>= fun p => (.ok (.next p.2 s) : Out (Jump σ ρ))) ↔
      FieldUse.skip.Ok data i j := by
  have hskip := hj.skip_iff
  rw [wrap64_add_wrap64, ← add_assoc] at hskip
  rw [hj.advances_readEnd]
  obtain ⟨hdata, h0, hij, hle⟩ := hj
  refine imp_congr_right fun _ => ?_
  rw [advances_next, ← hskip]
  omega

theorem advances_msgSkip (w : ℕ) (msg : LegacyMsgEthereumTx) :
    Advances i (msgSkip data w j msg) ↔ (skipUse w).Ok data i j := by
  unfold msgSkip
  split
  · exact iff_of_true (hj.advances_varint _ (fun p => settles_failIf (p.2 = 0) _) fun _ => msg)
      trivial
  · exact hj.advances_fixed 8 (by norm_num) msg
  · rw [decodeVarintAt_eq (by have := hj.nonneg; have := hj.lt; omega) hj.le, ok_bind]
    dsimp only
    rw [advances_failIf, advances_next]
    exact imp_congr_right fun _ => hj.skip_iff
  · exact hj.advances_fixed 4 (by norm_num) msg
  · rename_i h0 h1 h2 h5
    rw [skipUse_other h1 h2 h5]
    exact iff_of_true (advances_err _ _) trivial

theorem advances_skipProtoField (w : ℕ) (tx : σ) :
    Advances i (sliceFrom data j >>= fun rest => skipProtoField rest w >>= fun n =>
      (.ok (.next (wrap64 (j + n)) tx) : Out (Jump σ ρ))) ↔ (skipUse w).Ok data i j := by
  have hvarint : protoDecodeVarint (data.drop j.toNat) = varintAt data j := rfl
  rw [hj.sliceFrom_eq, ok_bind]
  unfold skipProtoField
  split
  · obtain ⟨hwrap, -⟩ := hj.varint_end
    obtain ⟨hdata, h0, hij, hle⟩ := hj
    rw [hvarint]
    dsimp only
    rw [bind_assoc, advances_failIf, ok_bind, advances_next, hwrap]
    refine iff_of_true (fun _ => ?_) trivial
    omega
  · exact hj.advances_fixed 8 (by norm_num) tx
  · rw [hvarint]
    dsimp only
    rw [bind_assoc, advances_failIf, ok_bind, advances_next]
    exact imp_congr_right fun _ => hj.skip_iff
  · exact hj.advances_fixed 4 (by norm_num) tx
  · rename_i h0 h1 h2 h5
    rw [skipUse_other h1 h2 h5]
    exact iff_of_true (advances_err _ _) trivial

end Inside

/-! ### extractProtoField -/

def extractUse (targetFieldNum targetWireType fieldNum wireType : ℕ) : FieldUse :=
  if wireType = 2 ∧ fieldNum = targetFieldNum ∧ targetWireType = 2 then .slice else skipUse wireType

theorem extractFixed_advances (hj : Inside data i j) (isTarget : Prop) [Decidable isTarget]
    (size : ℕ) (hs : size ≤ 8) :
    Advances i (extractFixed data isTarget size j) ↔ j + size < 2 ^ 63 := by
  obtain ⟨hdata, h0, hij, hle⟩ := hj
  have hiff := fixed_end_iff size h0 hij (by omega) hs
  unfold extractFixed
  rw [advances_failIf, not_lt]
  constructor
  · intro h
    by_contra hbig
    -- the sum has wrapped, and the test against the length lets it pass
    have hneg : wrap64 (j + size) ≤ i := not_lt.mp fun hlt => hbig (hiff.mp hlt)
    have hround := h (by omega)
    split_ifs at hround with ht
    · have hin := (settles_slice _ _).mp ((advances_bind _ _ _).mp hround).1
      omega
    · exact absurd ((advances_next _ _ _).mp hround) (not_lt.mpr hneg)
  · intro hsmall hstop
    have hwrap : wrap64 (j + size) = j + size :=
      wrap64_of_range (by omega)
    split_ifs with ht
    · rw [advances_bind, settles_slice]
      exact ⟨⟨by omega, by omega, hstop⟩, fun _ _ => advances_ret _ _⟩
    · rw [advances_next]
      omega

theorem extractField_advances (hj : Inside data i j) (tf tw f w : ℕ) :
    Advances i (extractField data tf tw f w j) ↔ (extractUse tf tw f w).Ok data i j := by
  have hother : w ≠ 2 → extractUse tf tw f w = skipUse w := by
    intro h2
    unfold extractUse
    rw [if_neg fun h => h2 h.1]
  unfold extractField
  split
  · rw [hother (by norm_num)]
    refine iff_of_true ?_ trivial
    obtain ⟨hwrap, hend⟩ := hj.varint_end
    obtain ⟨hdata, h0, hij, hle⟩ := hj
    rw [decodeVarintAt_eq (by omega) hle, ok_bind]
    dsimp only
    rw [advances_failIf, hwrap]
    intro hn
    split_ifs with ht
    · rw [advances_bind, settles_slice]
      exact ⟨⟨by omega, by omega, hend⟩, fun _ _ => advances_ret _ _⟩
    · rw [advances_next]
      omega
  · rw [hother (by norm_num)]
    exact extractFixed_advances hj _ 8 (by norm_num)
  · by_cases ht : f = tf ∧ tw = 2
    · have huse : extractUse tf tw f 2 = .slice := if_pos ⟨rfl, ht⟩
      simp only [if_pos ht]
      rw [huse]
      have hc := hj.advances_content (errorf "bad length at offset %d" [.int j])
        (fun content => .ok content) (fun _ content => (.ret content : Jump Unit Bytes))
        (fun _ _ _ => advances_ret _ _)
      exact hc.trans (and_iff_left fun _ _ => settles_ok _)
    · have huse : extractUse tf tw f 2 = .skip := if_neg fun h => ht h.2
      simp only [if_neg ht]
      rw [huse]
      exact hj.advances_skip_checked _ ()
  · rw [hother (by norm_num)]
    exact extractFixed_advances hj _ 4 (by norm_num)
  · rename_i h0 h1 h2 h5
    rw [hother h2, skipUse_other h1 h2 h5]
    exact iff_of_true (advances_err _ _) trivial

/-! ### unmarshalAny -/

def anyUse (fieldNum wireType : ℕ) : FieldUse :=
  if wireType = 2 ∧ (fieldNum = 1 ∨ fieldNum = 2) then .slice else skipUse wireType

/-- Allocating the copy of a slice adds no failure: where the size is negative, the
slice is out of bounds as well. -/
theorem advances_makeSlice (hdata : data.length < 2 ^ 63) {start stop : ℤ} (h0 : 0 ≤ start)
    (why : String) (g : Bytes → Out (Jump σ ρ)) :
    Advances i (failIf (wrap64 (stop - start) < 0) (.panic why) >>= fun _ =>
        slice data start stop >>= g) ↔
      Advances i (slice data start stop >>= g) := by
  by_cases hin : start ≤ stop ∧ stop ≤ data.length
  · have hpos : ¬ wrap64 (stop - start) < 0 := by
      rw [wrap64_of_range (by omega)]
      omega
    rw [failIf_of_not _ hpos, ok_bind]
  · have hout : ¬ Settles (slice data start stop) := by
      rw [settles_slice]
      omega
    have hpanic : ¬ Advances i (slice data start stop >>= g) := fun h =>
      hout ((advances_bind _ _ _).mp h).1
    refine iff_of_false ?_ hpanic
    unfold failIf
    split_ifs
    · exact fun h => not_settles_panic why h.1
    · exact hpanic

theorem anyField_advances (hj : Inside data i j) (f w : ℕ) (any : Any) :
    Advances i (anyField data f w j any) ↔ (anyUse f w).Ok data i j := by
  have hother : w ≠ 2 → anyUse f w = skipUse w := by
    intro h2
    unfold anyUse
    rw [if_neg fun h => h2 h.1]
  have hslice : ∀ g : ℤ → Bytes → Any,
      Advances i (readEnd (errorf "bad length in Any at %d" [.int j]) data j >>= fun p =>
        slice data p.1 p.2 >>= fun content =>
          (.ok (.next p.2 (g p.2 content)) : Out (Jump Any Any))) ↔
        FieldUse.slice.Ok data i j := by
    intro g
    have hc := hj.advances_content (errorf "bad length in Any at %d" [.int j])
      (fun content => .ok content) (fun stop content => (.next stop (g stop content) : Jump Any Any))
      (fun stop _ hlt => (advances_next _ _ _).mpr hlt)
    exact hc.trans (and_iff_left fun _ _ => settles_ok _)
  unfold anyField
  split
  · match f with
    | 1 => exact hslice fun _ typeUrl => { any with typeUrl }
    | 2 =>
      refine Iff.trans ?_ (hslice fun _ value => { any with value })
      rw [hj.advances_readEnd, hj.advances_readEnd]
      obtain ⟨hdata, h0, hij, hle⟩ := hj
      refine imp_congr_right fun _ => imp_congr_right fun _ => ?_
      exact advances_makeSlice hdata (by omega) _ _
    | 0 => exact hj.advances_skip_checked _ any
    | f + 3 => exact hj.advances_skip_checked _ any
  · rw [hother (by norm_num)]
    exact iff_of_true (hj.advances_varint (fun _ => .ok ()) (fun _ => settles_ok _) fun _ => any)
      trivial
  · rw [hother (by norm_num)]
    exact hj.advances_fixed 8 (by norm_num) any
  · rw [hother (by norm_num)]
    exact hj.advances_fixed 4 (by norm_num) any
  · rename_i h2 h0 h1 h5
    rw [hother h2, skipUse_other h1 h2 h5]
    exact iff_of_true (advances_err _ _) trivial

/-! ### unmarshalLegacyMsgEthereumTx -/

def msgUse (fieldNum wireType : ℕ) : FieldUse :=
  match fieldNum with
  | 1 | 3 | 4 => if wireType = 2 then .slice else .free
  | 2 => if wireType = 1 then .fixed 8 else .free
  | _ => skipUse wireType

theorem settles_wrapErr (base : ErrBase) (format : String) (x : Out α) :
    Settles (wrapErr base format x) ↔ Settles x := by
  cases x with
  | ok a => rfl
  | error e => cases e <;> simp [wrapErr, fail]

theorem msgContent_advances (hj : Inside data i j) (name : String) (w : ℕ)
    (use : Bytes → Out LegacyMsgEthereumTx) :
    Advances i (msgContent data name w j use) ↔
      FieldUse.Ok data i j (if w = 2 then .slice else .free) ∧
        (w = 2 → ∀ content, contentFrom data j = some content → Settles (use content)) := by
  unfold msgContent
  rw [advances_failIf, not_not]
  by_cases hw : w = 2
  · rw [if_pos hw]
    simp only [hw, forall_const]
    exact hj.advances_content _ use (fun stop msg => .next stop msg)
      (fun stop _ hlt => (advances_next _ _ _).mpr hlt)
  · rw [if_neg hw]
    exact iff_of_true (fun h => absurd h hw) ⟨trivial, fun h => absurd h hw⟩

theorem msgSize_advances (hj : Inside data i j) (w : ℕ) (msg : LegacyMsgEthereumTx) :
    Advances i (msgSize data w j msg) ↔
      FieldUse.Ok data i j (if w = 1 then .fixed 8 else .free) := by
  have hfixed := hj.advances_fixed (σ := Unit) (ρ := Unit) 8 le_rfl ()
  rw [advances_next] at hfixed
  have hrest := hj.sliceFrom_eq
  obtain ⟨hdata, h0, hij, hle⟩ := hj
  unfold msgSize
  rw [advances_failIf, not_not]
  by_cases hw : w = 1
  · rw [if_pos hw, hrest]
    simp only [hw, forall_const, advances_failIf, not_lt, ok_bind]
    unfold littleEndianUint64 FieldUse.Ok
    rw [List.length_drop]
    push_cast at hfixed ⊢
    by_cases hsmall : j + 8 < 2 ^ 63
    · refine iff_of_true (fun hstop => ?_) hsmall
      rw [wrap64_of_range (by omega)] at hstop
      rw [if_neg (by omega), ok_bind, advances_next]
      exact hfixed.mpr hsmall
    · refine iff_of_false (fun h => ?_) hsmall
      have hneg := hfixed.not.mpr hsmall
      have hround := h (by omega)
      rw [if_pos (by omega), error_bind] at hround
      exact absurd hround.1 (not_settles_panic _)
  · rw [if_neg hw]
    exact iff_of_true (fun h => absurd h hw) trivial

theorem msgField_advances (hj : Inside data i j) (f w : ℕ) (msg : LegacyMsgEthereumTx) :
    Advances i (msgField data f w j msg) ↔ (msgUse f w).Ok data i j ∧
      (w = 2 → ∀ content, contentFrom data j = some content → f = 1 →
        Settles (unmarshalAny content)) := by
  match f with
  | 1 =>
    refine (msgContent_advances hj "Data" w _).trans (and_congr_right fun _ => ?_)
    simp only [forall_const, settles_bind, settles_wrapErr, settles_ok, implies_true, and_true]
  | 2 => exact (msgSize_advances hj w msg).trans (and_iff_left fun _ _ _ h => by omega).symm
  | 3 =>
    refine (msgContent_advances hj "Hash" w _).trans (and_congr_right fun _ => ?_)
    exact iff_of_true (fun _ _ _ => settles_ok _) (fun _ _ _ h => by omega)
  | 4 =>
    refine (msgContent_advances hj "From" w _).trans (and_congr_right fun _ => ?_)
    exact iff_of_true (fun _ _ _ => settles_ok _) (fun _ _ _ h => by omega)
  | 0 => exact (hj.advances_msgSkip w msg).trans (and_iff_left fun _ _ _ h => by omega).symm
  | f + 5 => exact (hj.advances_msgSkip w msg).trans (and_iff_left fun _ _ _ h => by omega).symm

/-! ### Flat messages -/

def fieldUse (field : Option (Field σ)) (wireType : ℕ) : FieldUse :=
  match field with
  | some (.varint _ _) => .free
  | some (.content _ _) => if wireType = 2 then .subslice else .free
  | none => skipUse wireType

theorem fieldsField_advances (hj : Inside data i j) (field : Option (Field σ)) (w : ℕ) (tx : σ) :
    Advances i (fieldsField field data w j tx) ↔ (fieldUse field w).Ok data i j ∧
      (w = 2 → ∀ content, contentFrom data j = some content →
        ∀ name set, field = some (.content name set) → Settles (set content tx)) := by
  match field with
  | none =>
    refine (hj.advances_skipProtoField w tx).trans (and_iff_left ?_).symm
    rintro _ _ _ _ _ ⟨⟩
  | some (.varint name set) =>
    have hround : Advances i (fieldsField (some (.varint name set)) data w j tx) := by
      unfold fieldsField
      rw [advances_failIf]
      intro _
      exact hj.advances_varint _ (fun p => settles_failIf (p.2 = 0) _) fun v => set v tx
    refine iff_of_true hround ⟨trivial, ?_⟩
    rintro _ _ _ _ _ ⟨⟩
  | some (.content name set) =>
    have hiff := hj.advances_subslice (ρ := σ) fun content => set content tx
    unfold fieldsField fieldUse
    rw [advances_failIf, not_not]
    by_cases hw : w = 2
    · rw [if_pos hw]
      simp only [hw, forall_const]
      refine hiff.trans (and_congr_right fun _ => forall₂_congr fun content _ => ?_)
      constructor
      · rintro h _ _ ⟨⟩
        exact h
      · intro h
        exact h name set rfl
    · rw [if_neg hw]
      exact iff_of_true (fun h => absurd h hw) ⟨trivial, fun h => absurd h hw⟩

/-! ### Whole rounds -/

theorem contentAt_eq_some_iff (h0 : 0 ≤ i) (f : ℕ) (content : Bytes) :
    contentAt data i = some (f, content) ↔
      (varintAt data i).2 ≠ 0 ∧ f = (varintAt data i).1 / 8 ∧ (varintAt data i).1 % 8 = 2 ∧
        contentFrom data (i + (varintAt data i).2) = some content := by
  unfold contentAt
  dsimp only
  split_ifs with h
  · rw [Option.map_eq_some_iff]
    constructor
    · rintro ⟨_, hc, heq⟩
      cases heq
      exact ⟨h.2.1, rfl, h.2.2, hc⟩
    · rintro ⟨-, rfl, -, hc⟩
      exact ⟨content, hc, rfl⟩
  · refine iff_of_false (by simp) ?_
    rintro ⟨hn, -, hw, -⟩
    exact h ⟨h0, hn, hw⟩

theorem field_content_iff (data : Bytes) (h0 : 0 ≤ i) (use : ℕ → ℕ → FieldUse) (Q : ℕ → Bytes → Prop) :
    ((varintAt data i).2 ≠ 0 →
        (use ((varintAt data i).1 / 8) ((varintAt data i).1 % 8)).Ok data i
          (i + (varintAt data i).2) ∧
        ((varintAt data i).1 % 8 = 2 → ∀ content,
          contentFrom data (i + (varintAt data i).2) = some content →
            Q ((varintAt data i).1 / 8) content)) ↔
      FieldOk use data i ∧ ∀ f content, contentAt data i = some (f, content) → Q f content := by
  constructor
  · intro h
    refine ⟨fun hn => (h hn).1, fun f content hc => ?_⟩
    obtain ⟨hn, rfl, hw, hc⟩ := (contentAt_eq_some_iff h0 _ _).mp hc
    exact (h hn).2 hw content hc
  · rintro ⟨hok, hcontent⟩ hn
    refine ⟨hok hn, fun hw content hc => ?_⟩
    exact hcontent _ content ((contentAt_eq_some_iff h0 _ _).mpr ⟨hn, rfl, hw, hc⟩)

section Bodies

variable (hdata : data.length < 2 ^ 63) (h0 : 0 ≤ i) (hi : i < data.length)
include hdata h0 hi

theorem extractBody_advances (tf tw : ℕ) :
    Advances i (extractBody data tf tw i ()) ↔ FieldOk (extractUse tf tw) data i := by
  unfold extractBody
  rw [advances_readTag hdata h0 hi]
  refine imp_congr_right fun hn => ?_
  exact extractField_advances (Inside.after_tag hdata h0 hi hn) tf tw _ _

theorem anyBody_advances (any : Any) : Advances i (anyBody data i any) ↔ FieldOk anyUse data i := by
  unfold anyBody
  rw [advances_readTag hdata h0 hi]
  refine imp_congr_right fun hn => ?_
  exact anyField_advances (Inside.after_tag hdata h0 hi hn) _ _ any

theorem msgBody_advances (msg : LegacyMsgEthereumTx) :
    Advances i (msgBody data i msg) ↔ FieldOk msgUse data i ∧
      ∀ content, contentAt data i = some (1, content) → Settles (unmarshalAny content) := by
  have hfield := field_content_iff data h0 msgUse fun f content =>
    f = 1 → Settles (unmarshalAny content)
  unfold msgBody
  rw [advances_readTag hdata h0 hi]
  refine (imp_congr_right fun hn => ?_).trans (hfield.trans (and_congr_right fun _ => ?_))
  · exact msgField_advances (Inside.after_tag hdata h0 hi hn) _ _ msg
  · constructor
    · intro h content hc
      exact h 1 content hc rfl
    · rintro h _ content hc rfl
      exact h content hc

theorem fieldsBody_advances (bad : String) (fields : ℕ → Option (Field σ)) (tx : σ) :
    Advances i (fieldsBody bad fields data i tx) ↔
      FieldOk (fun f => fieldUse (fields f)) data i ∧
        ∀ f content, contentAt data i = some (f, content) →
          ∀ name set, fields f = some (.content name set) → Settles (set content tx) := by
  have hfield := field_content_iff data h0 (fun f => fieldUse (fields f))
    fun f content => ∀ name set, fields f = some (.content name set) → Settles (set content tx)
  unfold fieldsBody
  rw [advances_readTag hdata h0 hi]
  refine (imp_congr_right fun hn => ?_).trans hfield
  exact fieldsField_advances (Inside.after_tag hdata h0 hi hn) _ _ tx

end Bodies

end Tsc.LegacyTx
