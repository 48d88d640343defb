import Tsc.Staking.Moves
import Tsc.Lockup.MsgServer

/-!
# When the lockup hooks accept

The two staking hooks on a staking state with shares of exact rationals, as conditions
on the locked and the delegated amount. Both hooks of `Unbond` judge the same amount: what
the delegator has delegated with the record reduced and the validator's tokens not yet
taken out. Taking them out rounds down, so no exchange rate falls, and what the hooks
accepted still holds afterwards.
-/

namespace Tsc.Staking

open Go Sdk Kv Lockup

/-- `GetLockedAmountByAddress ≤ GetTotalDelegatedAmount`, both returning. -/
def Backed (p : Platform) (ctx : Ctx) (st : LockStore) (w : State) (d : AccAddress) : Prop :=
  ∃ locked total, getLockedAmountByAddress ctx st d = .ok locked ∧
    getTotalDelegatedAmount (readers p) w d = .ok total ∧ locked ≤ total

/-- The locked amount is `0`, or at most `remaining` and the records of `w` fit a page. -/
def Covers (ctx : Ctx) (st : LockStore) (w : State) (d : AccAddress) (remaining : ℤ) : Prop :=
  ∃ locked, getLockedAmountByAddress ctx st d = .ok locked ∧
    (locked = 0 ∨ locked ≤ remaining ∧ (delegationsOf w d).length < 100)

section Hooks

variable {c : AddressCodec} {ctx : Ctx} {st : LockStore} {w : State} {d : AccAddress}
  {v : ValAddress}

theorem afterDelegationModified_iff (hw : Priced w) :
    afterDelegationModified (readers c.exact) ctx st w d v = .ok () ↔
      isRedelegating ctx d v ∨ Covers ctx st w d (delegated w d) := by
  unfold Covers
  simp only [afterDelegationModified_reads, hw.getTotalDelegatedAmount_iff c d, and_assoc,
    exists_eq_left, and_comm (a := (delegationsOf w d).length < 100)]

theorem Priced.getDelegationAmount_eq {current : ℚ} (hw : Priced w)
    (hk : w.delegations.get (toLex (d, v)) = some current) :
    getDelegationAmount (readers c.exact) w d v = .ok ⌈current * rate w v⌉ ∧
      0 ≤ ⌈current * rate w v⌉ ∧ ⌈current * rate w v⌉ ≤ delegated w d := by
  obtain ⟨_, x, hx, _⟩ := hw.record _ _ hk
  have hceil := hw.ceilTokens_eq c hk hx
  have hnn := (hw.ceil_bounds hk hx).1
  have hle := Store.le_total (fun _ _ h => hw.worth_nonneg d h) hk
  have hworth : worth w d (toLex (d, v)) current = ⌈current * rate w v⌉ := if_pos rfl
  rw [ofLex_toLex] at hx hceil hnn
  have hdel : (readers c.exact).getDelegation w d v = .ok ⟨c.valText v, current⟩ := by
    simp only [readers, getShares, hk, ofOption, ok_bind]
    rfl
  have hval : (readers c.exact).getValidator w v = .ok x := by
    simp only [readers, getValidator, hx, ofOption]
  refine ⟨?_, hnn, hworth ▸ hle⟩
  unfold getDelegationAmount
  simp only [hdel, hval, ok_bind]
  exact hceil

/-- The old record is still stored and its worth is subtracted. -/
theorem beforeDelegationRemoved_iff {current : ℚ} (hw : Priced w)
    (hk : w.delegations.get (toLex (d, v)) = some current) :
    beforeDelegationRemoved (readers c.exact) ctx st w d v = .ok () ↔
      isRedelegating ctx d v ∨ Covers ctx st w d (delegated w d - ⌈current * rate w v⌉) := by
  obtain ⟨hamount, hnn, hsub⟩ := hw.getDelegationAmount_eq (c := c) hk
  have hlt := hw.delegated_lt d
  have hbound := intBound_pos
  have hrange : InRange (delegated w d - ⌈current * rate w v⌉) := ⟨by omega, by omega⟩
  unfold Covers
  simp only [beforeDelegationRemoved_reads, hw.getTotalDelegatedAmount_iff c d, hamount,
    Except.ok.injEq, exists_eq_left', and_assoc, exists_eq_left, hrange, true_and,
    and_comm (a := (delegationsOf w d).length < 100)]

end Hooks

/-! ### A record reduced -/

section Reduced

variable {c : AddressCodec} {ctx : Ctx} {st : LockStore} {w : State} {d : AccAddress}
  {v : ValAddress} {current shares : ℚ} (hw : Valid w)
  (hk : w.delegations.get (toLex (d, v)) = some current) (hpos : 0 < shares)
  (hle : shares ≤ current)
include hw hk hpos hle

theorem reduced_priced : Priced (reduced w d v (current - shares)) := by
  refine ⟨?_, hw.tokens, hw.pool⟩
  intro key s hs
  refine ⟨unbonded_positive hw hle key s hs, ?_⟩
  rw [reduced_get] at hs
  split_ifs at hs with hkey
  · cases hs
    obtain ⟨_, x, hx, hc⟩ := hw.priced.record _ _ hk
    rw [hkey]
    exact ⟨x, hx, by linarith⟩
  · exact (hw.priced.record key s hs).2

omit hw hpos hle in
theorem reduced_delegated (rest : ℚ) (d' : AccAddress) :
    delegated (reduced w d v rest) d' = delegated w d' +
      if d = d' then ⌈rest * rate w v⌉ - ⌈current * rate w v⌉ else 0 := by
  have hnew : ⌈rest * rate w v⌉ =
      ⌈current * rate w v⌉ + (⌈rest * rate w v⌉ - ⌈current * rate w v⌉) := by ring
  refine delegated_of_records d' (fun _ _ _ => rfl) ?_ hnew
  apply reduced_total w rest hk
  unfold worth
  simp

omit hw hpos hle in
theorem reduced_validators {rest : ℚ} {d' : AccAddress} {v' : ValAddress}
    (h : v' ∈ validatorsOf (reduced w d v rest) d') : v' ∈ validatorsOf w d' := by
  rw [mem_validatorsOf] at h ⊢
  obtain ⟨s, hs⟩ := h
  rw [reduced_get] at hs
  split_ifs at hs with hkey
  · rw [hkey]
    exact ⟨current, hk⟩
  · exact ⟨s, hs⟩

omit hpos hle hw in
theorem reduced_length {rest : ℚ} (hrest : rest ≠ 0) :
    (delegationsOf (reduced w d v rest) d).length = (delegationsOf w d).length := by
  apply le_antisymm
  · exact delegationsOf_length_le fun v' hv' => reduced_validators hk hv'
  · apply delegationsOf_length_le
    intro v' hv'
    rw [mem_validatorsOf] at hv' ⊢
    rw [reduced_get, if_neg hrest]
    split_ifs
    · exact ⟨rest, rfl⟩
    · exact hv'

/-- On either path the hook of `Unbond` asks that the reduced records cover the
locks. -/
theorem reduceDelegation_iff (w₁ : State) :
    reduceDelegation c.exact ctx st w d v (current - shares) = .ok w₁ ↔
      w₁ = reduced w d v (current - shares) ∧
        (isRedelegating ctx d v ∨
          Covers ctx st w d (delegated (reduced w d v (current - shares)) d)) := by
  have hdel := reduced_delegated hk (current - shares) d
  rw [if_pos rfl] at hdel
  unfold reduceDelegation
  by_cases h0 : current - shares = 0
  · rw [h0, zero_mul, Int.ceil_zero, zero_sub, ← sub_eq_add_neg] at hdel
    rw [h0, if_pos rfl, hdel, bind_eq_ok]
    simp only [beforeDelegationRemoved_iff hw.priced hk, exists_const]
    unfold reduced
    rw [if_pos rfl, and_comm, eq_comm (a := w₁), Except.ok.injEq]
  · have hcovers : ∀ remaining, Covers ctx st (reduced w d v (current - shares)) d remaining ↔
        Covers ctx st w d remaining := by
      intro remaining
      unfold Covers
      rw [reduced_length hk h0]
    have hred : reduced w d v (current - shares) =
        { w with delegations := w.delegations.set (toLex (d, v)) (current - shares) } := by
      unfold reduced
      rw [if_neg h0]
    have hhook : afterDelegationModified (readers c.exact) ctx st
        (reduced w d v (current - shares)) d v = .ok () ↔ _ :=
      afterDelegationModified_iff (reduced_priced hw hk hpos hle)
    rw [hcovers] at hhook
    rw [if_neg h0, bind_eq_ok]
    simp only [← hred, hhook, exists_const]
    rw [and_comm, eq_comm (a := w₁), Except.ok.injEq]

end Reduced

/-! ### The validator reduced -/

/-- The tokens `RemoveValidatorTokensAndShares` gives out for `shares`. -/
def issued (x : Validator) (shares : ℚ) : ℤ :=
  if x.delegatorShares - shares = 0 then x.tokens else ⌊shares * x.tokens / x.delegatorShares⌋

section Issued

variable {x : Validator} {shares : ℚ} (hS : 0 < x.delegatorShares) (hT : 0 ≤ x.tokens)
  (h0 : 0 ≤ shares) (hle : shares ≤ x.delegatorShares)
include hS hT h0 hle

theorem issued_bounds : 0 ≤ issued x shares ∧ issued x shares ≤ x.tokens := by
  have hTq : (0 : ℚ) ≤ x.tokens := by exact_mod_cast hT
  unfold issued
  split_ifs
  · exact ⟨hT, le_refl _⟩
  · refine ⟨Int.floor_nonneg.mpr (by positivity), ?_⟩
    have hval : shares * x.tokens / x.delegatorShares ≤ x.tokens := by
      rw [div_le_iff₀ hS, mul_comm]
      exact mul_le_mul_of_nonneg_left hle hTq
    exact_mod_cast (Int.floor_le _).trans hval

theorem removeTokensAndShares_issued (c : AddressCodec) :
    removeTokensAndShares c.exact x shares = .ok (issued x shares, { x with
      tokens := x.tokens - issued x shares, delegatorShares := x.delegatorShares - shares }) := by
  have hb := issued_bounds hS hT h0 hle
  unfold removeTokensAndShares
  dsimp only
  by_cases hrem : x.delegatorShares - shares = 0
  · rw [if_pos hrem, issued, if_pos hrem, hrem, sub_self]
  · rw [issued, if_neg hrem] at hb ⊢
    rw [if_neg hrem]
    have hvalue : c.exact.tokensFromShares x shares =
        .ok (shares * x.tokens / x.delegatorShares) := if_neg (ne_of_gt hS)
    rw [hvalue, ok_bind, failIf_of_not _ (by omega), ok_bind]

omit hT h0 in
theorem issued_rate (hrem : x.delegatorShares - shares ≠ 0) :
    (x.tokens : ℚ) / x.delegatorShares ≤
      ((x.tokens - issued x shares : ℤ) : ℚ) / (x.delegatorShares - shares) := by
  have hpos : 0 < x.delegatorShares - shares :=
    lt_of_le_of_ne (sub_nonneg.mpr hle) (Ne.symm hrem)
  have hfloor : ((issued x shares : ℤ) : ℚ) ≤ shares * x.tokens / x.delegatorShares := by
    unfold issued
    rw [if_neg hrem]
    exact Int.floor_le _
  push_cast
  rw [le_div_iff₀ hpos]
  calc (x.tokens : ℚ) / x.delegatorShares * (x.delegatorShares - shares)
      = x.tokens - shares * x.tokens / x.delegatorShares := by field_simp
    _ ≤ x.tokens - issued x shares := by linarith

end Issued

/-- Shares of a whole number of tokens are not rounded. -/
theorem Priceable.issued_eq {x : Validator} {amt : ℤ} {shares : ℚ} (h : Priceable x amt shares) :
    issued x shares = amt := by
  unfold issued
  split_ifs with hrem
  · exact h.tokens_of_remaining hrem
  · rw [mul_div_assoc, h.worth_eq, Int.floor_intCast]

theorem delegated_mono {w w' : State} (hw : Priced w) (hdel : w'.delegations = w.delegations)
    (hrate : ∀ key s, w.delegations.get key = some s → rate w (ofLex key).2 ≤ rate w' (ofLex key).2)
    (d : AccAddress) : delegated w d ≤ delegated w' d := by
  unfold delegated
  rw [hdel]
  apply Store.total_le_total
  intro key s hk
  unfold worth
  split_ifs
  · exact Int.ceil_mono (mul_le_mul_of_nonneg_left (hrate key s hk) (hw.record key s hk).1.le)
  · exact le_refl 0

section Unbonding

variable {c : AddressCodec} {ctx : Ctx} {st : LockStore} {w : State} {d : AccAddress}
  {v : ValAddress} {x : Validator} {current shares : ℚ} (hw : Valid w)
  (hk : w.delegations.get (toLex (d, v)) = some current) (hx : w.validators.get v = some x)
  (hpos : 0 < shares) (hle : shares ≤ current)
include hw hk hx hpos hle

theorem issued_valid : Valid (unbonded w d v x current shares (issued x shares)) := by
  obtain ⟨hc0, hc⟩ := hw.priced.record_of hk hx
  have hb := issued_bounds (lt_of_lt_of_le hc0 hc) (hw.tokens v x hx) hpos.le (hle.trans hc)
  refine (unbonded_valid hw hk hx hle hb ?_).1
  intro hrem
  unfold issued
  rw [if_pos hrem]

/-- The rate of a validator that keeps shares does not fall, so nothing that is
still recorded is worth less. -/
theorem reduced_le_unbonded (d' : AccAddress) :
    delegated (reduced w d v (current - shares)) d' ≤
      delegated (unbonded w d v x current shares (issued x shares)) d' := by
  obtain ⟨hc0, hc⟩ := hw.priced.record_of hk hx
  have hvalid := issued_valid hw hk hx hpos hle
  have hget : (unbonded w d v x current shares (issued x shares)).validators.get v = some { x with
      tokens := x.tokens - issued x shares, delegatorShares := x.delegatorShares - shares } :=
    (Store.get_set ..).trans (if_pos rfl)
  refine delegated_mono (reduced_priced hw hk hpos hle) ?_ ?_ d'
  · rfl
  intro key s hs
  by_cases hv : (ofLex key).2 = v
  · have hrem := (hvalid.priced.record_of hs ((congrArg _ hv).trans hget)).2
    have hs0 := unbonded_positive hw hle key s hs
    rw [hv, rate_some hget, rate_some (show (reduced w d v _).validators.get v = some x from hx)]
    exact issued_rate (lt_of_lt_of_le hc0 hc) (hle.trans hc) (ne_of_gt (lt_of_lt_of_le hs0 hrem))
  · apply le_of_eq
    unfold rate unbonded reduced
    dsimp only
    rw [Store.get_set, if_neg hv]

theorem unbond_iff (r : ℤ × State) :
    unbond c.exact ctx st w d v shares = .ok r ↔
      r = (issued x shares, unbonded w d v x current shares (issued x shares)) ∧
        (isRedelegating ctx d v ∨
          Covers ctx st w d (delegated (reduced w d v (current - shares)) d)) := by
  obtain ⟨hc0, hc⟩ := hw.priced.record_of hk hx
  have hremove := removeTokensAndShares_issued (lt_of_lt_of_le hc0 hc) (hw.tokens v x hx) hpos.le
    (hle.trans hc) c
  unfold unbond
  simp only [getShares, getValidator, hk, hx, ofOption, ok_bind, failIf_of_not _ (not_lt.mpr hle)]
  rw [bind_eq_ok]
  simp only [reduceDelegation_iff hw hk hpos hle, hremove, ok_bind, Except.ok.injEq]
  constructor
  · rintro ⟨w₁, ⟨rfl, hcond⟩, rfl⟩
    exact ⟨rfl, hcond⟩
  · rintro ⟨rfl, hcond⟩
    exact ⟨_, ⟨rfl, hcond⟩, rfl⟩

omit hx in
theorem covers_reduced {locked : ℤ} (hl : getLockedAmountByAddress ctx st d = .ok locked)
    (h : Covers ctx st w d (delegated (reduced w d v (current - shares)) d)) :
    locked ≤ delegated (reduced w d v (current - shares)) d := by
  obtain ⟨locked', hl', hcover⟩ := h
  rw [hl] at hl'
  cases hl'
  rcases hcover with h0 | ⟨hcover, _⟩
  · rw [h0]
    exact (reduced_priced hw hk hpos hle).delegated_nonneg d
  · exact hcover

end Unbonding

/-- An undelegation of any shares that its hook accepts is carried out; then the
delegator's locks are covered, and nobody else has less delegated than before. -/
theorem accepted_undelegation_sound (c : AddressCodec) (ctx : Ctx) (st : LockStore) (w : State)
    (d : AccAddress) (v : ValAddress) (hw : Valid w)
    (hfew : ∀ d', (delegationsOf w d').length < 100) {current shares : ℚ} {x : Validator}
    (hk : w.delegations.get (toLex (d, v)) = some current) (hx : w.validators.get v = some x)
    (hpos : 0 < shares) (hle : shares ≤ current) (hm : ¬ isRedelegating ctx d v)
    (hhook : (if current - shares = 0 then beforeDelegationRemoved (readers c.exact) ctx st w d v
      else afterDelegationModified (readers c.exact) ctx st
        { w with delegations := w.delegations.set (toLex (d, v)) (current - shares) } d v) =
          .ok ()) :
    ∃ tokens w', unbond c.exact ctx st w d v shares = .ok (tokens, w') ∧
      w'.validators.get v = some { x with
        tokens := x.tokens - (if x.delegatorShares - shares = 0 then x.tokens
          else ⌊shares * x.tokens / x.delegatorShares⌋)
        delegatorShares := x.delegatorShares - shares } ∧
      Backed c.exact ctx st w' d ∧
      ∀ d', d' ≠ d → ∃ before after, getTotalDelegatedAmount (readers c.exact) w d' = .ok before ∧
        getTotalDelegatedAmount (readers c.exact) w' d' = .ok after ∧ before ≤ after := by
  have hred : reduceDelegation c.exact ctx st w d v (current - shares) =
      .ok (reduced w d v (current - shares)) := by
    unfold reduceDelegation reduced
    split_ifs at hhook with h0
    · rw [if_pos h0, hhook, ok_bind, if_pos h0]
    · rw [if_neg h0, if_neg h0]
      dsimp only
      rw [hhook, ok_bind]
  have hcond := ((reduceDelegation_iff hw hk hpos hle _).mp hred).2
  have hcovers := hcond.resolve_left hm
  have ⟨locked, hl, _⟩ := hcovers
  have hvalid := issued_valid hw hk hx hpos hle
  have hgrow := reduced_le_unbonded hw hk hx hpos hle
  have hlen : ∀ d', (delegationsOf (unbonded w d v x current shares (issued x shares)) d').length <
      100 := by
    intro d'
    exact lt_of_le_of_lt (delegationsOf_length_le fun v' hv' => reduced_validators hk hv') (hfew d')
  have htotal := fun d' => (hvalid.priced.getTotalDelegatedAmount_iff c d' _).mpr ⟨rfl, hlen d'⟩
  refine ⟨_, _, (unbond_iff hw hk hx hpos hle _).mpr ⟨rfl, hcond⟩,
    (Store.get_set ..).trans (if_pos rfl), ⟨locked, _, hl, htotal d, ?_⟩, ?_⟩
  · exact (covers_reduced hw hk hpos hle hl hcovers).trans (hgrow d)
  · intro d' hne
    refine ⟨_, _, (hw.priced.getTotalDelegatedAmount_iff c d' _).mpr ⟨rfl, hfew d'⟩, htotal d', ?_⟩
    have hsame := reduced_delegated hk (current - shares) d'
    rw [if_neg hne.symm, add_zero] at hsame
    rw [← hsame]
    exact hgrow d'

/-- Lock 40 of the 100 of `d`, then judge an undelegation of 30 and a half shares. -/
def judgeFraction : Out (LockStore × Unit) := do
  let st ← lock (readers bech32.exact) newYear Store.empty twoValidators
    ⟨accText (ascii "d"), ascii "2026-06-01", tsc 40⟩
  let verdict ← afterDelegationModified (readers bech32.exact) newYear st { twoValidators with
    delegations := twoValidators.delegations.set (toLex (ascii "d", ascii "A")) (100 - 61 / 2) }
    (ascii "d") (ascii "A")
  .ok (st, verdict)

theorem accepted_undelegation_of_fraction :
    ∃ st tokens w', unbond bech32.exact newYear st twoValidators (ascii "d") (ascii "A") (61 / 2) =
      .ok (tokens, w') ∧ Backed bech32.exact newYear st w' (ascii "d") := by
  have h : judgeFraction.isOk = true := by decide +kernel
  obtain ⟨r, hr⟩ := exists_of_isOk h
  simp only [judgeFraction, bind_eq_ok] at hr
  obtain ⟨st, _, u, hhook, _⟩ := hr
  have hfew : ∀ d', (delegationsOf twoValidators d').length < 100 := by
    intro d'
    exact lt_of_le_of_lt (List.length_filter_le _ _) (by decide)
  have hk : twoValidators.delegations.get (toLex (ascii "d", ascii "A")) = some 100 := by
    decide +kernel
  have hx : twoValidators.validators.get (ascii "A") = some ⟨ascii "A", 100, 100⟩ := by
    decide +kernel
  have hpos : (0 : ℚ) < 61 / 2 := by norm_num
  have hle : (61 / 2 : ℚ) ≤ 100 := by norm_num
  have hrest : ¬ (100 - 61 / 2 : ℚ) = 0 := by norm_num
  obtain ⟨tokens, w', hunbond, _, hbacked, _⟩ := accepted_undelegation_sound bech32 newYear st
    twoValidators (ascii "d") (ascii "A") twoValidators_valid hfew hk hx hpos hle (by decide)
    (by rw [if_neg hrest]; exact hhook)
  exact ⟨st, tokens, w', hunbond, hbacked⟩

/-! ### Delegations -/

section Delegating

variable {c : AddressCodec} {ctx : Ctx} {st : LockStore} {w : State} {d : AccAddress}
  {v : ValAddress} {x : Validator} {amt : ℤ} (hw : Valid w) (hx : w.validators.get v = some x)
include hw hx

/-- What `Delegate` asks of the validator before it changes anything. -/
theorem open_iff (hamt : 0 < amt) :
    Open x amt ↔ ¬ (x.tokens = 0 ∧ 0 < x.delegatorShares) := by
  have hT := hw.tokens v x hx
  have hS : 0 ≤ x.delegatorShares := by
    have hsum := hw.shares v
    rw [hx, Option.map_some, Option.getD_some] at hsum
    rw [← hsum]
    exact sharesOf_nonneg hw.positive v
  constructor
  · intro ho hzero
    rcases ho.kind with ⟨h0, _⟩ | ⟨_, hpos⟩
    · exact absurd h0 (ne_of_gt hzero.2)
    · exact absurd hzero.1 (ne_of_gt hpos)
  · intro hrate
    refine ⟨hamt, hT, ?_⟩
    rcases lt_or_eq_of_le hS with hpos | hzero
    · refine Or.inr ⟨hpos, ?_⟩
      by_contra hle
      exact hrate ⟨by omega, hpos⟩
    · exact Or.inl ⟨hzero.symm, hw.unshared v x hx hzero.symm⟩

end Delegating
end Tsc.Staking
