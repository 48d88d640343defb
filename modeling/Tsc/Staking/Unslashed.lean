import Tsc.Staking.Tx

/-!
# Without slashing nothing is rounded

A validator that was never slashed has as many shares as tokens. At that rate the share
arithmetic of any platform agrees with exact rationals wherever it returns. So on a state
without slashed validators whatever a platform carries out, exact rationals carry out with
the same result, and the state stays without slashed validators. The other direction is not
needed: a platform may also overflow.
-/

namespace Tsc.Staking

open Go Sdk Kv Lockup

/-- The platform with the same texts and without rounding. -/
abbrev Platform.exact (p : Platform) : Platform := p.toAddressCodec.exact

/-- Every validator has as many shares as tokens, and every record a decimal number of
them. -/
structure Unslashed (w : State) : Prop where
  rate : ∀ v x, w.validators.get v = some x → x.delegatorShares = x.tokens
  decimal : ∀ key s, w.delegations.get key = some s → Dec.Exact s

/-! ### A rate of one -/

section AtOne

variable {p : Platform} {x : Validator} {shares : ℚ} {amt : ℤ} (hx : AtOne x)
include hx

theorem AtOne.exactTokens_eq (shares : ℚ) : exactTokens x shares = .ok shares := by
  unfold exactTokens
  rw [if_neg hx.shares_ne_zero, hx.worth]

theorem AtOne.exactPrice_eq (amt : ℤ) : exactPrice x amt = .ok (amt : ℚ) := by
  unfold exactPrice
  rw [if_neg (ne_of_gt hx.pos), hx.price]

theorem tokensFromShares_exact (hs : Dec.Exact shares) {value : ℚ}
    (h : p.tokensFromShares x shares = .ok value) :
    p.exact.tokensFromShares x shares = .ok value := by
  rw [p.tokens_atOne x shares value hx hs h]
  exact hx.exactTokens_eq shares

theorem ceilTokens_exact (hs : Dec.Exact shares) {n : ℤ}
    (h : ceilTokens (readers p) x shares = .ok n) :
    ceilTokens (readers p.exact) x shares = .ok n := by
  simp only [ceilTokens, bind_eq_ok] at h ⊢
  obtain ⟨value, hvalue, hn⟩ := h
  exact ⟨value, tokensFromShares_exact hx hs hvalue, hn⟩

theorem removeTokensAndShares_exact (hs : Dec.Exact shares) {r : ℤ × Validator}
    (h : removeTokensAndShares p x shares = .ok r) :
    removeTokensAndShares p.exact x shares = .ok r := by
  unfold removeTokensAndShares at h ⊢
  dsimp only at h ⊢
  split_ifs at h ⊢ with h0
  · exact h
  · obtain ⟨value, hvalue, hr⟩ := (bind_eq_ok _ _ _).mp h
    rw [tokensFromShares_exact hx hs hvalue, ok_bind]
    exact hr

theorem sharesFromTokens_exact {s : ℚ} (h : p.sharesFromTokens x amt = .ok s) :
    s = amt ∧ p.exact.sharesFromTokens x amt = .ok s := by
  rw [p.shares_atOne x amt s hx h]
  exact ⟨rfl, hx.exactPrice_eq amt⟩

theorem sharesFromTokensTruncated_exact {s : ℚ} (h : p.sharesFromTokensTruncated x amt = .ok s) :
    s = amt ∧ p.exact.sharesFromTokensTruncated x amt = .ok s := by
  rw [p.truncated_atOne x amt s hx h]
  exact ⟨rfl, hx.exactPrice_eq amt⟩

end AtOne

/-! ### What the hooks read -/

section Reads

variable {p : Platform} {ctx : Ctx} {st : LockStore} {w : State} {d : AccAddress} {v : ValAddress}
  (hw : Priced w) (hu : Unslashed w)
include hw hu

theorem Unslashed.atOne {key : AccAddress ×ₗ ValAddress} {s : ℚ} {x : Validator}
    (hk : w.delegations.get key = some s) (hx : w.validators.get (ofLex key).2 = some x) :
    AtOne x := by
  obtain ⟨hpos, hle⟩ := hw.record_of hk hx
  have hrate := hu.rate _ x hx
  rw [hrate] at hle
  exact ⟨by exact_mod_cast lt_of_lt_of_le hpos hle, hrate⟩

theorem Unslashed.rate_eq_one {key : AccAddress ×ₗ ValAddress} {s : ℚ}
    (hk : w.delegations.get key = some s) : Staking.rate w (ofLex key).2 = 1 := by
  obtain ⟨_, x, hx, _⟩ := hw.record key s hk
  have hone := hu.atOne hw hk hx
  rw [rate_some hx, ← hone.shares]
  exact div_self hone.shares_ne_zero

theorem getTotalDelegatedAmount_exact {total : ℤ}
    (h : getTotalDelegatedAmount (readers p) w d = .ok total) :
    getTotalDelegatedAmount (readers p.exact) w d = .ok total := by
  simp only [getTotalDelegatedAmount, bind_eq_ok] at h ⊢
  obtain ⟨ds, hds, t, hloop, hend⟩ := h
  refine ⟨ds, hds, t, (forRange_follows (fun _ => True) ?_ trivial hloop).1, hend⟩
  intro delegation hmem u u' _ hstep
  cases hds
  obtain ⟨e, he, rfl⟩ := List.mem_map.mp hmem
  obtain ⟨hk, _⟩ := mem_delegationsOf (List.mem_of_mem_take he)
  simp only [addDelegation, bind_eq_ok, wrapErr_eq_ok] at hstep ⊢
  obtain ⟨v, hv, x, hx, tokens, htokens, hadd⟩ := hstep
  cases (p.val_valText (ofLex e.1).2).symm.trans hv
  have hone := hu.atOne hw hk ((ofOption_eq_ok _ _ _).mp hx)
  exact ⟨⟨_, hv, x, hx, tokens, ceilTokens_exact hone (hu.decimal _ _ hk) htokens, hadd⟩, trivial⟩

theorem getDelegationAmount_exact {amount : ℤ}
    (h : getDelegationAmount (readers p) w d v = .ok amount) :
    getDelegationAmount (readers p.exact) w d v = .ok amount := by
  simp only [getDelegationAmount, readers, getShares] at h ⊢
  cases hk : w.delegations.get (toLex (d, v)) with
  | none =>
    rw [hk] at h
    exact h
  | some s =>
    simp only [hk, ofOption, ok_bind, bind_eq_ok] at h ⊢
    obtain ⟨x, hx, hceil⟩ := h
    have hone := hu.atOne hw hk ((ofOption_eq_ok _ _ _).mp hx)
    exact ⟨x, hx, ceilTokens_exact (p := p) hone (hu.decimal _ _ hk) hceil⟩

theorem afterDelegationModified_exact
    (h : afterDelegationModified (readers p) ctx st w d v = .ok ()) :
    afterDelegationModified (readers p.exact) ctx st w d v = .ok () := by
  rw [afterDelegationModified_reads] at h ⊢
  rcases h with hm | ⟨locked, hl, h0 | ⟨total, ht, hle⟩⟩
  · exact Or.inl hm
  · exact Or.inr ⟨locked, hl, Or.inl h0⟩
  · exact Or.inr ⟨locked, hl, Or.inr ⟨total, getTotalDelegatedAmount_exact hw hu ht, hle⟩⟩

theorem beforeDelegationRemoved_exact
    (h : beforeDelegationRemoved (readers p) ctx st w d v = .ok ()) :
    beforeDelegationRemoved (readers p.exact) ctx st w d v = .ok () := by
  rw [beforeDelegationRemoved_reads] at h ⊢
  rcases h with hm | ⟨locked, hl, h0 | ⟨total, ht, amount, ha, hle⟩⟩
  · exact Or.inl hm
  · exact Or.inr ⟨locked, hl, Or.inl h0⟩
  · exact Or.inr ⟨locked, hl, Or.inr ⟨total, getTotalDelegatedAmount_exact hw hu ht, amount,
      getDelegationAmount_exact hw hu ha, hle⟩⟩

/-- Below the limit of the arithmetic everything can be read. -/
theorem Unslashed.delegates (hlimit : w.pool < p.limit) (d : AccAddress) :
    Delegates (readers p) w d ((delegationsOf w d).map fun e =>
      (⟨p.valText (ofLex e.1).2, e.2⟩, ⌈e.2 * Staking.rate w (ofLex e.1).2⌉)) := by
  refine delegates_records (fun key s => ⌈s * Staking.rate w (ofLex key).2⌉) ?_
    (lt_of_eq_of_lt (delegationsOf_sum w d) (hw.delegated_lt d))
  intro e he
  obtain ⟨hk, _⟩ := mem_delegationsOf he
  obtain ⟨hpos, x, hx, hle⟩ := hw.record e.1 e.2 hk
  have hone := hu.atOne hw hk hx
  have htokens : x.tokens < p.limit := by
    have hpart := Store.le_total (g := fun (_ : ValAddress) (y : Validator) => y.tokens) hw.tokens hx
    exact lt_of_le_of_lt (hpart.trans hw.pool.1) hlimit
  have hdec := hu.decimal _ _ hk
  obtain ⟨value, hvalue⟩ := p.tokens_return x e.2 hone htokens hdec hpos.le hle
  rw [p.tokens_atOne x e.2 value hone hdec hvalue] at hvalue
  refine ⟨(ofLex e.1).2, x, e.2, p.val_valText _, (ofOption_eq_ok _ _ _).mpr hx, hvalue, hpos.le, ?_⟩
  rw [hu.rate_eq_one hw hk, mul_one]

theorem Unslashed.getTotalDelegatedAmount_iff (hlimit : w.pool < p.limit) (d : AccAddress) (D : ℤ) :
    getTotalDelegatedAmount (readers p) w d = .ok D ↔
      D = delegated w d ∧ (delegationsOf w d).length < 100 := by
  rw [(hu.delegates hw hlimit d).getTotalDelegatedAmount_iff, List.map_map, List.length_map,
    ← delegationsOf_sum]
  rfl

end Reads

/-! ### Moving tokens -/

section Keeper

variable {p : Platform} {ctx : Ctx} {st : LockStore} {w w' : State} {d : AccAddress}
  {v : ValAddress} {amt : ℤ}

theorem reduced_unslashed (hu : Unslashed w) {rest : ℚ} (hrest : Dec.Exact rest) :
    Unslashed (reduced w d v rest) := by
  refine ⟨hu.rate, ?_⟩
  intro key s hs
  rw [reduced_get] at hs
  split_ifs at hs
  · cases hs
    exact hrest
  · exact hu.decimal key s hs

theorem unbonded_unslashed (hu : Unslashed w) {x : Validator} {current : ℚ}
    (hx : w.validators.get v = some x) (hcurrent : Dec.Exact current) :
    Unslashed (unbonded w d v x current amt amt) := by
  have hred := reduced_unslashed (d := d) (v := v) hu (hcurrent.sub (Dec.exact_intCast amt))
  refine ⟨Store.forall_get_set ?_ hu.rate, hred.decimal⟩
  dsimp only
  rw [hu.rate v x hx]
  push_cast
  rfl

theorem addShares_unslashed (hu : Unslashed w) {x : Validator} (hx : w.validators.get v = some x) :
    Unslashed (addShares w d v x amt amt) := by
  refine ⟨Store.forall_get_set ?_ hu.rate, Store.forall_get_set ?_ hu.decimal⟩
  · dsimp only
    rw [hu.rate v x hx]
    push_cast
    rfl
  · refine Dec.Exact.add ?_ (Dec.exact_intCast amt)
    cases hk : w.delegations.get (toLex (d, v)) with
    | none => exact Dec.exact_intCast 0
    | some s => exact hu.decimal _ _ hk

variable (hw : Valid w) (hu : Unslashed w)
include hw hu

theorem reduceDelegation_exact {current shares : ℚ} {w₁ : State}
    (hk : w.delegations.get (toLex (d, v)) = some current) (hpos : 0 < shares)
    (hle : shares ≤ current) (hs : Dec.Exact shares)
    (h : reduceDelegation p ctx st w d v (current - shares) = .ok w₁) :
    reduceDelegation p.exact ctx st w d v (current - shares) = .ok w₁ := by
  unfold reduceDelegation at h ⊢
  by_cases h0 : current - shares = 0
  · rw [if_pos h0, bind_eq_ok] at h ⊢
    obtain ⟨_, hhook, heq⟩ := h
    exact ⟨(), beforeDelegationRemoved_exact hw.priced hu hhook, heq⟩
  · have hpriced := reduced_priced hw hk hpos hle
    have hred : Unslashed (reduced w d v (current - shares)) :=
      reduced_unslashed hu ((hu.decimal _ _ hk).sub hs)
    unfold reduced at hpriced hred
    rw [if_neg h0] at hpriced hred
    rw [if_neg h0, bind_eq_ok] at h ⊢
    obtain ⟨_, hhook, heq⟩ := h
    exact ⟨(), afterDelegationModified_exact hpriced hred hhook, heq⟩

theorem validateUnbondAmount_exact {shares : ℚ}
    (h : validateUnbondAmount p w d v amt = .ok shares) :
    validateUnbondAmount p.exact w d v amt = .ok shares ∧ shares = amt := by
  simp only [validateUnbondAmount, getValidator, getShares, bind_eq_ok, ofOption_eq_ok,
    failIf_eq_ok, not_lt] at h ⊢
  obtain ⟨x, hx, current, hk, s, hs, t, ht, _, hle, heq⟩ := h
  have hone := hu.atOne hw.priced hk hx
  obtain ⟨rfl, hs'⟩ := sharesFromTokens_exact hone hs
  obtain ⟨rfl, ht'⟩ := sharesFromTokensTruncated_exact hone ht
  refine ⟨⟨x, hx, current, hk, _, hs', _, ht', (), hle, heq⟩, ?_⟩
  rw [if_neg (not_lt.mpr hle)] at heq
  exact (Except.ok.inj heq).symm

/-- The shares of a whole number of tokens. -/
theorem unbond_exact {r : ℤ × State} (hamt : 0 < amt)
    (h : unbond p ctx st w d v amt = .ok r) :
    unbond p.exact ctx st w d v amt = .ok r := by
  simp only [unbond, getShares, getValidator, bind_eq_ok, ofOption_eq_ok, failIf_eq_ok,
    not_lt] at h ⊢
  obtain ⟨current, hk, _, hle, x, hx, w₁, hred, r', hrem, heq⟩ := h
  have hone := hu.atOne hw.priced hk hx
  have hpos : (0 : ℚ) < amt := by exact_mod_cast hamt
  have hdec := Dec.exact_intCast amt
  exact ⟨current, hk, (), hle, x, hx, w₁, reduceDelegation_exact hw hu hk hpos hle hdec hred, r',
    removeTokensAndShares_exact hone hdec hrem, heq⟩

theorem unbond_unslashed {c : AddressCodec} {shares : ℚ} {r : ℤ × State} (hamt : 0 < amt)
    (hs : validateUnbondAmount c.exact w d v amt = .ok shares) (heq : shares = amt)
    (h : unbond c.exact ctx st w d v shares = .ok r) : Unslashed r.2 := by
  obtain ⟨x, current, hx, hk, hp, hle⟩ := validateUnbondAmount_ok hw hamt hs
  obtain ⟨hr, _⟩ := (unbond_iff hw hk hx hp.pos hle r).mp h
  rw [hp.issued_eq, heq] at hr
  rw [hr]
  exact unbonded_unslashed hu hx (hu.decimal _ _ hk)

theorem storeDelegation_exact (h : storeDelegation p w d v amt = .ok w') :
    storeDelegation p.exact w d v amt = .ok w' ∧ Unslashed w' := by
  simp only [storeDelegation, getValidator, bind_eq_ok, ofOption_eq_ok] at h ⊢
  obtain ⟨x, hx, _, hcheck, shares, hnew, heq⟩ := h
  have hexact : newShares p.exact x amt = .ok shares ∧ shares = amt := by
    unfold newShares at hnew ⊢
    split_ifs at hnew ⊢ with h0
    · exact ⟨hnew, (Except.ok.inj hnew).symm⟩
    · have hnn := hw.tokens v x hx
      have hrate := hu.rate v x hx
      have hne : x.tokens ≠ 0 := by
        intro hzero
        rw [hzero, Int.cast_zero] at hrate
        exact h0 hrate
      have hone : AtOne x := ⟨by omega, hrate⟩
      obtain ⟨rfl, hs⟩ := sharesFromTokens_exact hone hnew
      exact ⟨hs, rfl⟩
  obtain ⟨hnew', rfl⟩ := hexact
  cases heq
  exact ⟨⟨x, hx, (), hcheck, _, hnew', rfl⟩, addShares_unslashed hu hx⟩

theorem delegate_exact (hamt : 0 < amt) (hpool : tokenTotal w + amt ≤ w.pool)
    (h : delegate p ctx st w d v amt = .ok w') :
    delegate p.exact ctx st w d v amt = .ok w' ∧ Unslashed w' := by
  simp only [delegate, bind_eq_ok] at h ⊢
  obtain ⟨w₁, hstore, _, hhook, heq⟩ := h
  obtain ⟨hstore', hu'⟩ := storeDelegation_exact hw hu hstore
  have hvalid := (storeDelegation_ok hw hamt hpool hstore').valid
  cases heq
  exact ⟨⟨_, hstore', (), afterDelegationModified_exact hvalid.priced hu' hhook, rfl⟩, hu'⟩

/-! ### Messages -/

omit hw in
theorem payPool_unslashed (h : payPool w d amt = .ok w') : Unslashed w' := by
  simp only [payPool, bind_eq_ok] at h
  obtain ⟨_, _, _, _, heq⟩ := h
  cases heq
  exact ⟨hu.rate, hu.decimal⟩

theorem handleDelegate_exact (hamt : 0 < amt)
    (h : handleDelegate p ctx st w d v amt = .ok w') :
    handleDelegate p.exact ctx st w d v amt = .ok w' ∧ Unslashed w' := by
  simp only [handleDelegate, bind_eq_ok] at h ⊢
  obtain ⟨w₁, hpay, hdel⟩ := h
  obtain ⟨hv, _, _, hpool, _⟩ := payPool_ok hw hamt hpay
  obtain ⟨hdel', hu'⟩ := delegate_exact hv (payPool_unslashed hu hpay) hamt hpool hdel
  exact ⟨⟨w₁, hpay, hdel'⟩, hu'⟩

theorem handleUndelegate_exact (hamt : 0 < amt)
    (h : handleUndelegate p ctx st w d v amt = .ok w') :
    handleUndelegate p.exact ctx st w d v amt = .ok w' ∧ Unslashed w' := by
  simp only [handleUndelegate, bind_eq_ok] at h ⊢
  obtain ⟨shares, hs, r, hunbond, heq⟩ := h
  obtain ⟨hs', rfl⟩ := validateUnbondAmount_exact hw hu hs
  have hunbond' := unbond_exact hw hu hamt hunbond
  have hu' := unbond_unslashed hw hu hamt hs' rfl hunbond'
  cases heq
  exact ⟨⟨_, hs', r, hunbond', rfl⟩, hu'⟩

theorem handleBeginRedelegate_exact {src dst : ValAddress} (hamt : 0 < amt)
    (h : handleBeginRedelegate p ctx st w d src dst amt = .ok w') :
    handleBeginRedelegate p.exact ctx st w d src dst amt = .ok w' ∧ Unslashed w' := by
  simp only [handleBeginRedelegate, bind_eq_ok] at h ⊢
  obtain ⟨shares, hs, _, hne, y, hy, r, hunbond, _, hsome, hdel⟩ := h
  obtain ⟨hs', rfl⟩ := validateUnbondAmount_exact hw hu hs
  have hunbond' := unbond_exact hw hu hamt hunbond
  have hu₁ := unbond_unslashed hw hu hamt hs' rfl hunbond'
  obtain ⟨x, current, hx, hk, hp, hle⟩ := validateUnbondAmount_ok hw hamt hs'
  obtain ⟨hissued, hout, _⟩ := unbond_ok hw hx hk hp hle hunbond'
  have hpool : tokenTotal r.2 + r.1 ≤ r.2.pool := by
    have hold := hw.pool
    rw [hissued, hout.tokens, hout.pool]
    omega
  have hpos : 0 < r.1 := by
    rw [hissued]
    exact hamt
  obtain ⟨hdel', hu'⟩ := delegate_exact hout.valid hu₁ hpos hpool hdel
  exact ⟨⟨_, hs', (), hne, y, hy, r, hunbond', (), hsome, hdel'⟩, hu'⟩

theorem handle_exact {msg : Msg} (h : handle p ctx st w msg = .ok w') :
    handle p.exact ctx st w msg = .ok w' ∧ Unslashed w' := by
  cases msg with
  | delegate delegator validator amount =>
    simp only [handle, checkCoin, bind_eq_ok, failIf_eq_ok, not_not] at h ⊢
    obtain ⟨v, hv, d, hd, _, ⟨_, hpos, hdenom⟩, hh⟩ := h
    obtain ⟨hh', hu'⟩ := handleDelegate_exact hw hu hpos hh
    exact ⟨⟨v, hv, d, hd, (), ⟨(), hpos, hdenom⟩, hh'⟩, hu'⟩
  | undelegate delegator validator amount =>
    simp only [handle, checkCoin, bind_eq_ok, failIf_eq_ok, not_not] at h ⊢
    obtain ⟨v, hv, d, hd, _, ⟨_, hpos, hdenom⟩, hh⟩ := h
    obtain ⟨hh', hu'⟩ := handleUndelegate_exact hw hu hpos hh
    exact ⟨⟨v, hv, d, hd, (), ⟨(), hpos, hdenom⟩, hh'⟩, hu'⟩
  | beginRedelegate delegator validatorSrc validatorDst amount =>
    simp only [handle, checkCoin, bind_eq_ok, failIf_eq_ok, not_not] at h ⊢
    obtain ⟨src, hsrc, d, hd, dst, hdst, _, ⟨_, hpos, hdenom⟩, hh⟩ := h
    obtain ⟨hh', hu'⟩ := handleBeginRedelegate_exact hw hu hpos hh
    exact ⟨⟨src, hsrc, d, hd, dst, hdst, (), ⟨(), hpos, hdenom⟩, hh'⟩, hu'⟩

end Keeper

def redelegateOne : Msg :=
  .beginRedelegate (accText (ascii "d")) (valText (ascii "A")) (valText (ascii "B")) (tsc 1)

theorem twoValidators_unslashed : Unslashed twoValidators := by
  refine ⟨?_, ?_⟩
  · intro v x hx
    rcases twoValidators_validators v x hx with ⟨ht, hs⟩ | ⟨ht, hs⟩
    · rw [ht, hs]
      norm_num
    · rw [ht, hs]
      norm_num
  · intro key s hk
    rcases twoValidators_delegations key s hk with rfl | rfl
    · exact Dec.exact_intCast 100
    · exact Dec.exact_intCast 50

end Tsc.Staking
