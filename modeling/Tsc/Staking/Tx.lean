import Tsc.Staking.Hooks
import Tsc.Lockup.Runs

/-!
# Transactions under the lockup hooks

`RedelegationMarkerDecorator` marks the pair (delegator, source validator) of
every redelegation of a transaction, and the marks last for the whole
transaction. On a marked pair the hooks check nothing. A redelegation does not
need them, since it changes nobody's delegated amount; an undelegation does. All of it
here with shares of exact rationals.
-/

namespace Tsc.Staking

open Go Sdk Kv Lockup

section Messages

variable {c : AddressCodec} {ctx : Ctx} {st : LockStore} {w w' : State} {d : AccAddress} {amt : ℤ}

theorem validateUnbondAmount_ok {v : ValAddress} {shares : ℚ} (hw : Valid w) (hamt : 0 < amt)
    (h : validateUnbondAmount c.exact w d v amt = .ok shares) :
    ∃ x current, w.validators.get v = some x ∧
      w.delegations.get (toLex (d, v)) = some current ∧ Priceable x amt shares ∧
      shares ≤ current := by
  simp only [validateUnbondAmount, getValidator, getShares, bind_eq_ok, ofOption_eq_ok,
    failIf_eq_ok, not_lt] at h
  obtain ⟨x, hx, current, hk, s, hs, t, ht, _, hle, heq⟩ := h
  -- without rounding the truncated shares are the shares
  cases hs.symm.trans ht
  rw [if_neg (not_lt.mpr hle)] at heq
  cases heq
  have hs' : exactPrice x amt = .ok shares := hs
  unfold exactPrice at hs'
  split_ifs at hs' with hT
  cases hs'
  obtain ⟨hpos, hc⟩ := hw.priced.record_of hk hx
  have hnn := hw.tokens v x hx
  exact ⟨x, current, hx, hk, ⟨lt_of_lt_of_le hpos hc, by omega, hamt, rfl⟩, hle⟩

/-- Unbonding the shares of `amt` tokens; off the marked pairs what is left covers
the locks. -/
theorem unbond_ok {v : ValAddress} {shares current : ℚ} {x : Validator} {r : ℤ × State}
    (hw : Valid w) (hx : w.validators.get v = some x)
    (hk : w.delegations.get (toLex (d, v)) = some current) (hp : Priceable x amt shares)
    (hle : shares ≤ current) (h : unbond c.exact ctx st w d v shares = .ok r) :
    r.1 = amt ∧ Moves w r.2 d v (-amt) ∧ (¬ isRedelegating ctx d v →
      ∀ locked, getLockedAmountByAddress ctx st d = .ok locked → locked ≤ delegated r.2 d) := by
  obtain ⟨hr, hcond⟩ := (unbond_iff hw hk hx hp.pos hle r).mp h
  have hgrow := reduced_le_unbonded hw hk hx hp.pos hle d
  rw [hp.issued_eq] at hr hgrow
  subst hr
  refine ⟨rfl, unbonded_moves hw hk hx hp hle, ?_⟩
  intro hm locked hl
  exact (covers_reduced hw hk hp.pos hle hl (hcond.resolve_left hm)).trans hgrow

theorem storeDelegation_ok {v : ValAddress} (hw : Valid w) (hamt : 0 < amt)
    (hpool : tokenTotal w + amt ≤ w.pool) (h : storeDelegation c.exact w d v amt = .ok w') :
    Moves w w' d v amt := by
  simp only [storeDelegation, getValidator, bind_eq_ok, ofOption_eq_ok, failIf_eq_ok] at h
  obtain ⟨x, hx, _, hrate, shares, hshares, heq⟩ := h
  have ho := (open_iff hw hx hamt).mpr hrate
  rw [ho.newShares_eq] at hshares
  cases hshares
  cases heq
  exact addDelegated_moves hw hx ho hpool

theorem delegate_ok {v : ValAddress} (hw : Valid w) (hamt : 0 < amt)
    (hpool : tokenTotal w + amt ≤ w.pool) (h : delegate c.exact ctx st w d v amt = .ok w') :
    Moves w w' d v amt := by
  simp only [delegate, bind_eq_ok] at h
  obtain ⟨w₁, hstore, _, _, heq⟩ := h
  cases heq
  exact storeDelegation_ok hw hamt hpool hstore

theorem payPool_ok (hw : Valid w) (hamt : 0 < amt) (h : payPool w d amt = .ok w') :
    Valid w' ∧ (∀ d', delegated w' d' = delegated w d') ∧
      (∀ d', validatorsOf w' d' = validatorsOf w d') ∧ tokenTotal w' + amt ≤ w'.pool ∧
      w'.pool = w.pool + amt := by
  simp only [payPool, bind_eq_ok, intAdd_eq_ok] at h
  obtain ⟨_, _, pool, ⟨hr, hpool⟩, heq⟩ := h
  cases heq
  have hold := hw.pool
  have htok : tokenTotal w + amt ≤ pool := by omega
  refine ⟨⟨hw.positive, hw.shares, hw.tokens, hw.unshared, ?_, ?_⟩, fun d' => rfl, fun d' => rfl,
    htok, hpool⟩
  · show tokenTotal w ≤ pool
    omega
  · show pool < intBound
    rw [hpool]
    exact hr.2

theorem handleDelegate_ok {v : ValAddress} (hw : Valid w) (hamt : 0 < amt)
    (h : handleDelegate c.exact ctx st w d v amt = .ok w') :
    Valid w' ∧ (∀ d', delegated w' d' = delegated w d' + if d = d' then amt else 0) ∧
      (∀ d' v', v' ∈ validatorsOf w' d' → v' ∈ validatorsOf w d' ∨ d = d' ∧ v = v') ∧
      w'.pool = w.pool + amt := by
  obtain ⟨w₁, hpay, hdel⟩ := (bind_eq_ok _ _ _).mp h
  obtain ⟨hv, hsame, hvals, hpool, hpaid⟩ := payPool_ok hw hamt hpay
  have hmoves := delegate_ok hv hamt hpool hdel
  refine ⟨hmoves.valid, ?_, ?_, hmoves.pool.trans hpaid⟩
  · intro d'
    rw [hmoves.amounts d', hsame d']
  · intro d' v' hv'
    rw [← hvals d']
    exact hmoves.validators hv'

theorem handleUndelegate_ok {v : ValAddress} (hw : Valid w) (hamt : 0 < amt)
    (h : handleUndelegate c.exact ctx st w d v amt = .ok w') :
    v ∈ validatorsOf w d ∧ Moves w w' d v (-amt) ∧ (¬ isRedelegating ctx d v →
      ∀ locked, getLockedAmountByAddress ctx st d = .ok locked → locked ≤ delegated w' d) := by
  simp only [handleUndelegate, bind_eq_ok] at h
  obtain ⟨shares, hs, r, hu, heq⟩ := h
  cases heq
  obtain ⟨x, current, hx, hk, hp, hle⟩ := validateUnbondAmount_ok hw hamt hs
  obtain ⟨_, hmoves, hcheck⟩ := unbond_ok hw hx hk hp hle hu
  exact ⟨(mem_validatorsOf w d v).mpr ⟨current, hk⟩, hmoves, hcheck⟩

/-- A redelegation leaves everyone's delegated amount as it was, whatever the marks. -/
theorem handleBeginRedelegate_ok {src dst : ValAddress} (hw : Valid w) (hamt : 0 < amt)
    (h : handleBeginRedelegate c.exact ctx st w d src dst amt = .ok w') :
    Valid w' ∧ (∀ d', delegated w' d' = delegated w d') ∧
      (∀ d' v', v' ∈ validatorsOf w' d' → v' ∈ validatorsOf w d' ∨ d = d' ∧ dst = v') ∧
      w'.pool = w.pool := by
  simp only [handleBeginRedelegate, bind_eq_ok] at h
  obtain ⟨shares, hs, _, _, _, _, r, hu, _, _, hdel⟩ := h
  obtain ⟨x, current, hx, hk, hp, hle⟩ := validateUnbondAmount_ok hw hamt hs
  obtain ⟨hissued, hout, _⟩ := unbond_ok hw hx hk hp hle hu
  rw [hissued] at hdel
  have hpool : tokenTotal r.2 + amt ≤ r.2.pool := by
    have hold := hw.pool
    rw [hout.tokens, hout.pool]
    omega
  have hin := delegate_ok hout.valid hamt hpool hdel
  refine ⟨hin.valid, ?_, ?_, hin.pool.trans hout.pool⟩
  · intro d'
    rw [hin.amounts d', hout.amounts d']
    split_ifs <;> ring
  · intro d' v' hv'
    rcases hin.validators hv' with hold | hnew
    · rcases hout.validators hold with hold | ⟨rfl, rfl⟩
      · exact Or.inl hold
      · exact Or.inl ((mem_validatorsOf w d src).mpr ⟨current, hk⟩)
    · exact Or.inr hnew

end Messages

/-! ### What a transaction asks for

All of it is read off the messages, before any of them runs. -/

section Requests

variable (c : AddressCodec) (ctx : Ctx) (d : AccAddress)

/-- What a message adds to the amount `d` has delegated. -/
def netOf : Msg → ℤ
  | .delegate delegator _ amount => if c.acc delegator = .ok d then amount.amount else 0
  | .undelegate delegator _ amount => if c.acc delegator = .ok d then -amount.amount else 0
  | .beginRedelegate _ _ _ _ => 0

/-- What a message pays into the pools. -/
def paidOf : Msg → ℤ
  | .delegate _ _ amount => amount.amount
  | _ => 0

def targetOf : Msg → Option ValAddress
  | .delegate delegator validator _ =>
    if c.acc delegator = .ok d then (c.val validator).toOption else none
  | .undelegate _ _ _ => none
  | .beginRedelegate delegator _ validatorDst _ =>
    if c.acc delegator = .ok d then (c.val validatorDst).toOption else none

end Requests

section Transactions

variable {c : AddressCodec} {ctx ctx' : Ctx} {st : LockStore} {w w' : State}

theorem anteHandle_blockTime {msgs : List Msg} (h : anteHandle c ctx msgs = .ok ctx') :
    ctx'.blockTime = ctx.blockTime := by
  apply forRange_invariant (fun u : Ctx => u.blockTime = ctx.blockTime) _ rfl h
  intro msg _ u u' hu hstep
  cases msg with
  | delegate _ _ _ =>
    cases hstep
    exact hu
  | undelegate _ _ _ =>
    cases hstep
    exact hu
  | beginRedelegate _ _ _ _ =>
    simp only [markRedelegation, bind_eq_ok] at hstep
    obtain ⟨_, _, _, _, heq⟩ := hstep
    cases heq
    exact hu

theorem getLockedAmountByAddress_congr (h : ctx'.blockTime = ctx.blockTime)
    (st : LockStore) (a : AccAddress) :
    getLockedAmountByAddress ctx' st a = getLockedAmountByAddress ctx st a := by
  unfold getLockedAmountByAddress Ctx.blockDay
  rw [h]

structure Handles (c : AddressCodec) (ctx : Ctx) (st : LockStore) (w w' : State) (msg : Msg) :
    Prop where
  valid : Valid w'
  net : ∀ d, delegated w' d = delegated w d + netOf c d msg
  validators : ∀ d v, v ∈ validatorsOf w' d → v ∈ validatorsOf w d ∨ targetOf c d msg = some v
  pool : w'.pool = w.pool + paidOf msg
  /-- Only an undelegation from a marked pair escapes the hooks. -/
  covers : ∀ d locked, (∀ delegator validator amount v,
      msg = .undelegate delegator validator amount → c.acc delegator = .ok d →
        c.val validator = .ok v → ¬ isRedelegating ctx d v) →
    getLockedAmountByAddress ctx st d = .ok locked → locked ≤ delegated w d →
      locked ≤ delegated w' d

theorem handle_ok {msg : Msg} (hw : Valid w) (h : handle c.exact ctx st w msg = .ok w') :
    Handles c ctx st w w' msg := by
  cases msg with
  | delegate delegator validator amount =>
    simp only [handle, AddressCodec.exact_codec, checkCoin, bind_eq_ok, failIf_eq_ok, not_not] at h
    obtain ⟨v, hv, d, hd, _, ⟨_, hpos, _⟩, hh⟩ := h
    obtain ⟨hvalid, hamounts, hvals, hpool⟩ := handleDelegate_ok hw hpos hh
    refine ⟨hvalid, ?_, ?_, hpool, ?_⟩
    · intro d'
      simp only [netOf, hd, Except.ok.injEq]
      exact hamounts d'
    · intro d' v' hv'
      rcases hvals d' v' hv' with hold | ⟨rfl, rfl⟩
      · exact Or.inl hold
      · simp [targetOf, hd, hv, Except.toOption]
    · intro d' locked _ _ hle
      rw [hamounts d']
      split_ifs <;> omega
  | undelegate delegator validator amount =>
    simp only [handle, AddressCodec.exact_codec, checkCoin, bind_eq_ok, failIf_eq_ok, not_not] at h
    obtain ⟨v, hv, d, hd, _, ⟨_, hpos, _⟩, hh⟩ := h
    obtain ⟨hmem, hmoves, hcheck⟩ := handleUndelegate_ok hw hpos hh
    refine ⟨hmoves.valid, ?_, ?_, hmoves.pool.trans (add_zero _).symm, ?_⟩
    · intro d'
      simp only [netOf, hd, Except.ok.injEq]
      exact hmoves.amounts d'
    · intro d' v' hv'
      rcases hmoves.validators hv' with hold | ⟨rfl, rfl⟩
      · exact Or.inl hold
      · exact Or.inl hmem
    · intro d' locked hm hl hle
      by_cases hdd : d = d'
      · subst hdd
        exact hcheck (hm _ _ _ v rfl hd hv) locked hl
      · rw [hmoves.amounts d', if_neg hdd, add_zero]
        exact hle
  | beginRedelegate delegator validatorSrc validatorDst amount =>
    simp only [handle, AddressCodec.exact_codec, checkCoin, bind_eq_ok, failIf_eq_ok, not_not] at h
    obtain ⟨src, _, d, hd, dst, hdst, _, ⟨_, hpos, _⟩, hh⟩ := h
    obtain ⟨hvalid, hsame, hvals, hpool⟩ := handleBeginRedelegate_ok hw hpos hh
    refine ⟨hvalid, ?_, ?_, hpool.trans (add_zero _).symm, ?_⟩
    · intro d'
      rw [hsame d', netOf, add_zero]
    · intro d' v' hv'
      rcases hvals d' v' hv' with hold | ⟨rfl, rfl⟩
      · exact Or.inl hold
      · simp [targetOf, hd, hdst, Except.toOption]
    · intro d' locked _ _ hle
      rw [hsame d']
      exact hle

/-! ### Whole transactions -/

variable {msgs : List Msg} (hw : Valid w)
  (hloop : forRange (fun w msg => handle c.exact ctx st w msg) w msgs = .ok w')
include hw hloop

end Transactions

end Tsc.Staking
