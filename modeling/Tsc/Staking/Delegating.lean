import Tsc.Staking.Tx

/-!
# New delegations under the lockup hooks

`AfterDelegationModified` runs after a delegation as it does after an
undelegation, and looks only at the resulting total. A delegator whose total a
slash has brought below the locked amount is then refused any delegation that
does not close the whole gap.
-/

namespace Tsc.Staking

open Go Sdk Kv Lockup

/-- The validator loses `burned` tokens, its shares stay. -/
def slash (w : State) (v : ValAddress) (x : Validator) (burned : ℤ) : State :=
  { w with validators := w.validators.set v { x with tokens := x.tokens - burned } }

theorem slash_valid {w : State} (hw : Valid w) {v : ValAddress} {x : Validator} {burned : ℤ}
    (hx : w.validators.get v = some x) (h0 : 0 ≤ burned) (hle : burned ≤ x.tokens) :
    Valid (slash w v x burned) := by
  have hunshared := hw.unshared v x hx
  have htokens : tokenTotal (slash w v x burned) = tokenTotal w - burned := by
    simp only [tokenTotal, slash, Store.total_set, Store.share_some _ hx]
    ring
  refine ⟨hw.positive, ?_, Store.forall_get_set (sub_nonneg.mpr hle) hw.tokens,
    Store.forall_get_set (fun hs => ?_) hw.unshared, ?_, hw.pool.2⟩
  · intro v'
    have hsum := hw.shares v'
    show sharesOf w v' = _
    simp only [slash, Store.get_set]
    by_cases hv : v' = v
    · rw [hsum, if_pos hv, hv, hx]
      rfl
    · rw [hsum, if_neg hv]
  · have hzero := hunshared hs
    show x.tokens - burned = 0
    omega
  · have hpool := hw.pool.1
    show tokenTotal (slash w v x burned) ≤ w.pool
    omega

theorem handleDelegate_iff {p : Platform} {ctx : Ctx} {st : LockStore} {w w₁ w' : State}
    {d : AccAddress} {v : ValAddress} {amt : ℤ} (hpay : payPool w d amt = .ok w₁)
    (hstore : storeDelegation p w₁ d v amt = .ok w') :
    (∃ u, handleDelegate p ctx st w d v amt = .ok u) ↔
      afterDelegationModified (readers p) ctx st w' d v = .ok () := by
  simp only [handleDelegate, delegate, hpay, hstore, ok_bind, bind_eq_ok]
  constructor
  · rintro ⟨_, _, hhook, _⟩
    exact hhook
  · intro hhook
    exact ⟨w', (), hhook, rfl⟩

/-- The hook of a delegation, called with the new delegation stored, goes through exactly
when the pair is marked, or nothing is locked, or the delegations, fewer than a hundred,
cover the locks; whatever the keepers. The delegation itself, by a message or as a step of
`SendDelegateAndLock`, goes through exactly when its hook does. -/
theorem delegation_accepted_iff {W : Type} (k : Keepers W) (ctx : Ctx) (st : LockStore) :
    (∀ w d v ds, Delegates k w d ds →
      (afterDelegationModified k ctx st w d v = .ok () ↔ isRedelegating ctx d v ∨
        ∃ locked, getLockedAmountByAddress ctx st d = .ok locked ∧
          (locked = 0 ∨ locked ≤ (ds.map Prod.snd).sum ∧ ds.length < 100))) ∧
    ∀ (p : Platform) (w w₁ w' : State) (d : AccAddress) (v : ValAddress) (amt : ℤ),
      payPool w d amt = .ok w₁ → storeDelegation p w₁ d v amt = .ok w' →
      ((∃ u, handleDelegate p ctx st w d v amt = .ok u) ↔
        afterDelegationModified (readers p) ctx st w' d v = .ok ()) ∧
      ∀ x : Validator, x.operator = v →
        ((∃ u, (keepers p).delegate ctx st w d amt x = .ok u) ↔
          afterDelegationModified (readers p) ctx st w' d v = .ok ()) := by
  constructor
  · intro w d v ds hds
    simp only [afterDelegationModified_reads, hds.getTotalDelegatedAmount_iff, and_assoc,
      exists_eq_left, and_comm (a := ds.length < 100)]
  · intro p w w₁ w' d v amt hpay hstore
    refine ⟨handleDelegate_iff hpay hstore, ?_⟩
    rintro x rfl
    exact handleDelegate_iff hpay hstore

/-! ### A slashed delegator -/

def validatorA : Validator := ⟨ascii "A", 100, 100⟩

/-- `d` has 60 in the bank and half of the 100 delegated to `A` is gone. -/
def slashed : State :=
  slash { twoValidators with balance := fun _ _ => 60 } (ascii "A") validatorA 50

theorem slashed_valid : Valid slashed := by
  have hv := twoValidators_valid
  have hfunded : Valid { twoValidators with balance := fun _ _ => 60 } :=
    ⟨hv.positive, hv.shares, hv.tokens, hv.unshared, hv.pool⟩
  have hA : twoValidators.validators.get (ascii "A") = some validatorA := by decide +kernel
  exact slash_valid hfunded hA (by decide) (by decide)

/-- Lock 100 of 100 until June, slash 50, delegate `amt` up to the hook: the locked amount,
the delegated amount before and after, and the verdict of the hook. -/
def topUp (amt : ℤ) : Out (ℤ × ℤ × ℤ × Out Unit) := do
  let st ← lock (readers chain) newYear Store.empty twoValidators
    ⟨accText (ascii "d"), ascii "2026-06-01", tsc 100⟩
  let locked ← getLockedAmountByAddress newYear st (ascii "d")
  let before ← getTotalDelegatedAmount (readers chain) slashed (ascii "d")
  let w₁ ← payPool slashed (ascii "d") amt
  let w' ← storeDelegation chain w₁ (ascii "d") (ascii "A") amt
  let after ← getTotalDelegatedAmount (readers chain) w' (ascii "d")
  .ok (locked, before, after,
    afterDelegationModified (readers chain) newYear st w' (ascii "d") (ascii "A"))

/-- With 100 locked and 50 left, delegating another 10 is refused as an undelegation. -/
theorem top_up_refused :
    ∃ st w₁ w', Valid slashed ∧ getLockedAmountByAddress newYear st (ascii "d") = .ok 100 ∧
      getTotalDelegatedAmount (readers chain) slashed (ascii "d") = .ok 50 ∧
      payPool slashed (ascii "d") 10 = .ok w₁ ∧
      storeDelegation chain w₁ (ascii "d") (ascii "A") 10 = .ok w' ∧
      getTotalDelegatedAmount (readers chain) w' (ascii "d") = .ok 60 ∧
      afterDelegationModified (readers chain) newYear st w' (ascii "d") (ascii "A") =
        .error (fail .errInsufficientDelegations
          "undelegation would cause delegated amount to drop below locked amount: delegated %s < locked %s"
          [.int 60, .int 100]) := by
  have h : topUp 10 = .ok (100, 50, 60, .error (fail .errInsufficientDelegations
      "undelegation would cause delegated amount to drop below locked amount: delegated %s < locked %s"
      [.int 60, .int 100])) := by decide +kernel
  simp only [topUp, bind_eq_ok, Except.ok.injEq, Prod.mk.injEq] at h
  obtain ⟨st, _, locked, hl, before, hb, w₁, hpay, w', hw', after, ha, rfl, rfl, rfl, hverdict⟩ := h
  exact ⟨st, w₁, w', slashed_valid, hl, hb, hpay, hw', ha, hverdict⟩

theorem toppedUp_prices {w' : State} {shares : ℚ} {x : Validator}
    (hx : w'.validators.get (ascii "A") = some x)
    (hvalue : chain.tokensFromShares x shares = .ok 100) :
    Prices (readers chain) w' ⟨valText (ascii "A"), shares⟩ 100 :=
  ⟨ascii "A", x, 100, readText_valText (ascii "A"), (ofOption_eq_ok _ _ _).mpr hx, hvalue,
    by norm_num, by norm_num⟩

/-- The whole gap of 50 is accepted. -/
theorem delegation_accepted_at_gap :
    ∃ st w₁ w', payPool slashed (ascii "d") 50 = .ok w₁ ∧
      storeDelegation chain w₁ (ascii "d") (ascii "A") 50 = .ok w' ∧
      getLockedAmountByAddress newYear st (ascii "d") = .ok 100 ∧
      Delegates (readers chain) w' (ascii "d") [(⟨valText (ascii "A"), 200⟩, 100)] ∧
      afterDelegationModified (readers chain) newYear st w' (ascii "d") (ascii "A") = .ok () ∧
      ∃ u, handleDelegate chain newYear st slashed (ascii "d") (ascii "A") 50 = .ok u := by
  have h : topUp 50 = .ok (100, 50, 100, .ok ()) := by decide +kernel
  have hread : (payPool slashed (ascii "d") 50 >>= fun w₁ =>
      storeDelegation chain w₁ (ascii "d") (ascii "A") 50 >>= fun w' =>
        (.ok (w'.validators.get (ascii "A"),
          (readers chain).getDelegatorDelegations w' (ascii "d") 100) : Out _)) =
      .ok (some ⟨ascii "A", 100, 200⟩, .ok [⟨valText (ascii "A"), 200⟩]) := by decide +kernel
  simp only [topUp, bind_eq_ok, Except.ok.injEq, Prod.mk.injEq] at h
  obtain ⟨st, _, locked, hl, before, hb, w₁, hpay, w', hw', after, ha, rfl, rfl, rfl, _⟩ := h
  rw [hpay, ok_bind, hw', ok_bind, Except.ok.injEq, Prod.mk.injEq] at hread
  have hds : Delegates (readers chain) w' (ascii "d") [(⟨valText (ascii "A"), 200⟩, 100)] := by
    refine ⟨hread.2, ?_, by decide +kernel⟩
    intro e he
    rw [List.mem_singleton.mp he]
    exact toppedUp_prices hread.1 (by decide +kernel)
  obtain ⟨hhook, hroutes⟩ := delegation_accepted_iff (readers chain) newYear st
  have hok := (hhook w' (ascii "d") (ascii "A") _ hds).mpr
    (Or.inr ⟨100, hl, Or.inr (by decide)⟩)
  exact ⟨st, w₁, w', hpay, hw', hl, hds, hok,
    (hroutes chain slashed w₁ w' (ascii "d") (ascii "A") 50 hpay hw').1.mpr hok⟩

end Tsc.Staking
