import Tsc.Lockup.Invariants

/-!
# Extend and delegations

Extend looks at no delegations. Moving an active lock to a later day leaves the
active amount as it is, but an expired lock that is moved becomes active again:
the active amount grows by what is taken from dates that have passed.
-/

namespace Tsc.Lockup

open Go Sdk Kv Staking

variable {W : Type} {k : Keepers W} {ctx : Ctx} {st st' : LockStore} {w : W} {L : Ledger}

/-- Amount an extension takes from a date that has passed on day `n`. -/
def revived (n : ℤ) : Option Extension → ℤ
  | none => 0
  | some e => if dayOf e.fromDate ≤ n then e.amount.amount else 0

theorem extendOne_active {addr : AccAddress} {e : Extension} (h : Encodes st L)
    (hx : 0 < e.amount.amount) (hm : extendOne k ctx w addr st (some e) = .ok st') :
    ∃ L', Encodes st' L' ∧ activeAfter ctx.blockTime.day (L' addr).locks =
      activeAfter ctx.blockTime.day (L addr).locks + revived ctx.blockTime.day (some e) := by
  obtain ⟨tf, tt, hf, ht, hle, _, hday, hL'⟩ := extendOne_encodes h hx hm
  refine ⟨_, hL', ?_⟩
  rw [Function.update_self, activeAfter_eq_weigh, activeAfter_eq_weigh, LockList.weigh_add,
    LockList.weigh_sub]
  unfold revived
  dsimp only
  rw [dayOf_eq ht, if_pos hday]
  by_cases hexpired : dayOf e.fromDate ≤ ctx.blockTime.day
  · rw [if_pos hexpired, if_neg (not_lt.mpr hexpired)]
    ring
  · rw [if_neg hexpired, if_pos (not_le.mp hexpired)]
    ring

theorem extensions_active {addr : AccAddress} {es : List (Option Extension)} (h : Encodes st L)
    (hpos : ∀ e, some e ∈ es → 0 < e.amount.amount)
    (hm : forRange (extendOne k ctx w addr) st es = .ok st') :
    ∃ L', Encodes st' L' ∧ activeAfter ctx.blockTime.day (L' addr).locks =
      activeAfter ctx.blockTime.day (L addr).locks +
        (es.map (revived ctx.blockTime.day)).sum := by
  induction es generalizing st L with
  | nil =>
    cases hm
    exact ⟨L, h, by simp⟩
  | cons o es ih =>
    obtain ⟨st₁, hone, hrest⟩ := (bind_eq_ok _ _ _).mp hm
    obtain ⟨e, _, _, _, _, _, he, _⟩ := extendOne_ok k hone
    subst he
    obtain ⟨L₁, hL₁, hactive⟩ := extendOne_active h (hpos e (List.mem_cons_self ..)) hone
    obtain ⟨L', hL', hsum⟩ := ih hL₁ (fun e' he' => hpos e' (List.mem_cons_of_mem _ he')) hrest
    refine ⟨L', hL', ?_⟩
    rw [hsum, hactive, List.map_cons, List.sum_cons]
    ring

theorem getTotalDelegatedAmount_lt {addr : AccAddress} {D : ℤ}
    (h : getTotalDelegatedAmount k w addr = .ok D) : D < intBound := by
  simp only [getTotalDelegatedAmount, bind_eq_ok] at h
  obtain ⟨delegations, _, total, hloop, hr⟩ := h
  split_ifs at hr
  cases hr
  apply forRange_invariant (fun total => total < intBound) _ intBound_pos hloop
  intro delegation _ u u' _ hstep
  simp only [addDelegation, bind_eq_ok, intAdd_eq_ok] at hstep
  obtain ⟨_, _, _, _, _, _, ⟨_, hlt⟩, heq⟩ := hstep
  rw [heq]
  exact hlt

/-- After a successful Extend the locks are backed exactly when the delegations
cover, with what was locked before, the amounts taken from dates that have passed. -/
theorem extend_keeps_backing_iff (k : Keepers W) {t₀ t : BlockTime} {st st' : LockStore}
    (h : Reachable k t₀ t st) (ctx : Ctx) (w : W) (msg : MsgExtend) (addr : AccAddress)
    (hbasic : msg.validateBasic k = .ok ()) (haddr : k.accAddressFromBech32 msg.address = .ok addr)
    {locked delegated : ℤ} (hl : getLockedAmountByAddress ctx st addr = .ok locked)
    (hd : getTotalDelegatedAmount k w addr = .ok delegated)
    (hok : extend k ctx st w msg = .ok st') :
    (∃ locked', getLockedAmountByAddress ctx st' addr = .ok locked' ∧ locked' ≤ delegated) ↔
      locked + (msg.extensions.map (revived ctx.blockTime.day)).sum ≤ delegated := by
  obtain ⟨L, hL, _⟩ := h.encodes
  obtain ⟨addr', ha', hloop⟩ := extend_ok k hok
  rw [haddr] at ha'
  cases ha'
  obtain ⟨L', hL', hactive⟩ := extensions_active hL (validateBasic_positive hbasic) hloop
  have hlocked := ((getLockedAmountByAddress_iff hL ctx addr locked).mp hl).1
  have hbound := getTotalDelegatedAmount_lt hd
  rw [← hlocked] at hactive
  constructor
  · intro hback
    obtain ⟨locked', hl', hle'⟩ := hback
    have hval := ((getLockedAmountByAddress_iff hL' ctx addr locked').mp hl').1
    omega
  · intro hcover
    refine ⟨_, (getLockedAmountByAddress_iff hL' ctx addr _).mpr ⟨rfl, ?_⟩, ?_⟩
    · omega
    · omega

/-! ### An expired lock -/

def secondOfJuly : Ctx := ⟨⟨⟨1782950400000000000⟩, by decide⟩, []⟩

def undelegatedAll : State :=
  { twoValidators with validators := Store.empty, delegations := Store.empty }

def reviveJune (amount : ℤ) : MsgExtend :=
  ⟨accText (ascii "d"), [some ⟨ascii "2026-06-01", ascii "2026-12-01", tsc amount⟩]⟩

/-- Lock until June and, on the second of July, extend: the amounts locked before
and delegated, and the amount locked after. -/
def lockThenRevive (w : State) (amount : ℤ) : Out (ℤ × ℤ × ℤ) := do
  let s ← deliver (readers chain) newYear Store.empty twoValidators (.lock lockUntilJune)
  let locked ← getLockedAmountByAddress secondOfJuly s.1 (ascii "d")
  let delegated ← getTotalDelegatedAmount (readers chain) w (ascii "d")
  let st' ← extend (readers chain) secondOfJuly s.1 w (reviveJune amount)
  let locked' ← getLockedAmountByAddress secondOfJuly st' (ascii "d")
  .ok (locked, delegated, locked')

/-- Nothing is locked and nothing delegated; after the Extend 40 are locked. -/
theorem extend_revives_unbacked :
    ∃ st st', Reachable (readers chain) newYear.blockTime newYear.blockTime st ∧
      (reviveJune 40).validateBasic (readers chain) = .ok () ∧
      getLockedAmountByAddress secondOfJuly st (ascii "d") = .ok 0 ∧
      getTotalDelegatedAmount (readers chain) undelegatedAll (ascii "d") = .ok 0 ∧
      extend (readers chain) secondOfJuly st undelegatedAll (reviveJune 40) = .ok st' ∧
      getLockedAmountByAddress secondOfJuly st' (ascii "d") = .ok 40 := by
  have h : lockThenRevive undelegatedAll 40 = .ok (0, 0, 40) := by decide +kernel
  simp only [lockThenRevive, bind_eq_ok, Except.ok.injEq, Prod.mk.injEq] at h
  obtain ⟨s, hs, locked, hl, delegated, hd, st', hst', locked', hl', rfl, rfl, rfl⟩ := h
  exact ⟨s.1, st', Reachable.of_lock hs, by decide +kernel, hl, hd, hst', hl'⟩

theorem extend_keeps_backing_sample :
    ∃ st st', Reachable (readers chain) newYear.blockTime newYear.blockTime st ∧
      extend (readers chain) secondOfJuly st twoValidators (reviveJune 40) = .ok st' ∧
      ∃ locked', getLockedAmountByAddress secondOfJuly st' (ascii "d") = .ok locked' ∧
        locked' ≤ 100 := by
  have h : lockThenRevive twoValidators 40 = .ok (0, 100, 40) := by decide +kernel
  simp only [lockThenRevive, bind_eq_ok, Except.ok.injEq, Prod.mk.injEq] at h
  obtain ⟨s, hs, locked, hl, delegated, hd, st', hst', locked', _, rfl, rfl, rfl⟩ := h
  have hreach := Reachable.of_lock hs
  refine ⟨s.1, st', hreach, hst', ?_⟩
  apply (extend_keeps_backing_iff (readers chain) hreach secondOfJuly twoValidators
    (reviveJune 40) (ascii "d") (by decide +kernel) (readText_accText _) hl hd hst').mpr
  decide +kernel

end Tsc.Lockup
