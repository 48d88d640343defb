import Tsc.Lockup.DateStore

/-!
# Delegated amounts, staking hooks and the send restriction

`x/lockup/keeper/helpers.go`, `hooks.go` and `send_restriction.go`. All of it
reads the locks of an account and what the account has delegated, and accepts or
rejects; nothing here writes.
-/

namespace Tsc.Lockup

open Go Sdk Kv

variable {W : Type} (k : Keepers W)

/-! ### `helpers.go` -/

def ceilTokens (validator : Validator) (shares : ℚ) : Out ℤ := do
  let tokens ← k.tokensFromShares validator shares
  checkInt ⌈tokens⌉

def addDelegation (w : W) (total : ℤ) (delegation : Delegation) : Out ℤ := do
  let valAddr ← wrapErr .errInvalidAddress "invalid validator address: %s"
    (k.valAddressFromBech32 delegation.validatorAddress)
  let validator ← k.getValidator w valAddr
  let tokens ← ceilTokens k validator delegation.shares
  intAdd total tokens

/-- `GetTotalDelegatedAmount` as written: every round asks for the first hundred
delegations again, and only a shorter answer ends the loop. -/
def totalDelegatedLoop (w : W) (addr : AccAddress) : ℕ → ℤ → Out ℤ
  | 0, _ => .error .hang
  | fuel + 1, total => do
    let delegations ← k.getDelegatorDelegations w addr 100
    let total' ← forRange (addDelegation k w) total delegations
    if delegations.length = 100 then totalDelegatedLoop w addr fuel total' else .ok total'

/-- The same without fuel: one round, and no value at all on a full page. -/
def getTotalDelegatedAmount (w : W) (addr : AccAddress) : Out ℤ := do
  let delegations ← k.getDelegatorDelegations w addr 100
  let total ← forRange (addDelegation k w) 0 delegations
  if delegations.length = 100 then .error .hang else .ok total

theorem totalDelegatedLoop_full {w : W} {addr : AccAddress} {delegations : List Delegation}
    (hd : k.getDelegatorDelegations w addr 100 = .ok delegations)
    (hfull : delegations.length = 100) (fuel : ℕ) (total t : ℤ) :
    totalDelegatedLoop k w addr fuel total ≠ .ok t := by
  induction fuel generalizing total with
  | zero =>
    intro h
    cases h
  | succ fuel ih =>
    intro h
    simp only [totalDelegatedLoop, hd, ok_bind, hfull, if_true, bind_eq_ok] at h
    obtain ⟨total', _, hr⟩ := h
    exact ih total' hr

/-- The two forms return the same values: the loop returns in its first round or
in none. -/
theorem totalDelegatedLoop_iff (w : W) (addr : AccAddress) (t : ℤ) :
    (∃ fuel, totalDelegatedLoop k w addr fuel 0 = .ok t) ↔
      getTotalDelegatedAmount k w addr = .ok t := by
  constructor
  · intro h
    obtain ⟨fuel, h⟩ := h
    cases fuel with
    | zero => cases h
    | succ fuel =>
      have hloop := h
      simp only [totalDelegatedLoop, bind_eq_ok] at h
      obtain ⟨delegations, hd, total, ht, hr⟩ := h
      by_cases hfull : delegations.length = 100
      · exact absurd hloop (totalDelegatedLoop_full k hd hfull (fuel + 1) 0 t)
      · rw [if_neg hfull] at hr
        simp only [getTotalDelegatedAmount, hd, ht, ok_bind, if_neg hfull, hr]
  · intro h
    simp only [getTotalDelegatedAmount, bind_eq_ok] at h
    obtain ⟨delegations, hd, total, ht, hr⟩ := h
    by_cases hfull : delegations.length = 100
    · rw [if_pos hfull] at hr
      cases hr
    · rw [if_neg hfull] at hr
      exact ⟨1, by simp only [totalDelegatedLoop, hd, ht, ok_bind, if_neg hfull, hr]⟩

/-- The delegation's validator exists and the value of its shares, rounded up, is
`tokens`. -/
def Prices (w : W) (delegation : Delegation) (tokens : ℤ) : Prop :=
  ∃ valAddr validator value,
    k.valAddressFromBech32 delegation.validatorAddress = .ok valAddr ∧
    k.getValidator w valAddr = .ok validator ∧
    k.tokensFromShares validator delegation.shares = .ok value ∧ 0 ≤ value ∧ tokens = ⌈value⌉

theorem Prices.nonneg {w : W} {delegation : Delegation} {tokens : ℤ}
    (h : Prices k w delegation tokens) : 0 ≤ tokens := by
  obtain ⟨_, _, value, _, _, _, hnn, rfl⟩ := h
  exact Int.ceil_nonneg hnn

theorem Prices.addDelegation_eq {w : W} {delegation : Delegation} {tokens : ℤ}
    (h : Prices k w delegation tokens) (hlt : tokens < intBound) (total : ℤ) :
    addDelegation k w total delegation = intAdd total tokens := by
  have hnn := h.nonneg
  have hbound := intBound_pos
  have hrange : InRange tokens := ⟨by omega, hlt⟩
  obtain ⟨valAddr, validator, value, haddr, hval, hvalue, _, rfl⟩ := h
  have hw := (wrapErr_eq_ok .errInvalidAddress "invalid validator address: %s" _ _).mpr haddr
  unfold addDelegation ceilTokens
  rw [hw, ok_bind, hval, ok_bind, hvalue, ok_bind, (checkInt_eq_ok _ _).mpr ⟨hrange, rfl⟩, ok_bind]

/-- The delegations of the account with their values. The keeper returns the first hundred
of them, and together they are an amount. -/
structure Delegates (w : W) (addr : AccAddress) (ds : List (Delegation × ℤ)) : Prop where
  page : k.getDelegatorDelegations w addr 100 = .ok ((ds.take 100).map Prod.fst)
  prices : ∀ e ∈ ds, Prices k w e.1 e.2
  fits : (ds.map Prod.snd).sum < intBound

section Delegates

variable {k} {w : W} {addr : AccAddress} {ds : List (Delegation × ℤ)} (h : Delegates k w addr ds)
include h

theorem Delegates.value_nonneg {e : Delegation × ℤ} (he : e ∈ ds) : 0 ≤ e.2 := (h.prices e he).nonneg

theorem Delegates.total_nonneg : 0 ≤ (ds.map Prod.snd).sum := by
  apply List.sum_nonneg
  intro x hx
  obtain ⟨e, he, rfl⟩ := List.mem_map.mp hx
  exact h.value_nonneg he

theorem Delegates.addDelegation_eq {e : Delegation × ℤ} (he : e ∈ ds) (total : ℤ) :
    addDelegation k w total e.1 = intAdd total e.2 := by
  have hone : e.2 ≤ (ds.map Prod.snd).sum := by
    refine List.single_le_sum ?_ _ (List.mem_map.mpr ⟨e, he, rfl⟩)
    simpa using fun d x hx => h.value_nonneg hx
  exact (h.prices e he).addDelegation_eq k (lt_of_le_of_lt hone h.fits) total

/-- One round over a page that is not full is all it takes, and a full page is asked for
again and again. -/
theorem Delegates.getTotalDelegatedAmount_eq :
    getTotalDelegatedAmount k w addr =
      if ds.length < 100 then .ok (ds.map Prod.snd).sum else .error .hang := by
  have hmem : ∀ e ∈ ds.take 100, e ∈ ds := fun e he => List.mem_of_mem_take he
  have hle : ((ds.take 100).map Prod.snd).sum ≤ (ds.map Prod.snd).sum := by
    apply List.Sublist.sum_le_sum ((List.take_sublist 100 ds).map Prod.snd)
    intro x hx
    obtain ⟨e, he, rfl⟩ := List.mem_map.mp hx
    exact h.value_nonneg he
  have hround : forRange (addDelegation k w) 0 ((ds.take 100).map Prod.fst) =
      .ok ((ds.take 100).map Prod.snd).sum := by
    rw [forRange_map, forRange_congr fun e he s => h.addDelegation_eq (hmem e he) s,
      forRange_intAdd_iff Prod.snd _ 0 (le_refl 0) intBound_pos fun e he => h.value_nonneg (hmem e he)]
    exact ⟨by rw [zero_add], by rw [zero_add]; exact lt_of_le_of_lt hle h.fits⟩
  unfold getTotalDelegatedAmount
  rw [h.page, ok_bind, hround, ok_bind, List.length_map, List.length_take]
  by_cases hlen : ds.length < 100
  · rw [if_neg (by omega), if_pos hlen, List.take_of_length_le hlen.le]
  · rw [if_pos (by omega), if_neg hlen]

theorem Delegates.getTotalDelegatedAmount_iff (total : ℤ) :
    getTotalDelegatedAmount k w addr = .ok total ↔
      total = (ds.map Prod.snd).sum ∧ ds.length < 100 := by
  rw [h.getTotalDelegatedAmount_eq]
  by_cases hlen : ds.length < 100
  · rw [if_pos hlen, Except.ok.injEq]
    exact ⟨fun heq => ⟨heq.symm, hlen⟩, fun heq => heq.1.symm⟩
  · rw [if_neg hlen]
    constructor
    · intro heq
      cases heq
    · intro heq
      exact absurd heq.2 hlen

end Delegates

/-- A missing delegation counts as nothing. -/
def getDelegationAmount (w : W) (delAddr : AccAddress) (valAddr : ValAddress) : Out ℤ :=
  match k.getDelegation w delAddr valAddr with
  | .error (.err _) => .ok 0
  | .error f => .error f
  | .ok delegation => do
    let validator ← k.getValidator w valAddr
    ceilTokens k validator delegation.shares

/-! ### `hooks.go` -/

def redelegateMapKey (delAddr : AccAddress) (valAddr : ValAddress) : Bytes :=
  delAddr ++ [0] ++ valAddr

def withRedelegating (ctx : Ctx) (delAddr : AccAddress) (valSrcAddr : ValAddress) : Ctx :=
  { ctx with redelegating := redelegateMapKey delAddr valSrcAddr :: ctx.redelegating }

def isRedelegating (ctx : Ctx) (delAddr : AccAddress) (valAddr : ValAddress) : Prop :=
  redelegateMapKey delAddr valAddr ∈ ctx.redelegating

instance (ctx : Ctx) (d : AccAddress) (v : ValAddress) : Decidable (isRedelegating ctx d v) :=
  inferInstanceAs (Decidable (_ ∈ _))

def checkLockupInvariantExcluding (ctx : Ctx) (st : LockStore) (w : W) (delAddr : AccAddress)
    (excludeVal : Option ValAddress) : Out Unit := do
  let totalLocked ← getLockedAmountByAddress ctx st delAddr
  if totalLocked = 0 then .ok ()
  else do
    let total ← getTotalDelegatedAmount k w delAddr
    let totalDelegated ← (match excludeVal with
      | none => .ok total
      | some valAddr => do
        let excludeAmount ← getDelegationAmount k w delAddr valAddr
        intSub total excludeAmount : Out ℤ)
    failIf (totalDelegated < totalLocked)
      (fail .errInsufficientDelegations
        "undelegation would cause delegated amount to drop below locked amount: delegated %s < locked %s"
        [.int totalDelegated, .int totalLocked])

def checkLockupInvariant (ctx : Ctx) (st : LockStore) (w : W) (delAddr : AccAddress) : Out Unit :=
  checkLockupInvariantExcluding k ctx st w delAddr none

def afterDelegationModified (ctx : Ctx) (st : LockStore) (w : W) (delAddr : AccAddress)
    (valAddr : ValAddress) : Out Unit :=
  if isRedelegating ctx delAddr valAddr then .ok ()
  else checkLockupInvariant k ctx st w delAddr

def beforeDelegationRemoved (ctx : Ctx) (st : LockStore) (w : W) (delAddr : AccAddress)
    (valAddr : ValAddress) : Out Unit :=
  if isRedelegating ctx delAddr valAddr then .ok ()
  else checkLockupInvariantExcluding k ctx st w delAddr (some valAddr)

section Verdict

variable {k} {ctx : Ctx} {st : LockStore} {w : W} {d : AccAddress} {v : ValAddress}

/-- Both hooks pass a marked pair and an account without locks, and otherwise check the
locked amount. -/
theorem guarded_iff {check : ℤ → Out Unit} {passes : ℤ → Prop}
    (hcheck : ∀ locked, check locked = .ok () ↔ passes locked) :
    (if isRedelegating ctx d v then .ok ()
      else getLockedAmountByAddress ctx st d >>= fun locked =>
        if locked = 0 then .ok () else check locked) = .ok () ↔
      isRedelegating ctx d v ∨ ∃ locked, getLockedAmountByAddress ctx st d = .ok locked ∧
        (locked = 0 ∨ passes locked) := by
  by_cases hm : isRedelegating ctx d v
  · simp [hm]
  · rw [if_neg hm, or_iff_right hm, bind_eq_ok]
    apply exists_congr
    intro locked
    apply and_congr_right
    intro _
    by_cases h0 : locked = 0
    · simp [h0]
    · rw [if_neg h0, or_iff_right h0, hcheck]

theorem afterDelegationModified_reads :
    afterDelegationModified k ctx st w d v = .ok () ↔ isRedelegating ctx d v ∨
      ∃ locked, getLockedAmountByAddress ctx st d = .ok locked ∧ (locked = 0 ∨
        ∃ total, getTotalDelegatedAmount k w d = .ok total ∧ locked ≤ total) := by
  unfold afterDelegationModified checkLockupInvariant checkLockupInvariantExcluding
  apply guarded_iff
  intro locked
  simp only [bind_eq_ok, ok_bind, failIf_eq_ok, not_lt]

theorem beforeDelegationRemoved_reads :
    beforeDelegationRemoved k ctx st w d v = .ok () ↔ isRedelegating ctx d v ∨
      ∃ locked, getLockedAmountByAddress ctx st d = .ok locked ∧ (locked = 0 ∨
        ∃ total, getTotalDelegatedAmount k w d = .ok total ∧
          ∃ amount, getDelegationAmount k w d v = .ok amount ∧ InRange (total - amount) ∧
            locked ≤ total - amount) := by
  unfold beforeDelegationRemoved checkLockupInvariantExcluding
  apply guarded_iff
  intro locked
  simp only [bind_eq_ok, failIf_eq_ok, not_lt, intSub_eq_ok]
  constructor
  · rintro ⟨total, ht, _, ⟨amount, ha, hr, rfl⟩, hle⟩
    exact ⟨total, ht, amount, ha, hr, hle⟩
  · rintro ⟨total, ht, amount, ha, hr, hle⟩
    exact ⟨total, ht, _, ⟨amount, ha, hr, rfl⟩, hle⟩

end Verdict

/-! ### `send_restriction.go` -/

def sendRestrictionFn (ctx : Ctx) (st : LockStore) (w : W) (fromAddr toAddr : AccAddress)
    (amt : Coins) : Out AccAddress := do
  let bondDenom ← k.bondDenom w
  let sendAmount := amt.amountOf bondDenom
  if sendAmount = 0 then .ok toAddr
  else do
    let totalLocked ← getLockedAmountByAddress ctx st fromAddr
    if totalLocked = 0 then .ok toAddr
    else do
      let totalDelegated ← getTotalDelegatedAmount k w fromAddr
      let difference ← intSub totalLocked totalDelegated
      let lockedAboveDelegated := if difference < 0 then 0 else difference
      if lockedAboveDelegated = 0 then .ok toAddr
      else do
        let bankBalance := k.getBalance w fromAddr bondDenom
        let rest ← intSub bankBalance lockedAboveDelegated
        let available := if rest < 0 then 0 else rest
        failIf (available < sendAmount)
          (fail .errInsufficientFunds
            "insufficient unlocked balance: available %s, required %s (locked: %s, delegated: %s)"
            [.int available, .int sendAmount, .int totalLocked, .int totalDelegated])
        .ok toAddr

end Tsc.Lockup
