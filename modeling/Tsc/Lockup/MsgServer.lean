import Tsc.Lockup.Delegations
import Tsc.Lockup.LockList

/-!
# Messages of the lockup module

`x/lockup/keeper/msg_server_lock.go`, `msg_server_extend.go`,
`msg_server_send_delegate_and_lock.go` and
`msg_server_multi_send_delegate_and_lock.go`. A handler takes the stores to new
ones or fails; on failure the transaction is rolled back, so no new state is
returned. Checks stand in the order of the source.
-/

namespace Tsc.Lockup

open Go Sdk Kv

variable {W : Type} (k : Keepers W)

/-- Dereference of a message field that is a pointer. -/
def deref {α : Type} : Option α → Out α :=
  ofOption (.panic "invalid memory address or nil pointer dereference")

/-- Lock and Extend both merge into the lock of the same date or insert a new one
(`msg_server_lock.go:71-82`, `msg_server_extend.go:86-102`). -/
def mergeLock (st : LockStore) (addr : AccAddress) (unlockDate : Bytes) (amount : ℤ) :
    Out LockStore :=
  match getLockByAddressAndDate st addr unlockDate with
  | some (existingLock, idx) => do
    let newAmount ← intAdd existingLock.amount amount
    updateLockByAddressAndIndex st addr idx ⟨existingLock.unlockDate, newAmount⟩
  | none => setLockByAddress st addr ⟨unlockDate, amount⟩

def lock (ctx : Ctx) (st : LockStore) (w : W) (msg : MsgLock) : Out LockStore := do
  let bondDenom ← k.bondDenom w
  failIf (msg.amount.denom ≠ bondDenom)
    (fail .errInvalidRequest "invalid denom: %s, expected: %s"
      [.str msg.amount.denom, .str bondDenom])
  let address ← wrapErr .errInvalidAddress "invalid lockup address: %s"
    (k.accAddressFromBech32 msg.address)
  failIf (¬ 0 < msg.amount.amount)
    (fail .errInvalidCoins "invalid lock amount: %s" [.coin msg.amount])
  let unlockDate ← ofOption
    (fail .errInvalidRequest "invalid unlock date format: %s" [.str msg.unlockDate])
    (parseDateOnly msg.unlockDate)
  let blockDay := ctx.blockDay
  failIf (blockDay.After unlockDate ∨ blockDay = unlockDate)
    (fail .errInvalidRequest "unlock date must be in the future" [])
  failIf ((blockDay.addDate 2 0 0).Before unlockDate)
    (fail .errInvalidRequest "unlock date cannot be more than 2 years from now" [])
  let currentLockedAmount ← getLockedAmountByAddress ctx st address
  let totalDelegatedAmount ← getTotalDelegatedAmount k w address
  let required ← intAdd currentLockedAmount msg.amount.amount
  failIf (totalDelegatedAmount < required)
    (fail .errInsufficientDelegations
      "insufficient delegated tokens to create new locks by the requested amount: %s < %s"
      [.int totalDelegatedAmount, .int required])
  let st₁ ← mergeLock st address msg.unlockDate msg.amount.amount
  addToExpirationQueue st₁ unlockDate address msg.amount.amount

/-- Extend takes the moved amount out of the lock of the from date
(`msg_server_extend.go:63-84`). -/
def takeLock (st : LockStore) (addr : AccAddress) (fromDate : Bytes) (amountToMove : ℤ) :
    Out LockStore :=
  match getLockByAddressAndDate st addr fromDate with
  | none =>
    .error (fail .errLockupNotFound "no lockup found for from date (%s)" [.str fromDate])
  | some (existingFromLock, idx) =>
    if existingFromLock.amount < amountToMove then
      .error (fail .errInvalidRequest "extension amount exceeds existing lock amount date (%s)"
        [.str fromDate])
    else if existingFromLock.amount = amountToMove then deleteLockByAddressAndIndex st addr idx
    else do
      let rest ← intSub existingFromLock.amount amountToMove
      updateLockByAddressAndIndex st addr idx ⟨existingFromLock.unlockDate, rest⟩

def checkExtension (ctx : Ctx) (w : W) (extension? : Option Extension) :
    Out (Extension × Time × Time) := do
  let bondDenom ← k.bondDenom w
  let extension ← deref extension?
  failIf (extension.amount.denom ≠ bondDenom)
    (fail .errInvalidRequest "invalid denom: %s, expected: %s"
      [.str extension.amount.denom, .str bondDenom])
  let fromDate ← ofOption
    (fail .errInvalidRequest "invalid from date format: %s" [.str extension.fromDate])
    (parseDateOnly extension.fromDate)
  let toDate ← ofOption
    (fail .errInvalidRequest "invalid to date format (%s)" [.str extension.toDate])
    (parseDateOnly extension.toDate)
  failIf (¬ toDate.After fromDate)
    (fail .errInvalidRequest "to date must be after from date" [])
  let blockDay := ctx.blockDay
  failIf (blockDay.After toDate ∨ blockDay = toDate)
    (fail .errInvalidRequest "to date must be in the future" [])
  failIf ((blockDay.addDate 2 0 0).Before toDate)
    (fail .errInvalidRequest "to date cannot be more than 2 years from now" [])
  .ok (extension, fromDate, toDate)

def extendOne (ctx : Ctx) (w : W) (addr : AccAddress) (st : LockStore)
    (extension? : Option Extension) : Out LockStore := do
  let (extension, fromDate, toDate) ← checkExtension k ctx w extension?
  let amountToMove := extension.amount.amount
  let st₁ ← takeLock st addr extension.fromDate amountToMove
  let st₂ ← mergeLock st₁ addr extension.toDate amountToMove
  let st₃ ← removeFromExpirationQueue st₂ fromDate addr amountToMove
  addToExpirationQueue st₃ toDate addr amountToMove

def extend (ctx : Ctx) (st : LockStore) (w : W) (msg : MsgExtend) : Out LockStore := do
  let addr ← wrapErr .errInvalidAddress "invalid lockup address: %s"
    (k.accAddressFromBech32 msg.address)
  let _ ← ofOption (fail .errNotFound "no account found for address: %s" [.str msg.address])
    (k.getAccount w addr)
  forRange (extendOne k ctx w addr) st msg.extensions

def sendDelegateAndLock (ctx : Ctx) (st : LockStore) (w : W) (msg : MsgSendDelegateAndLock) :
    Out (LockStore × W) := do
  failIf (¬ 0 < msg.amount.amount)
    (fail .errInvalidCoins "invalid amount: %s" [.coin msg.amount])
  let fromAddr ← wrapErr .errInvalidAddress "invalid from address: %s"
    (k.accAddressFromBech32 msg.fromAddress)
  let toAddr ← wrapErr .errInvalidAddress "invalid to address: %s"
    (k.accAddressFromBech32 msg.toAddress)
  let bondDenom ← k.bondDenom w
  failIf (msg.amount.denom ≠ bondDenom)
    (fail .errInvalidRequest "invalid denom: %s, expected: %s"
      [.str msg.amount.denom, .str bondDenom])
  let w₁ ← k.sendCoins ctx st w fromAddr toAddr [msg.amount]
  let valAddr ← wrapErr .errInvalidAddress "invalid validator address: %s"
    (k.valAddressFromBech32 msg.validatorAddress)
  let validator ← k.getValidator w₁ valAddr
  let w₂ ← k.delegate ctx st w₁ toAddr msg.amount.amount validator
  let st' ← lock k ctx st w₂ ⟨msg.toAddress, msg.unlockDate, msg.amount⟩
  .ok (st', w₂)

def addOutput (totalOutputs : ℤ) (output? : Option MultiSendDelegateAndLockOutput) : Out ℤ := do
  let output ← deref output?
  failIf (¬ 0 < output.amount.amount)
    (fail .errInvalidCoins "invalid amount in output to %s: %s"
      [.str output.toAddress, .coin output.amount])
  intAdd totalOutputs output.amount.amount

def sendOutput (ctx : Ctx) (fromAddress : Bytes) (s : LockStore × W)
    (output? : Option MultiSendDelegateAndLockOutput) : Out (LockStore × W) := do
  let output ← deref output?
  sendDelegateAndLock k ctx s.1 s.2
    ⟨fromAddress, output.toAddress, output.validatorAddress, output.unlockDate, output.amount⟩

def multiSendDelegateAndLock (ctx : Ctx) (st : LockStore) (w : W)
    (msg : MsgMultiSendDelegateAndLock) : Out (LockStore × W) := do
  let _ ← wrapErr .errInvalidAddress "invalid from address: %s"
    (k.accAddressFromBech32 msg.fromAddress)
  let totalOutputs ← forRange addOutput 0 msg.outputs
  failIf (msg.totalAmount.amount ≠ totalOutputs)
    (fail .errInvalidRequest "input %s does not match sum of outputs %s"
      [.coin msg.totalAmount, .int totalOutputs])
  forRange (sendOutput k ctx msg.fromAddress) (st, w) msg.outputs

/-! ### What a returning handler has done -/

theorem mergeLock_ok {st st' : LockStore} {addr : AccAddress} {d : Bytes} {x : ℤ}
    (h : mergeLock st addr d x = .ok st') :
    ∃ l, getLocksByAddress st addr = .ok l ∧ st' = setLocksByAddress st addr (addLocks d x l) := by
  unfold mergeLock at h
  cases hget : getLocksByAddress st addr with
  | error e =>
    -- the lookup reports an undecodable list as not found, the insertion does not
    simp only [getLockByAddressAndDate, hget, setLockByAddress_error hget] at h
    cases h
  | ok l =>
    refine ⟨l, rfl, ?_⟩
    rw [getLockByAddressAndDate_eq hget] at h
    unfold addLocks
    cases hf : lookupFrom Lock.unlockDate d 0 l with
    | none =>
      simp only [hf] at h
      rw [setLockByAddress_eq hget] at h
      cases h
      rfl
    | some r =>
      obtain ⟨hi, _⟩ := lookupFrom_zero hf
      simp only [hf, bind_eq_ok, intAdd_eq_ok] at h
      obtain ⟨newAmount, ⟨_, rfl⟩, h⟩ := h
      rw [updateLockByAddressAndIndex_eq hget hi] at h
      cases h
      rfl

theorem takeLock_ok {st st' : LockStore} {addr : AccAddress} {d : Bytes} {x : ℤ}
    (h : takeLock st addr d x = .ok st') :
    ∃ l e i, getLocksByAddress st addr = .ok l ∧ lookupFrom Lock.unlockDate d 0 l = some (e, i) ∧
      x ≤ e.amount ∧ st' = setLocksByAddress st addr (subLocks d x l) := by
  unfold takeLock at h
  cases hget : getLocksByAddress st addr with
  | error e =>
    simp only [getLockByAddressAndDate, hget] at h
    cases h
  | ok l =>
    rw [getLockByAddressAndDate_eq hget] at h
    cases hf : lookupFrom Lock.unlockDate d 0 l with
    | none =>
      simp only [hf] at h
      cases h
    | some r =>
      obtain ⟨hi, _⟩ := lookupFrom_zero hf
      simp only [hf] at h
      by_cases hlt : r.1.amount < x
      · rw [if_pos hlt] at h
        cases h
      · rw [if_neg hlt] at h
        refine ⟨l, r.1, r.2, rfl, hf, not_lt.mp hlt, ?_⟩
        unfold subLocks
        rw [hf]
        by_cases heq : r.1.amount = x
        · rw [if_pos heq, deleteLockByAddressAndIndex_eq hget hi] at h
          cases h
          simp only [if_pos heq]
        · simp only [if_neg heq, bind_eq_ok, intSub_eq_ok] at h
          obtain ⟨rest, ⟨_, rfl⟩, h⟩ := h
          rw [updateLockByAddressAndIndex_eq hget hi] at h
          cases h
          simp only [if_neg heq]

theorem day_lt_of_checks {ctx : Ctx} {d : Bytes} {t : Time} (hp : parseDateOnly d = some t)
    (h : ¬ (ctx.blockDay.After t ∨ ctx.blockDay = t)) : ctx.blockTime.day < t.dayNumber := by
  have ht := parseDateOnly_ofDay hp
  rw [Ctx.blockDay_eq, ht, Time.after_ofDay] at h
  by_contra hle
  apply h
  rcases lt_or_eq_of_le (not_lt.mp hle) with hlt | heq
  · exact Or.inl hlt
  · exact Or.inr (by rw [heq])

theorem day_le_of_checks {ctx : Ctx} {d : Bytes} {t : Time} (hp : parseDateOnly d = some t)
    (h : ¬ (ctx.blockDay.addDate 2 0 0).Before t) : t.dayNumber ≤ ctx.blockTime.horizon := by
  rw [Ctx.blockDay_addDate, parseDateOnly_ofDay hp, Time.before_ofDay] at h
  exact not_lt.mp h

theorem lock_ok {ctx : Ctx} {st st' : LockStore} {w : W} {msg : MsgLock}
    (h : lock k ctx st w msg = .ok st') :
    ∃ addr t st₁, k.accAddressFromBech32 msg.address = .ok addr ∧ 0 < msg.amount.amount ∧
      parseDateOnly msg.unlockDate = some t ∧
      (ctx.blockTime.day < t.dayNumber ∧ t.dayNumber ≤ ctx.blockTime.horizon) ∧
      (∃ locked delegated, getLockedAmountByAddress ctx st addr = .ok locked ∧
        getTotalDelegatedAmount k w addr = .ok delegated ∧
        locked + msg.amount.amount ≤ delegated) ∧
      mergeLock st addr msg.unlockDate msg.amount.amount = .ok st₁ ∧
      addToExpirationQueue st₁ t addr msg.amount.amount = .ok st' := by
  simp only [lock, bind_eq_ok, failIf_eq_ok, wrapErr_eq_ok, ofOption_eq_ok, not_not,
    intAdd_eq_ok] at h
  obtain ⟨_, _, _, _, addr, ha, _, hpos, t, ht, _, hfuture, _, hlimit, locked, hl, delegated,
    hd, required, ⟨_, hreq⟩, _, hle, st₁, hm, hq⟩ := h
  refine ⟨addr, t, st₁, ha, hpos, ht, ⟨day_lt_of_checks ht hfuture, day_le_of_checks ht hlimit⟩,
    ⟨locked, delegated, hl, hd, ?_⟩, hm, hq⟩
  omega

theorem extendOne_ok {ctx : Ctx} {st st' : LockStore} {w : W} {addr : AccAddress}
    {extension? : Option Extension} (h : extendOne k ctx w addr st extension? = .ok st') :
    ∃ e tf tt st₁ st₂ st₃, extension? = some e ∧ parseDateOnly e.fromDate = some tf ∧
      parseDateOnly e.toDate = some tt ∧ tf.dayNumber < tt.dayNumber ∧
      (ctx.blockTime.day < tt.dayNumber ∧ tt.dayNumber ≤ ctx.blockTime.horizon) ∧
      takeLock st addr e.fromDate e.amount.amount = .ok st₁ ∧
      mergeLock st₁ addr e.toDate e.amount.amount = .ok st₂ ∧
      removeFromExpirationQueue st₂ tf addr e.amount.amount = .ok st₃ ∧
      addToExpirationQueue st₃ tt addr e.amount.amount = .ok st' := by
  simp only [extendOne, checkExtension, deref, bind_eq_ok, failIf_eq_ok, ofOption_eq_ok,
    not_not] at h
  obtain ⟨_, ⟨_, _, e, he, _, _, tf, hf, tt, ht, _, hafter, _, hfuture, _, hlimit, hp⟩, st₁, h1,
    st₂, h2, st₃, h3, h4⟩ := h
  cases hp
  rw [parseDateOnly_ofDay hf, parseDateOnly_ofDay ht, Time.after_ofDay] at hafter
  exact ⟨e, tf, tt, st₁, st₂, st₃, he, hf, ht, hafter,
    ⟨day_lt_of_checks ht hfuture, day_le_of_checks ht hlimit⟩, h1, h2, h3, h4⟩

theorem extend_ok {ctx : Ctx} {st st' : LockStore} {w : W} {msg : MsgExtend}
    (h : extend k ctx st w msg = .ok st') :
    ∃ addr, k.accAddressFromBech32 msg.address = .ok addr ∧
      forRange (extendOne k ctx w addr) st msg.extensions = .ok st' := by
  simp only [extend, bind_eq_ok, wrapErr_eq_ok] at h
  obtain ⟨addr, ha, _, _, hr⟩ := h
  exact ⟨addr, ha, hr⟩

theorem sendDelegateAndLock_ok {ctx : Ctx} {st : LockStore} {w : W} {s' : LockStore × W}
    {msg : MsgSendDelegateAndLock} (h : sendDelegateAndLock k ctx st w msg = .ok s') :
    lock k ctx st s'.2 ⟨msg.toAddress, msg.unlockDate, msg.amount⟩ = .ok s'.1 := by
  simp only [sendDelegateAndLock, bind_eq_ok] at h
  obtain ⟨_, _, _, _, _, _, _, _, _, _, _, _, _, _, _, _, w₂, _, st', hl, hs⟩ := h
  cases hs
  exact hl

theorem multiSendDelegateAndLock_ok {ctx : Ctx} {st : LockStore} {w : W} {s' : LockStore × W}
    {msg : MsgMultiSendDelegateAndLock} (h : multiSendDelegateAndLock k ctx st w msg = .ok s') :
    forRange (sendOutput k ctx msg.fromAddress) (st, w) msg.outputs = .ok s' := by
  simp only [multiSendDelegateAndLock, bind_eq_ok] at h
  obtain ⟨_, _, _, _, _, _, hr⟩ := h
  exact hr

end Tsc.Lockup
