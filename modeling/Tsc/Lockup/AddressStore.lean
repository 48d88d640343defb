import Tsc.Lockup.Types

/-!
# Locks by address (`x/lockup/keeper/locks_by_address_store.go`)

The whole lock list of an account is one value. `SetLockByAddress` inserts in
front of the first later date string, updates and deletions go by index, and an
empty list is stored as an absent key.
-/

namespace Tsc.Lockup

open Go Sdk Kv

def getLocksByAddressKey (addr : AccAddress) : Bytes := locksByAddressKey ++ addr

def getLocksByAddress (st : LockStore) (addr : AccAddress) : Out (List Lock) :=
  match st.get (getLocksByAddressKey addr) with
  | none => .ok []
  | some bz => bz.unmarshalLocks

def getLockedAmountByAddress (ctx : Ctx) (st : LockStore) (addr : AccAddress) : Out ℤ := do
  let locks ← getLocksByAddress st addr
  let blockDay := ctx.blockDay
  forRange (fun totalLocked lock =>
    if isLocked blockDay lock.unlockDate then intAdd totalLocked lock.amount
    else .ok totalLocked) 0 locks

def setLockByAddress (st : LockStore) (addr : AccAddress) (lock : Lock) : Out LockStore := do
  let key := getLocksByAddressKey addr
  let locksList ← match st.get key with
    | none => .ok []
    | some bz => bz.unmarshalLocks
  .ok (st.set key (.locks (insertBefore Lock.unlockDate lock locksList)))

def setLocksByAddress (st : LockStore) (addr : AccAddress) (locks : List Lock) : LockStore :=
  let key := getLocksByAddressKey addr
  if locks.length = 0 then st.delete key else st.set key (.locks locks)

/-- First lock with the given date text and its index. A list that does not decode
is reported as not found. -/
def getLockByAddressAndDate (st : LockStore) (addr : AccAddress) (unlockDate : Bytes) :
    Option (Lock × ℕ) :=
  match getLocksByAddress st addr with
  | .error _ => none
  | .ok locks => lookupFrom Lock.unlockDate unlockDate 0 locks

def deleteLocksByAddress (st : LockStore) (addr : AccAddress) : LockStore :=
  st.delete (getLocksByAddressKey addr)

def deleteLockByAddressAndIndex (st : LockStore) (addr : AccAddress) (index : ℤ) :
    Out LockStore := do
  let locks ← getLocksByAddress st addr
  failIf (index < 0 ∨ (locks.length : ℤ) ≤ index)
    (fail .errInvalidRequest "lock doesn't exist at index %d" [.int index])
  .ok (setLocksByAddress st addr (locks.eraseIdx index.toNat))

def updateLockByAddressAndIndex (st : LockStore) (addr : AccAddress) (index : ℤ) (lock : Lock) :
    Out LockStore := do
  let locks ← getLocksByAddress st addr
  failIf (index < 0 ∨ (locks.length : ℤ) ≤ index)
    (fail .errInvalidRequest "lock doesn't exist at index %d" [.int index])
  .ok (setLocksByAddress st addr (locks.set index.toNat lock))

theorem getLocksByAddressKey_injective {a b : AccAddress}
    (h : getLocksByAddressKey a = getLocksByAddressKey b) : a = b :=
  List.append_cancel_left h

/-! ### What each call does to the account's list -/

theorem setLocksByAddress_get (st : LockStore) (addr : AccAddress) (locks : List Lock)
    (k : Bytes) (hk : k ≠ getLocksByAddressKey addr) :
    (setLocksByAddress st addr locks).get k = st.get k := by
  unfold setLocksByAddress
  dsimp only
  split_ifs
  · rw [Store.get_delete, if_neg hk]
  · rw [Store.get_set, if_neg hk]

theorem setLocksByAddress_get_self (st : LockStore) (addr : AccAddress) (locks : List Lock) :
    (setLocksByAddress st addr locks).get (getLocksByAddressKey addr) =
      if locks = [] then none else some (.locks locks) := by
  unfold setLocksByAddress
  dsimp only
  cases locks with
  | nil => simp [Store.get_delete]
  | cons l ls => simp [Store.get_set]

theorem setLockByAddress_eq {st : LockStore} {addr : AccAddress} {locks : List Lock}
    (h : getLocksByAddress st addr = .ok locks) (lock : Lock) :
    setLockByAddress st addr lock =
      .ok (setLocksByAddress st addr (insertBefore Lock.unlockDate lock locks)) := by
  have hne : insertBefore Lock.unlockDate lock locks ≠ [] := by
    intro he
    have hm := (mem_insertBefore Lock.unlockDate lock lock locks).mpr (Or.inl rfl)
    rw [he] at hm
    cases hm
  have hlen : (insertBefore Lock.unlockDate lock locks).length ≠ 0 := by
    intro h0
    exact hne (List.length_eq_zero_iff.mp h0)
  unfold getLocksByAddress at h
  unfold setLockByAddress setLocksByAddress
  dsimp only
  rw [if_neg hlen]
  cases hg : st.get (getLocksByAddressKey addr) with
  | none =>
    rw [hg] at h
    cases h
    rfl
  | some bz =>
    rw [hg] at h
    dsimp only at h ⊢
    rw [h, ok_bind]

theorem setLockByAddress_error {st : LockStore} {addr : AccAddress} {e : Fault Err}
    (h : getLocksByAddress st addr = .error e) (lock : Lock) :
    setLockByAddress st addr lock = .error e := by
  unfold getLocksByAddress at h
  unfold setLockByAddress
  dsimp only
  cases hg : st.get (getLocksByAddressKey addr) with
  | none =>
    rw [hg] at h
    cases h
  | some bz =>
    rw [hg] at h
    dsimp only at h ⊢
    rw [h, error_bind]

theorem getLockByAddressAndDate_eq {st : LockStore} {addr : AccAddress} {locks : List Lock}
    (h : getLocksByAddress st addr = .ok locks) (unlockDate : Bytes) :
    getLockByAddressAndDate st addr unlockDate = lookupFrom Lock.unlockDate unlockDate 0 locks := by
  unfold getLockByAddressAndDate
  rw [h]

theorem index_in_bounds {locks : List Lock} {i : ℕ} {lock : Lock} (hi : locks[i]? = some lock) :
    ¬ ((i : ℤ) < 0 ∨ (locks.length : ℤ) ≤ i) := by
  obtain ⟨hlt, _⟩ := List.getElem?_eq_some_iff.mp hi
  omega

theorem deleteLockByAddressAndIndex_eq {st : LockStore} {addr : AccAddress} {locks : List Lock}
    {i : ℕ} {lock : Lock} (h : getLocksByAddress st addr = .ok locks) (hi : locks[i]? = some lock) :
    deleteLockByAddressAndIndex st addr i =
      .ok (setLocksByAddress st addr (locks.eraseIdx i)) := by
  unfold deleteLockByAddressAndIndex
  rw [h, ok_bind, failIf_of_not _ (index_in_bounds hi), ok_bind, Int.toNat_natCast]

theorem updateLockByAddressAndIndex_eq {st : LockStore} {addr : AccAddress} {locks : List Lock}
    {i : ℕ} {old : Lock} (h : getLocksByAddress st addr = .ok locks) (hi : locks[i]? = some old)
    (lock : Lock) :
    updateLockByAddressAndIndex st addr i lock =
      .ok (setLocksByAddress st addr (locks.set i lock)) := by
  unfold updateLockByAddressAndIndex
  rw [h, ok_bind, failIf_of_not _ (index_in_bounds hi), ok_bind, Int.toNat_natCast]

end Tsc.Lockup
