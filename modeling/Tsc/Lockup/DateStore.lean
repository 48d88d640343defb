import Tsc.Lockup.AddressStore

/-!
# The expiration queue (`x/lockup/keeper/locks_by_date_store.go`)

One amount per unlock time and account, under
`locks_by_date ++ big-endian unix seconds ++ address`. The seconds are the
64-bit pattern of a signed count, so times before 1970 sort after all others.
-/

namespace Tsc.Lockup

open Go Sdk Kv

/-- `binary.BigEndian.PutUint64(bz, uint64(seconds))`. -/
def timeBytes (seconds : ℤ) : Bytes := beBytes 8 (wrapU64 seconds).toNat

def getTotalLocked (st : LockStore) : Out ℤ :=
  match st.get totalLockedKey with
  | none => .ok 0
  | some bz => bz.unmarshalInt

def getLockExpirationKey (unlockTime : Time) (addr : AccAddress) : Bytes :=
  locksByDateKey ++ timeBytes unlockTime.unix ++ addr

def addToExpirationQueue (st : LockStore) (unlockTime : Time) (addr : AccAddress) (amount : ℤ) :
    Out LockStore := do
  let key := getLockExpirationKey unlockTime addr
  let currentAmount ← (match st.get key with
    | none => .ok 0
    | some bz => bz.unmarshalInt : Out ℤ)
  let newAmount ← intAdd currentAmount amount
  .ok (st.set key (.amount newAmount))

def removeFromExpirationQueue (st : LockStore) (unlockTime : Time) (addr : AccAddress)
    (amount : ℤ) : Out LockStore :=
  let key := getLockExpirationKey unlockTime addr
  match st.get key with
  | none => .ok st
  | some bz => do
    let currentAmount ← bz.unmarshalInt
    failIf (currentAmount < amount)
      (fail .errInvalidAmount "cannot remove %s from expiration queue, only %s available"
        [.int amount, .int currentAmount])
    let newAmount ← intSub currentAmount amount
    if newAmount = 0 then .ok (st.delete key) else .ok (st.set key (.amount newAmount))

def visitActiveLock {σ : Type} (cb : σ → AccAddress → Time → ℤ → Out σ) (s : σ)
    (e : Bytes × Value) : Out σ :=
  let prefixLen := locksByDateKey.length
  if e.1.length < prefixLen + 8 then .ok s
  else do
    let timeBz := (e.1.drop prefixLen).take 8
    let addrBz := e.1.drop (prefixLen + 8)
    let unlockTime : Time := ⟨wrap64 (beVal timeBz) * nanosPerSecond⟩
    let amount ← e.2.unmarshalInt
    cb s addrBz unlockTime amount

/-- `IterateActiveLocks`: from the second after `currentTime` to the end of the
module's store. -/
def iterateActiveLocks {σ : Type} (st : LockStore) (currentTime : Time)
    (cb : σ → AccAddress → Time → ℤ → Out σ) (s : σ) : Out σ :=
  let startKey := locksByDateKey ++ timeBytes (wrap64 (currentTime.unix + 1))
  forRange (visitActiveLock cb) s (st.iterator startKey none)

def visitExpiredLock {σ : Type} (cb : σ → AccAddress → Time → ℤ → Out σ) (s : LockStore × σ)
    (e : Bytes × Value) : Out (LockStore × σ) := do
  let prefixLen := locksByDateKey.length
  -- no test of the length here: key[prefixLen:prefixLen+8] and key[prefixLen+8:]
  failIf (e.1.length < prefixLen + 8) (.panic "slice bounds out of range")
  let timeBz := (e.1.drop prefixLen).take 8
  let addrBz := e.1.drop (prefixLen + 8)
  let unlockTime : Time := ⟨wrap64 (beVal timeBz) * nanosPerSecond⟩
  let amount ← e.2.unmarshalInt
  let s' ← cb s.2 addrBz unlockTime amount
  .ok (s.1.delete e.1, s')

/-- `IterateAndDeleteExpiredLocks`: from the first key of the queue to the second
after `cutoffTime`. The iterator runs over the store as it was when it was opened. -/
def iterateAndDeleteExpiredLocks {σ : Type} (st : LockStore) (cutoffTime : Time)
    (cb : σ → AccAddress → Time → ℤ → Out σ) (s : σ) : Out (LockStore × σ) :=
  let endKey := locksByDateKey ++ timeBytes (wrap64 (cutoffTime.unix + 1))
  forRange (visitExpiredLock cb) (st, s) (st.iterator locksByDateKey (some endKey))

/-! ### Keys -/

theorem timeBytes_length (seconds : ℤ) : (timeBytes seconds).length = 8 := beBytes_length 8 _

theorem beVal_timeBytes (seconds : ℤ) : (beVal (timeBytes seconds) : ℤ) = wrapU64 seconds := by
  obtain ⟨h0, h1⟩ := wrapU64_range seconds
  have hlt : (wrapU64 seconds).toNat < 256 ^ 8 := by norm_num; omega
  unfold timeBytes
  rw [beVal_beBytes, Nat.mod_eq_of_lt hlt]
  omega

theorem timeBytes_lt_iff {u v : ℤ} (hu : 0 ≤ u ∧ u < 18446744073709551616)
    (hv : 0 ≤ v ∧ v < 18446744073709551616) : timeBytes u < timeBytes v ↔ u < v := by
  have hu' := beVal_timeBytes u
  have hv' := beVal_timeBytes v
  rw [wrapU64_of_range hu] at hu'
  rw [wrapU64_of_range hv] at hv'
  rw [lt_iff_beVal_lt _ _ (by rw [timeBytes_length, timeBytes_length])]
  omega

theorem timeBytes_wrap64 (seconds : ℤ) : timeBytes (wrap64 seconds) = timeBytes seconds := by
  unfold timeBytes
  rw [wrapU64_wrap64]

/-- `locks_by_a...` sorts before `locks_by_d...`. -/
theorem addressKey_lt_locksByDateKey (a : AccAddress) :
    getLocksByAddressKey a < locksByDateKey := by
  have hsplit : getLocksByAddressKey a = ascii "locks_by_" ++ (97 :: (ascii "ddress" ++ a)) := rfl
  have hdate : locksByDateKey = ascii "locks_by_" ++ (100 :: ascii "ate") := rfl
  rw [hsplit, hdate, append_left_lt_iff]
  exact List.Lex.rel (by decide)

theorem locksByDateKey_le (bz : Bytes) : locksByDateKey ≤ locksByDateKey ++ bz := by
  have hnil := append_left_lt_iff locksByDateKey bz []
  rw [List.append_nil] at hnil
  rw [← not_lt, hnil]
  exact List.not_lt_nil bz

section Key

variable (t : Time) (a : AccAddress)

theorem getLockExpirationKey_eq :
    getLockExpirationKey t a = locksByDateKey ++ (timeBytes t.unix ++ a) := List.append_assoc ..

theorem locksByDateKey_le_key : locksByDateKey ≤ getLockExpirationKey t a := by
  rw [getLockExpirationKey_eq]
  exact locksByDateKey_le _

theorem getLockExpirationKey_length :
    ¬ (getLockExpirationKey t a).length < locksByDateKey.length + 8 := by
  unfold getLockExpirationKey
  rw [List.length_append, List.length_append, timeBytes_length]
  omega

theorem getLockExpirationKey_time :
    ((getLockExpirationKey t a).drop locksByDateKey.length).take 8 = timeBytes t.unix := by
  rw [getLockExpirationKey_eq, List.drop_left, ← timeBytes_length t.unix, List.take_left]

theorem getLockExpirationKey_addr :
    (getLockExpirationKey t a).drop (locksByDateKey.length + 8) = a := by
  have hlen : locksByDateKey.length + 8 = (locksByDateKey ++ timeBytes t.unix).length := by
    rw [List.length_append, timeBytes_length]
  unfold getLockExpirationKey
  rw [hlen, List.drop_left]

end Key

theorem addressKey_ne_dateKey (a b : AccAddress) (t : Time) :
    getLocksByAddressKey a ≠ getLockExpirationKey t b :=
  ne_of_lt ((addressKey_lt_locksByDateKey a).trans_le (locksByDateKey_le_key t b))

/-- The seconds of a time from 1970 on that a key can hold. -/
def FromEpoch (t : Time) : Prop := 0 ≤ t.unix ∧ t.unix ≤ maxInt64

instance (t : Time) : Decidable (FromEpoch t) := inferInstanceAs (Decidable (_ ∧ _))

section Order

variable {t t' : Time} (h : FromEpoch t) (a a' : AccAddress)
include h

theorem FromEpoch.key_lt_iff {seconds : ℤ} (hs : 0 ≤ seconds ∧ seconds ≤ maxInt64 + 1) :
    getLockExpirationKey t a < locksByDateKey ++ timeBytes seconds ↔ t.unix < seconds := by
  have hcmp := append_lt_append_iff (timeBytes t.unix) (timeBytes seconds) a []
    (by rw [timeBytes_length, timeBytes_length])
  rw [List.append_nil] at hcmp
  unfold FromEpoch maxInt64 at h
  unfold maxInt64 at hs
  rw [getLockExpirationKey_eq, append_left_lt_iff, hcmp, timeBytes_lt_iff (by omega) (by omega)]
  exact or_iff_left fun hlt => List.not_lt_nil a hlt.2

/-- Keys are ordered by time, then by account. -/
theorem FromEpoch.key_lt_key_iff (h' : FromEpoch t') :
    getLockExpirationKey t a < getLockExpirationKey t' a' ↔
      t.unix < t'.unix ∨ (timeBytes t.unix = timeBytes t'.unix ∧ a < a') := by
  unfold FromEpoch maxInt64 at h h'
  rw [getLockExpirationKey_eq, getLockExpirationKey_eq, append_left_lt_iff, append_lt_append_iff _ _
    _ _ (by rw [timeBytes_length, timeBytes_length]), timeBytes_lt_iff (by omega) (by omega)]

end Order

/-! ### Times read back -/

/-- A whole number of seconds that fits an `int64`. -/
structure WholeSeconds (t : Time) : Prop where
  fits : minInt64 ≤ t.unix ∧ t.unix ≤ maxInt64
  whole : Time.ofUnix t.unix = t

instance (t : Time) : Decidable (WholeSeconds t) :=
  decidable_of_iff ((minInt64 ≤ t.unix ∧ t.unix ≤ maxInt64) ∧ Time.ofUnix t.unix = t)
    ⟨fun h => ⟨h.1, h.2⟩, fun h => ⟨h.fits, h.whole⟩⟩

theorem WholeSeconds.readBack {t : Time} (h : WholeSeconds t) :
    Time.ofUnix (wrap64 (beVal (timeBytes t.unix))) = t := by
  rw [beVal_timeBytes, wrap64_wrapU64 h.fits, h.whole]

/-- A key determines time and account. -/
theorem WholeSeconds.key_injective {t t' : Time} {a a' : AccAddress} (h : WholeSeconds t)
    (h' : WholeSeconds t') (he : getLockExpirationKey t a = getLockExpirationKey t' a') :
    t = t' ∧ a = a' := by
  rw [getLockExpirationKey_eq, getLockExpirationKey_eq] at he
  obtain ⟨htime, haddr⟩ := List.append_inj (List.append_cancel_left he)
    (by rw [timeBytes_length, timeBytes_length])
  have hback := h'.readBack
  rw [← htime, h.readBack] at hback
  exact ⟨hback, haddr⟩

theorem unix_of_parse {d : Bytes} {t : Time} (h : parseDateOnly d = some t) :
    t.unix = 86400 * t.dayNumber := by
  have ht := Time.unix_ofDay t.dayNumber
  rwa [← parseDateOnly_ofDay h] at ht

/-- Parsed dates are whole days within years 0 to 9999. -/
theorem WholeSeconds.of_parse {d : Bytes} {t : Time} (h : parseDateOnly d = some t) :
    WholeSeconds t := by
  have hr := parseDateOnly_range h
  refine ⟨?_, ?_⟩
  · rw [unix_of_parse h]
    unfold minInt64 maxInt64
    omega
  · rw [unix_of_parse h, parseDateOnly_ofDay h, Time.dayNumber_ofDay]
    unfold Time.ofUnix Time.ofDay nanosPerSecond nanosPerDay
    congr 1
    omega

theorem FromEpoch.of_parse {d : Bytes} {t : Time} (h : parseDateOnly d = some t)
    (h0 : 0 ≤ t.dayNumber) : FromEpoch t := by
  refine ⟨?_, (WholeSeconds.of_parse h).fits.2⟩
  rw [unix_of_parse h]
  omega

theorem getLockExpirationKey_injective {d d' : Bytes} {t t' : Time} {a a' : AccAddress}
    (h : parseDateOnly d = some t) (h' : parseDateOnly d' = some t')
    (he : getLockExpirationKey t a = getLockExpirationKey t' a') : d = d' ∧ a = a' := by
  obtain ⟨ht, ha⟩ := (WholeSeconds.of_parse h).key_injective (.of_parse h') he
  rw [ht] at h
  exact ⟨parseDateOnly_injective h h', ha⟩

end Tsc.Lockup
