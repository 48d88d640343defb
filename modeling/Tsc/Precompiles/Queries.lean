import Tsc.Lockup.LockQueries
import Tsc.Lockup.Locking
import Tsc.Precompiles.Lockup

/-!
# The locks method of the lockup precompile (`precompiles/lockup/query.go`)

`Locks` asks the query server for the locks of an address and packs what it gets. It
sends no page request, so it gets the first 100 active locks. An account can have an
active lock for each of the 730 days of the horizon.
-/

namespace Tsc.Precompiles

open Go Sdk Kv Lockup Staking

variable {W : Type}

structure LockInfoOutput where
  unlockDate : Bytes
  denom : Bytes
  amount : ℤ
  deriving DecidableEq

def lockInfo (lock : LockResource) : LockInfoOutput :=
  ⟨lock.unlockDate, lock.amount.denom, lock.amount.amount⟩

/-- `Precompile.Locks`; `pack` is `method.Outputs.Pack`. -/
def precompileLocks (k : Keepers W) (H : Host) (pack : List LockInfoOutput → Out Bytes) (ctx : Ctx)
    (st : LockStore) (w : W) (args : List AbiArg) : Out Bytes :=
  match args with
  | [lockAddress] =>
    match lockAddress with
    | .address lockAddress => do
      let bech32Addr := H.accString lockAddress
      let res ← locksQuery k H.validDenom ctx st w (some ⟨bech32Addr, none⟩)
      pack (res.locks.map lockInfo)
    | _ => .error (fail .plain "invalid lock address: %v" [])
  | _ => .error (fail .plain "invalid number of arguments; expected %d; got: %d"
      [.int 1, .int args.length])

/-- The stored locks of an address that are not over. -/
def activeLocks (ctx : Ctx) (st : LockStore) (a : AccAddress) : List Lock :=
  (locksOf st a).filter fun e => isLocked ctx.blockDay e.unlockDate

def activeInfos (ctx : Ctx) (st : LockStore) (bondDenom : Bytes) (a : AccAddress) :
    List LockInfoOutput :=
  (activeLocks ctx st a).map fun e => ⟨e.unlockDate, bondDenom, e.amount⟩

/-- The list the method packs has every active lock once, and its amounts add up to
what `GetLockedAmountByAddress` returns (which fails on more than 256 bits). -/
structure ShowsActive (k : Keepers W) (H : Host) (ctx : Ctx) (st : LockStore) (w : W)
    (bondDenom : Bytes) (a : AccAddress) (shown : List LockInfoOutput) : Prop where
  packed : ∀ pack, precompileLocks k H pack ctx st w [.address a] = pack shown
  once : ∀ e ∈ activeLocks ctx st a, shown.count ⟨e.unlockDate, bondDenom, e.amount⟩ = 1
  amounts : ∀ locked, getLockedAmountByAddress ctx st a = .ok locked ↔
    locked = (shown.map LockInfoOutput.amount).sum ∧ locked < intBound

section Locks

variable {k : Keepers W} {H : Host} {ctx : Ctx} {st : LockStore} {w : W} {bondDenom : Bytes}
  {a : AccAddress} {L : Ledger}

theorem activeInfos_eq (hL : Encodes st L) :
    (activeResources ctx bondDenom (L a).locks).map lockInfo = activeInfos ctx st bondDenom a := by
  unfold activeResources activeInfos activeLocks
  rw [List.map_map, locksOf_eq (hL.getLocksByAddress a)]
  rfl

/-- The query without a page request answers with the first 100. -/
theorem precompileLocks_eq (hL : Encodes st L) (ctx : Ctx) (hbond : k.bondDenom w = .ok bondDenom)
    (hdenom : H.validDenom bondDenom = true) (hne : H.accString a ≠ [])
    (haddr : k.accAddressFromBech32 (H.accString a) = .ok a) (pack : List LockInfoOutput → Out Bytes) :
    precompileLocks k H pack ctx st w [.address a] =
      pack ((activeInfos ctx st bondDenom a).take 100) := by
  have hpage : locksPage k H.validDenom ctx st w (H.accString a) none =
      .ok (exactPage none (activeResources ctx bondDenom (L a).locks)) := by
    rw [locksPage_eq hL.unsigned hbond hdenom hne haddr (hL.getLocksByAddress a)]
    exact offsetPage_of_inRange ⟨Nat.zero_le _, by decide⟩
  obtain ⟨res, hres, hlocks⟩ := (bind_eq_ok _ _ _).mp hpage
  have hfirst : res.locks = (activeResources ctx bondDenom (L a).locks).take 100 :=
    congrArg Prod.fst (Except.ok.inj hlocks)
  simp only [precompileLocks, hres, ok_bind]
  rw [hfirst, List.map_take, activeInfos_eq hL]

theorem activeInfos_nodup (hL : Encodes st L) : (activeInfos ctx st bondDenom a).Nodup := by
  apply List.Nodup.of_map LockInfoOutput.unlockDate
  unfold activeInfos activeLocks
  rw [List.map_map, locksOf_eq (hL.getLocksByAddress a)]
  exact ((L a).wellFormed.dates_nodup).sublist (List.filter_sublist.map _)

theorem activeInfos_amounts (hL : Encodes st L) (locked : ℤ) :
    getLockedAmountByAddress ctx st a = .ok locked ↔
      locked = ((activeInfos ctx st bondDenom a).map LockInfoOutput.amount).sum ∧
        locked < intBound := by
  rw [getLockedAmountByAddress_iff hL, activeAfter, ← LockList.filter_isLocked]
  unfold activeInfos activeLocks
  rw [List.map_map, locksOf_eq (hL.getLocksByAddress a)]
  rfl

end Locks

/-- In every reachable state, at every block time and for every address, the list the
method packs is complete exactly if no more than 100 locks are active. -/
theorem locks_precompile_complete_iff (k : Keepers W) (H : Host) {t₀ t : BlockTime} {st : LockStore}
    (h : Reachable k t₀ t st) (ctx : Ctx) (w : W) (bondDenom : Bytes)
    (hbond : k.bondDenom w = .ok bondDenom) (hdenom : H.validDenom bondDenom = true)
    (a : AccAddress) (hne : H.accString a ≠ [])
    (haddr : k.accAddressFromBech32 (H.accString a) = .ok a) :
    (∃ shown, ShowsActive k H ctx st w bondDenom a shown) ↔
      (activeLocks ctx st a).length ≤ 100 := by
  obtain ⟨L, hL, _⟩ := h.encodes
  have hpacked := precompileLocks_eq hL ctx hbond hdenom hne haddr
  have hnodup : (activeInfos ctx st bondDenom a).Nodup := activeInfos_nodup hL
  have hlength : (activeInfos ctx st bondDenom a).length = (activeLocks ctx st a).length :=
    List.length_map _
  rw [← hlength, ← count_take_eq_one_iff hnodup]
  constructor
  · rintro ⟨shown, hshown⟩
    -- `pack` is arbitrary, so the list it is given is determined
    have hsame : (activeInfos ctx st bondDenom a).take 100 = shown := by
      have hpack := (hpacked fun l => .ok (if l = shown then [] else [1])).symm.trans
        (hshown.packed _)
      simpa using hpack
    rw [hsame]
    intro x hx
    obtain ⟨e, he, rfl⟩ := List.mem_map.mp hx
    exact hshown.once e he
  · intro hone
    refine ⟨_, hpacked, fun e he => hone _ (List.mem_map.mpr ⟨e, he, rfl⟩), ?_⟩
    rw [List.take_of_length_le ((count_take_eq_one_iff hnodup 100).mp hone)]
    exact activeInfos_amounts hL

/-! ### A lock for every day -/

/-- `d` has 1000 with validator `A`. -/
def oneValidator : State where
  bondDenom := ascii "tsc"
  validators := ⟨[(ascii "A", ⟨ascii "A", 1000, 1000⟩)], List.pairwise_singleton _ _⟩
  delegations := ⟨[(toLex (ascii "d", ascii "A"), 1000)], List.pairwise_singleton _ _⟩
  balance := fun _ _ => 0
  pool := 1000

/-- The date `n` days after new year. -/
def daysAfter (n : ℕ) : Bytes := formatDateOnly (Time.ofDay (newYear.blockTime.day + n))

theorem parse_daysAfter {n : ℕ} (hn : n ≤ 500) :
    parseDateOnly (daysAfter n) = some (Time.ofDay (newYear.blockTime.day + n)) := by
  have hday : newYear.blockTime.day = 20454 := by decide
  exact parseDateOnly_formatDateOnly (civilOfDays_year_digits (by omega))

/-- One unit of `d` is locked until each of the first `n` days after new year. -/
structure DailyLocks (n : ℕ) (st : LockStore) (L : Ledger) : Prop where
  encodes : Encodes st L
  length : (L (ascii "d")).locks.length = n
  entries : ∀ e ∈ (L (ascii "d")).locks, newYear.blockTime.day < dayOf e.unlockDate ∧
    dayOf e.unlockDate ≤ newYear.blockTime.day + n ∧ e.amount = 1

theorem DailyLocks.filter_eq {n : ℕ} {st : LockStore} {L : Ledger} (h : DailyLocks n st L) :
    ((L (ascii "d")).locks.filter fun e => newYear.blockTime.day < dayOf e.unlockDate) =
      (L (ascii "d")).locks := by
  rw [List.filter_eq_self]
  intro e he
  exact decide_eq_true (h.entries e he).1

theorem DailyLocks.active {n : ℕ} {st : LockStore} {L : Ledger} (h : DailyLocks n st L) :
    activeLocks newYear st (ascii "d") = (L (ascii "d")).locks := by
  unfold activeLocks
  rw [locksOf_eq (h.encodes.getLocksByAddress _), LockList.filter_isLocked, h.filter_eq]

theorem sum_ones {l : List Lock} (h : ∀ e ∈ l, e.amount = 1) :
    (l.map Lock.amount).sum = l.length := by
  rw [List.map_congr_left h, List.map_const', List.sum_replicate, nsmul_eq_mul, mul_one]

theorem DailyLocks.locked {n : ℕ} {st : LockStore} {L : Ledger} (h : DailyLocks n st L)
    (hn : n ≤ 500) : getLockedAmountByAddress newYear st (ascii "d") = .ok (n : ℤ) := by
  have hbound : (500 : ℤ) < intBound := by decide
  rw [getLockedAmountByAddress_iff h.encodes, activeAfter, h.filter_eq,
    sum_ones fun e he => (h.entries e he).2.2, h.length]
  exact ⟨rfl, by omega⟩

def lockOne (n : ℕ) : MsgLock := ⟨accText (ascii "d"), daysAfter n, tsc 1⟩

/-- Locking one unit until the next day, which has no lock yet. -/
theorem daily_step {n : ℕ} (hn : n < 500) {st : LockStore} {L : Ledger} (h : DailyLocks n st L) :
    ∃ st' L', lock (readers chain) newYear st oneValidator (lockOne (n + 1)) = .ok st' ∧
      DailyLocks (n + 1) st' L' := by
  have hhorizon : newYear.blockTime.horizon = newYear.blockTime.day + 730 := by decide +kernel
  have hdelegated : getTotalDelegatedAmount (readers chain) oneValidator (ascii "d") =
      .ok 1000 := by decide +kernel
  have hparse := parse_daysAfter (Nat.succ_le_of_lt hn)
  have hday : dayOf (daysAfter (n + 1)) = newYear.blockTime.day + (n + 1) := by
    rw [dayOf_eq hparse, Time.dayNumber_ofDay]
    push_cast
    ring
  have hroom : (n : ℤ) + (lockOne (n + 1)).amount.amount ≤ 1000 := by
    show (n : ℤ) + 1 ≤ 1000
    omega
  obtain ⟨st', hst'⟩ : ∃ st', lock (readers chain) newYear st oneValidator (lockOne (n + 1)) =
      .ok st' :=
    lock_succeeds h.encodes rfl (readText_accText (ascii "d")) zero_lt_one hparse
      (by rw [Time.dayNumber_ofDay]; omega) (by rw [Time.dayNumber_ofDay]; omega) (h.locked hn.le)
      hdelegated hroom
  obtain ⟨a, t, st₁, ha, hx, ht, _, _, hmerge, hqueue⟩ := lock_ok _ hst'
  cases (readText_accText (ascii "d")).symm.trans ha
  have hnew : ¬ HasDate (daysAfter (n + 1)) (L (ascii "d")).locks := by
    rintro ⟨e, he, heq⟩
    have hle := (h.entries e he).2.1
    rw [heq, hday] at hle
    omega
  have hperm : (addLocks (daysAfter (n + 1)) 1 (L (ascii "d")).locks).Perm
      (⟨daysAfter (n + 1), 1⟩ :: (L (ascii "d")).locks) := by
    rw [addLocks_of_not_hasDate hnew]
    exact insertBefore_perm _ _ _
  have hself : (Function.update L (ascii "d") ((L (ascii "d")).add (daysAfter (n + 1)) 1 ht hx)
      (ascii "d")).locks = addLocks (daysAfter (n + 1)) 1 (L (ascii "d")).locks := by
    rw [Function.update_self]
    rfl
  refine ⟨st', _, hst', lock_encodes h.encodes hx ht hmerge hqueue, ?_, ?_⟩
  · refine (congrArg List.length hself).trans (hperm.length_eq.trans ?_)
    rw [List.length_cons, h.length]
  · intro e he
    have hmem := hperm.mem_iff.mp (hself ▸ he)
    rw [Nat.cast_succ]
    rcases List.mem_cons.mp hmem with rfl | he
    · refine ⟨?_, hday.le, rfl⟩
      show newYear.blockTime.day < dayOf (daysAfter (n + 1))
      omega
    · obtain ⟨hlt, hle, hone⟩ := h.entries e he
      exact ⟨hlt, by omega, hone⟩

theorem daily_run {n : ℕ} (hn : n ≤ 500) :
    ∃ st L, Reachable (readers chain) newYear.blockTime newYear.blockTime st ∧
      DailyLocks n st L := by
  induction n with
  | zero =>
    refine ⟨Store.empty, Ledger.empty, Run.start, encodes_empty, rfl, ?_⟩
    intro e he
    cases he
  | succ n ih =>
    obtain ⟨st, L, hrun, h⟩ := ih (by omega)
    obtain ⟨st', L', hlock, h'⟩ := daily_step (by omega) h
    have hadm : (Message.lock (lockOne (n + 1))).Admissible := trivial
    have hok : deliver (readers chain) newYear st oneValidator (.lock (lockOne (n + 1))) =
        .ok (st', oneValidator) := by
      simp only [deliver, hlock, ok_bind]
    exact ⟨st', L', Run.message hrun (le_refl _) hadm hok, h'⟩

theorem locks_precompile_complete_hundred :
    ∃ st, Reachable (readers chain) newYear.blockTime newYear.blockTime st ∧
      (activeLocks newYear st (ascii "d")).length = 100 ∧
      ∃ shown, ShowsActive (readers chain) chainHost newYear st oneValidator (ascii "tsc")
        (ascii "d") shown := by
  obtain ⟨st, L, hrun, h⟩ := daily_run (by decide : 100 ≤ 500)
  have hlength : (activeLocks newYear st (ascii "d")).length = 100 := by rw [h.active, h.length]
  exact ⟨st, hrun, hlength, (locks_precompile_complete_iff (readers chain) chainHost hrun newYear
    oneValidator (ascii "tsc") rfl (by decide) (ascii "d") (by decide +kernel)
    (readText_accText (ascii "d"))).mpr hlength.le⟩

/-- With 101 active locks of one unit each, the method packs 100 of them. -/
theorem precompile_hides_lock :
    ∃ st shown, Reachable (readers chain) newYear.blockTime newYear.blockTime st ∧
      (activeLocks newYear st (ascii "d")).length = 101 ∧
      getLockedAmountByAddress newYear st (ascii "d") = .ok 101 ∧
      (∀ pack, precompileLocks (readers chain) chainHost pack newYear st oneValidator
        [.address (ascii "d")] = pack shown) ∧
      shown.length = 100 ∧ (shown.map LockInfoOutput.amount).sum = 100 := by
  obtain ⟨st, L, hrun, h⟩ := daily_run (by decide : 101 ≤ 500)
  have hlength : (activeLocks newYear st (ascii "d")).length = 101 := by rw [h.active, h.length]
  have htake : ((activeLocks newYear st (ascii "d")).take 100).length = 100 := by
    rw [List.length_take, hlength]
    rfl
  have hones : ∀ e ∈ (activeLocks newYear st (ascii "d")).take 100, e.amount = 1 := by
    intro e he
    rw [h.active] at he
    exact (h.entries e (List.mem_of_mem_take he)).2.2
  have hamounts : (((activeInfos newYear st (ascii "tsc") (ascii "d")).take 100).map
      LockInfoOutput.amount) = ((activeLocks newYear st (ascii "d")).take 100).map Lock.amount := by
    unfold activeInfos
    rw [← List.map_take, List.map_map]
    rfl
  refine ⟨st, (activeInfos newYear st (ascii "tsc") (ascii "d")).take 100, hrun, hlength,
    h.locked (by decide), precompileLocks_eq h.encodes newYear rfl (by decide)
      (by decide +kernel) (readText_accText (ascii "d")), ?_, ?_⟩
  · unfold activeInfos
    rw [← List.map_take, List.length_map, htake]
  · rw [hamounts, sum_ones hones, htake]
    rfl

end Tsc.Precompiles
