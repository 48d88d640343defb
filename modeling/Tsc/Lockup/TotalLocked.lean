import Tsc.Lockup.Invariants
import Mathlib.Algebra.BigOperators.Finprod

/-!
# The total locked amount (`x/lockup/keeper/query_server.go:119-148`)

`TotalLockedAmount` scans the store from the key of the second after the block
day's midnight to the end of the store. Address keys sort before that key, and
with dates from 1970 on the queue's keys sort by time, so the scan visits the
queue entries of the locks that are active, each once, and nothing else.
-/

namespace Tsc.Lockup

open Go Sdk Kv Staking

variable {W : Type}

/-- `req` is a pointer; the request has no fields. -/
def totalLockedAmount (k : Keepers W) (validDenom : Bytes → Bool) (ctx : Ctx) (st : LockStore)
    (w : W) (req : Option Unit) : Out Coin := do
  let _ ← ofOption (fail .statusInvalidArgument "invalid request" []) req
  let totalLocked ← wrapErr .statusInternal "%s"
    (iterateActiveLocks st ctx.blockDay (fun totalLocked _ _ amount => intAdd totalLocked amount) 0)
  let bondDenom ← wrapErr .errInvalidType "invalid bond denom: %s" (k.bondDenom w)
  newCoin validDenom bondDenom totalLocked

/-! ### Where the scan starts -/

def scanStart (ctx : Ctx) : Bytes := locksByDateKey ++ timeBytes (wrap64 (ctx.blockDay.unix + 1))

theorem addressKey_lt_scanStart (ctx : Ctx) (a : AccAddress) :
    getLocksByAddressKey a < scanStart ctx :=
  (addressKey_lt_locksByDateKey a).trans_le (locksByDateKey_le _)

theorem scanStart_le_iff {ctx : Ctx} (h : 0 ≤ ctx.blockTime.day) {d : Bytes} {u : Time}
    (hd : parseDateOnly d = some u) (hu : 0 ≤ u.dayNumber) (a : AccAddress) :
    scanStart ctx ≤ getLockExpirationKey u a ↔ ctx.blockTime.day < u.dayNumber := by
  have hr := ctx.blockTime.day_range
  unfold scanStart
  rw [timeBytes_wrap64, Ctx.blockDay_eq, Time.unix_ofDay, ← not_lt,
    (FromEpoch.of_parse hd hu).key_lt_iff a (by unfold maxInt64; omega), unix_of_parse hd]
  omega

/-! ### What the scan visits -/

def Value.queued : Value → ℤ
  | .amount x => x
  | .locks _ => 0

def activeEntries (n : ℤ) (L : Ledger) (a : AccAddress) : List (Bytes × Value) :=
  ((L a).locks.filter fun e => n < dayOf e.unlockDate).map fun e =>
    (getLockExpirationKey (Time.ofDay (dayOf e.unlockDate)) a, .amount e.amount)

theorem ofDay_dayOf {d : Bytes} {u : Time} (h : parseDateOnly d = some u) :
    Time.ofDay (dayOf d) = u := by
  rw [dayOf_eq h]
  exact (parseDateOnly_ofDay h).symm

theorem mem_activeEntries {n : ℤ} {L : Ledger} {a : AccAddress} {key : Bytes} {v : Value} :
    (key, v) ∈ activeEntries n L a ↔ ∃ d u, parseDateOnly d = some u ∧ n < u.dayNumber ∧
      0 < amountOn d (L a).locks ∧ key = getLockExpirationKey u a ∧
      v = .amount (amountOn d (L a).locks) := by
  have hwf := (L a).wellFormed
  unfold activeEntries
  rw [List.mem_map]
  constructor
  · intro h
    obtain ⟨e, he, heq⟩ := h
    obtain ⟨hmem, hday⟩ := List.mem_filter.mp he
    obtain ⟨u, hu⟩ := hwf.parses e hmem
    obtain ⟨hpos, hamount⟩ := (hwf.mem_iff e).mp hmem
    rw [ofDay_dayOf hu] at heq
    cases heq
    refine ⟨e.unlockDate, u, hu, ?_, ?_, rfl, by rw [hamount]⟩
    · rw [← dayOf_eq hu]
      simpa using hday
    · rw [hamount]
      exact hpos
  · intro h
    obtain ⟨d, u, hd, hday, hpos, hkey, hv⟩ := h
    have hmem := (hwf.mem_iff ⟨d, amountOn d (L a).locks⟩).mpr ⟨hpos, rfl⟩
    refine ⟨_, List.mem_filter.mpr ⟨hmem, ?_⟩, ?_⟩
    · rw [dayOf_eq hd]
      simpa using hday
    · rw [ofDay_dayOf hd, hkey, hv]

theorem activeEntries_nodup (n : ℤ) (L : Ledger) (a : AccAddress) : (activeEntries n L a).Nodup := by
  have hwf := (L a).wellFormed
  unfold activeEntries
  rw [List.Nodup, List.pairwise_map]
  apply List.Pairwise.imp_of_mem _ (hwf.ascending.filter Lock.unlockDate _)
  intro e f he hf hlt heq
  obtain ⟨u, hu⟩ := hwf.parses e (List.mem_of_mem_filter he)
  obtain ⟨v, hv⟩ := hwf.parses f (List.mem_of_mem_filter hf)
  rw [ofDay_dayOf hu, ofDay_dayOf hv] at heq
  have hkey := congrArg Prod.fst heq
  exact absurd (getLockExpirationKey_injective hu hv hkey).1 (ne_of_lt hlt)

section Scan

variable {st : LockStore} {L : Ledger} {ctx : Ctx} (h : Encodes st L) (hafter : Ledger.After 0 L)
  (hday : 0 ≤ ctx.blockTime.day)
include h

omit hafter hday in
theorem Encodes.finite_accounts : {a | (L a).locks ≠ []}.Finite := by
  have himage : (Set.image getLocksByAddressKey {a | (L a).locks ≠ []}).Finite := by
    apply (List.finite_toSet (st.entries.map Prod.fst)).subset
    intro key hkey
    obtain ⟨a, ha, heq⟩ := hkey
    have hget := h.byAddress a
    rw [if_neg ha, Store.get_eq_some_iff, heq] at hget
    exact List.mem_map.mpr ⟨_, hget, rfl⟩
  apply Set.Finite.of_finite_image himage
  intro a _ b _ hab
  exact getLocksByAddressKey_injective hab

include hafter hday

theorem Encodes.mem_scan (e : Bytes × Value) :
    e ∈ st.iterator (scanStart ctx) none ↔ ∃ a, e ∈ activeEntries ctx.blockTime.day L a := by
  obtain ⟨key, v⟩ := e
  rw [Store.mem_iterator]
  simp only [Option.mem_def, reduceCtorEq, false_implies, implies_true, and_true]
  constructor
  · intro hscan
    obtain ⟨hget, hle⟩ := hscan
    rcases h.onlyKeys key v hget with ⟨a, hkey⟩ | ⟨d, u, a, hd, hkey⟩
    · -- a key of the address index sorts before the scan
      rw [hkey] at hle
      exact absurd (addressKey_lt_scanStart ctx a) (not_lt.mpr hle)
    · rw [hkey, h.byDate d u a hd] at hget
      rw [hkey] at hle
      have hnn := amountOn_nonneg (L a).wellFormed d
      unfold Ledger.amounts at hget
      split_ifs at hget with h0
      cases hget
      have hpos : 0 < amountOn d (L a).locks := by omega
      have hu := hafter a d hpos
      rw [dayOf_eq hd] at hu
      rw [scanStart_le_iff hday hd (by omega)] at hle
      exact ⟨a, mem_activeEntries.mpr ⟨d, u, hd, hle, hpos, hkey, rfl⟩⟩
  · intro hactive
    obtain ⟨a, ha⟩ := hactive
    obtain ⟨d, u, hd, hlt, hpos, hkey, hv⟩ := mem_activeEntries.mp ha
    have hget := h.byDate d u a hd
    unfold Ledger.amounts at hget
    rw [if_neg (by omega)] at hget
    rw [hkey, hv]
    exact ⟨hget, (scanStart_le_iff hday hd (by omega) a).mpr hlt⟩

theorem Encodes.scan_perm :
    (st.iterator (scanStart ctx) none).Perm
      (h.finite_accounts.toFinset.toList.flatMap (activeEntries ctx.blockTime.day L)) := by
  apply (List.perm_ext_iff_of_nodup ((st.iterator_ascending _ _).nodup _) _).mpr
  · intro e
    rw [h.mem_scan hafter hday e, List.mem_flatMap]
    constructor
    · intro hactive
      obtain ⟨a, ha⟩ := hactive
      refine ⟨a, ?_, ha⟩
      rw [Finset.mem_toList, Set.Finite.mem_toFinset]
      intro hnil
      unfold activeEntries at ha
      rw [hnil] at ha
      cases ha
    · intro hactive
      obtain ⟨a, _, ha⟩ := hactive
      exact ⟨a, ha⟩
  · rw [List.nodup_flatMap]
    refine ⟨fun a _ => activeEntries_nodup _ L a, ?_⟩
    apply List.Pairwise.imp _ (Finset.nodup_toList _)
    intro a b hab e ha hb
    obtain ⟨d, u, hd, _, _, hkey, _⟩ := mem_activeEntries.mp ha
    obtain ⟨d', u', hd', _, _, hkey', _⟩ := mem_activeEntries.mp hb
    exact hab (getLockExpirationKey_injective hd hd' (hkey.symm.trans hkey')).2

theorem Encodes.scan_sum :
    ((st.iterator (scanStart ctx) none).map fun e => e.2.queued).sum =
      ∑ᶠ a, activeAfter ctx.blockTime.day (L a).locks := by
  have hsupp : Function.support (fun a => activeAfter ctx.blockTime.day (L a).locks) ⊆
      h.finite_accounts.toFinset := by
    intro a ha
    simp only [Finset.mem_coe, Set.Finite.mem_toFinset, Set.mem_ofPred_eq]
    intro hnil
    apply ha
    dsimp only
    rw [hnil]
    rfl
  rw [finsum_eq_sum_of_support_subset _ hsupp, ← Finset.sum_map_toList,
    ((h.scan_perm hafter hday).map _).sum_eq, List.map_flatMap, List.flatMap_def, List.sum_flatten,
    List.map_map]
  congr 1
  apply List.map_congr_left
  intro a _
  simp only [Function.comp_apply, activeEntries, List.map_map]
  rfl

theorem Encodes.iterateActiveLocks_eq :
    iterateActiveLocks st ctx.blockDay (fun totalLocked _ _ amount => intAdd totalLocked amount) 0 =
      forRange (fun acc e => intAdd acc e.2.queued) 0 (st.iterator (scanStart ctx) none) := by
  unfold iterateActiveLocks
  apply forRange_congr
  intro e he s
  obtain ⟨a, ha⟩ := (h.mem_scan hafter hday e).mp he
  obtain ⟨key, v⟩ := e
  obtain ⟨d, u, _, _, _, hkey, hv⟩ := mem_activeEntries.mp ha
  subst hkey
  subst hv
  have hlen := getLockExpirationKey_length u a
  simp only [visitActiveLock, if_neg hlen, Value.unmarshalInt, Value.queued, ok_bind]

theorem Encodes.totalLockedAmount_iff {W : Type} (k : Keepers W) (validDenom : Bytes → Bool)
    (w : W) (denom : Bytes) (total : ℤ) :
    totalLockedAmount k validDenom ctx st w (some ()) = .ok ⟨denom, total⟩ ↔
      (k.bondDenom w = .ok denom ∧ validDenom denom = true) ∧
        total = ∑ᶠ a, activeAfter ctx.blockTime.day (L a).locks ∧ total < intBound := by
  have hnn : ∀ e ∈ st.iterator (scanStart ctx) none, 0 ≤ e.2.queued := by
    intro e he
    obtain ⟨a, ha⟩ := (h.mem_scan hafter hday e).mp he
    obtain ⟨key, v⟩ := e
    obtain ⟨d, u, _, _, hpos, _, hv⟩ := mem_activeEntries.mp ha
    subst hv
    exact hpos.le
  have hloop := forRange_intAdd_iff _ _ 0 (le_refl 0) intBound_pos hnn total
  rw [h.scan_sum hafter hday, zero_add] at hloop
  simp only [totalLockedAmount, ofOption, ok_bind, bind_eq_ok, wrapErr_eq_ok,
    h.iterateActiveLocks_eq hafter hday, newCoin_eq_ok, Coin.mk.injEq]
  constructor
  · intro hr
    obtain ⟨y, hy, bond, hbond, ⟨hvalid, _⟩, rfl, rfl⟩ := hr
    have hval := hloop.mp hy
    exact ⟨⟨hbond, hvalid⟩, hval.1, hval.1 ▸ hval.2⟩
  · intro hr
    obtain ⟨⟨hbond, hvalid⟩, htotal, hlt⟩ := hr
    have h0 : 0 ≤ total := by
      rw [htotal]
      exact finsum_nonneg fun a => activeAfter_nonneg (L a).wellFormed _
    exact ⟨total, hloop.mpr ⟨htotal, htotal ▸ hlt⟩, denom, hbond, ⟨hvalid, h0⟩, rfl, rfl⟩

end Scan

/-- In every reachable state and at every block day from 1970 on, the total is the
sum of the accounts' locked amounts. Both are computed with 256 bits: an account's
amount is returned when it fits, the total when the sum does. -/
theorem total_is_sum_of_accounts (k : Keepers W) {t₀ t : BlockTime} {st : LockStore}
    (h : Reachable k t₀ t st) (h1970 : 0 ≤ t₀.time.nanos) (ctx : Ctx)
    (hctx : 0 ≤ ctx.blockTime.time.nanos) (w : W) (validDenom : Bytes → Bool)
    (hdenom : ∀ denom, k.bondDenom w = .ok denom → validDenom denom = true) :
    ∃ f : AccAddress → ℤ, (Function.support f).Finite ∧ (∀ a, 0 ≤ f a) ∧
      (∀ a y, getLockedAmountByAddress ctx st a = .ok y ↔ y = f a ∧ y < intBound) ∧
      ∀ denom total, totalLockedAmount k validDenom ctx st w (some ()) = .ok ⟨denom, total⟩ ↔
        k.bondDenom w = .ok denom ∧ total = ∑ᶠ a, f a ∧ total < intBound := by
  obtain ⟨L, hL, hafter⟩ := h.encodes
  have hday : 0 ≤ ctx.blockTime.day := Int.ediv_nonneg hctx (by decide)
  have hfirst : (0 : ℤ) ≤ t₀.day := Int.ediv_nonneg h1970 (by decide)
  have hafter₀ : Ledger.After 0 L := fun a d hd => lt_of_le_of_lt hfirst (hafter a d hd)
  refine ⟨fun a => activeAfter ctx.blockTime.day (L a).locks, ?_, ?_,
    getLockedAmountByAddress_iff hL ctx, ?_⟩
  · apply hL.finite_accounts.subset
    intro a ha hnil
    apply ha
    dsimp only
    rw [hnil]
    rfl
  · intro a
    exact activeAfter_nonneg (L a).wellFormed _
  · intro denom total
    rw [hL.totalLockedAmount_iff hafter₀ hday k validDenom w,
      and_iff_left_of_imp (hdenom denom)]

theorem total_is_sum_of_accounts_sample :
    ∃ st, Reachable (readers chain) newYear.blockTime newYear.blockTime st ∧
      ∃ f : AccAddress → ℤ,
        (∀ a y, getLockedAmountByAddress newYear st a = .ok y ↔ y = f a ∧ y < intBound) ∧
        ∀ denom total, totalLockedAmount (readers chain) validateDenom newYear st twoValidators
            (some ()) = .ok ⟨denom, total⟩ ↔
          (readers chain).bondDenom twoValidators = .ok denom ∧ total = ∑ᶠ a, f a ∧
            total < intBound := by
  obtain ⟨st, _, hst, _⟩ := lockThenExtend_reachable
  obtain ⟨f, _, _, hf, htotal⟩ := total_is_sum_of_accounts (readers chain) hst (by decide)
    newYear (by decide) twoValidators validateDenom
    fun denom hbond => by rw [← Except.ok.inj hbond]; decide
  exact ⟨st, hst, f, hf, htotal⟩

end Tsc.Lockup
