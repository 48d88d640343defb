import Tsc.Lockup.Runs
import Tsc.Staking.Accounting

/-!
# What holds in every state of the module

Read off the ledger a reachable store encodes: the form of the stored lists, the
agreement of the two indexes, and that locked amounts are not released early.
-/

namespace Tsc.Lockup

open Go Sdk Kv Staking

variable {W : Type}

def lockUntilJune : MsgLock := ⟨accText (ascii "d"), ascii "2026-06-01", tsc 40⟩

def extendToJuly : MsgExtend :=
  ⟨accText (ascii "d"), [some ⟨ascii "2026-06-01", ascii "2026-07-01", tsc 10⟩]⟩

def lockThenExtend : Out (LockStore × LockStore) := do
  let s ← deliver (readers chain) newYear Store.empty twoValidators (.lock lockUntilJune)
  let s' ← deliver (readers chain) newYear s.1 twoValidators (.extend extendToJuly)
  .ok (s.1, s'.1)

theorem extendToJuly_positive : extendToJuly.Positive := by
  intro e he
  cases List.mem_singleton.mp he
  decide

theorem lockThenExtend_reachable :
    ∃ st s', Reachable (readers chain) newYear.blockTime newYear.blockTime st ∧
      deliver (readers chain) newYear st twoValidators (.extend extendToJuly) = .ok s' := by
  have hok : lockThenExtend.isOk = true := by decide +kernel
  obtain ⟨r, hr⟩ := exists_of_isOk hok
  simp only [lockThenExtend, bind_eq_ok] at hr
  obtain ⟨s, hs, s', hs', _⟩ := hr
  exact ⟨s.1, s', Reachable.of_lock hs, hs'⟩

/-! ### The stored lists -/

theorem WellFormed.chronological {l : List Lock} (h : WellFormed l) :
    l.Pairwise fun e f => ∀ u v, parseDateOnly e.unlockDate = some u →
      parseDateOnly f.unlockDate = some v → u.Before v := by
  apply List.Pairwise.imp _ h.ascending
  intro e f hlt u v hu hv
  rw [parseDateOnly_lt_iff hu hv] at hlt
  rw [parseDateOnly_ofDay hu, parseDateOnly_ofDay hv, Time.before_ofDay]
  exact hlt

theorem WellFormed.dates_nodup {l : List Lock} (h : WellFormed l) :
    (l.map Lock.unlockDate).Nodup := by
  rw [List.Nodup, List.pairwise_map]
  exact List.Pairwise.imp (fun hlt => ne_of_lt hlt) h.ascending

/-- Distinct dates of a list, counted by their days. -/
theorem WellFormed.length_le {l : List Lock} (h : WellFormed l) {lo hi : ℤ}
    (hdays : ∀ e ∈ l, lo ≤ dayOf e.unlockDate ∧ dayOf e.unlockDate ≤ hi) :
    l.length ≤ (hi + 1 - lo).toNat := by
  have hnodup : (l.map fun e => dayOf e.unlockDate).Nodup := by
    rw [List.Nodup, List.pairwise_map]
    apply h.ascending.imp_of_mem
    intro e f he hf hlt
    obtain ⟨u, hu⟩ := h.parses e he
    obtain ⟨v, hv⟩ := h.parses f hf
    rw [dayOf_eq hu, dayOf_eq hv]
    exact ne_of_lt ((parseDateOnly_lt_iff hu hv).mp hlt)
  have hlen : l.length = (l.map fun e => dayOf e.unlockDate).length := (List.length_map _).symm
  rw [hlen, ← List.toFinset_card_of_nodup hnodup, ← Int.card_Icc]
  apply Finset.card_le_card
  intro n hn
  obtain ⟨e, he, rfl⟩ := List.mem_map.mp (List.mem_toFinset.mp hn)
  exact Finset.mem_Icc.mpr (hdays e he)

/-- In every reachable state an account's list has parsing, strictly ascending
dates, also in time, and positive amounts; no locks, no key. -/
theorem lock_list_representation (k : Keepers W) {t₀ t : BlockTime} {st : LockStore}
    (h : Reachable k t₀ t st) (a : AccAddress) :
    ∃ l, getLocksByAddress st a = .ok l ∧
      (∀ e ∈ l, ∃ u, parseDateOnly e.unlockDate = some u) ∧
      (l.Pairwise fun e f => e.unlockDate < f.unlockDate) ∧
      (l.Pairwise fun e f => ∀ u v, parseDateOnly e.unlockDate = some u →
        parseDateOnly f.unlockDate = some v → u.Before v) ∧
      (l.map Lock.unlockDate).Nodup ∧ (∀ e ∈ l, 0 < e.amount) ∧
      (l = [] ↔ st.get (getLocksByAddressKey a) = none) := by
  obtain ⟨L, hL, _⟩ := h.encodes
  have hwf := (L a).wellFormed
  refine ⟨(L a).locks, hL.getLocksByAddress a, hwf.parses, hwf.ascending, hwf.chronological,
    hwf.dates_nodup, hwf.positive, ?_⟩
  rw [hL.byAddress a]
  split_ifs with hempty
  · simp [hempty]
  · simp [hempty]

theorem lock_list_representation_sample :
    ∃ st, Reachable (readers chain) newYear.blockTime newYear.blockTime st ∧
      ∃ l, getLocksByAddress st (ascii "d") = .ok l ∧ (l.map Lock.unlockDate).Nodup := by
  obtain ⟨st, _, hst, _⟩ := lockThenExtend_reachable
  obtain ⟨l, hl, _, _, _, hnd, _⟩ := lock_list_representation (readers chain) hst (ascii "d")
  exact ⟨st, hst, l, hl, hnd⟩

/-! ### Agreement of the indexes -/

theorem Encodes.queue_entry {st : LockStore} {L : Ledger} (h : Encodes st L) {d : Bytes} {u : Time}
    (hd : parseDateOnly d = some u) (a : AccAddress) :
    st.get (getLockExpirationKey u a) =
      (lookup Lock.unlockDate d (L a).locks).map fun e => .amount e.amount := by
  have hmap : ((lookup Lock.unlockDate d (L a).locks).map fun e => Value.amount e.amount) =
      ((lookup Lock.unlockDate d (L a).locks).map Lock.amount).map Value.amount := by
    rw [Option.map_map]
    rfl
  rw [h.byDate d u a hd, hmap, lookup_eq_amountOn (L a).wellFormed d]
  unfold Ledger.amounts
  split_ifs <;> rfl

/-- In every reachable state the queue holds exactly the amounts of the lists; and
in any round of an Extend, once the address index is updated, the queue has the
moved amount under the from date. -/
theorem indexes_agree (k : Keepers W) {t₀ t : BlockTime} {st : LockStore}
    (h : Reachable k t₀ t st) :
    (∀ a d u, parseDateOnly d = some u → ∃ l, getLocksByAddress st a = .ok l ∧
      st.get (getLockExpirationKey u a) =
        (lookup Lock.unlockDate d l).map fun e => .amount e.amount) ∧
    ∀ ctx w addr es e st₁ tf tt st₂ st₃, (∀ e', some e' ∈ es → 0 < e'.amount.amount) →
      0 < e.amount.amount → forRange (extendOne k ctx w addr) st es = .ok st₁ →
      checkExtension k ctx w (some e) = .ok (e, tf, tt) →
      takeLock st₁ addr e.fromDate e.amount.amount = .ok st₂ →
      mergeLock st₂ addr e.toDate e.amount.amount = .ok st₃ →
      ∃ current, st₃.get (getLockExpirationKey tf addr) = some (.amount current) ∧
        e.amount.amount ≤ current := by
  obtain ⟨L, hL, _⟩ := h.encodes
  constructor
  · intro a d u hd
    exact ⟨(L a).locks, hL.getLocksByAddress a, hL.queue_entry hd a⟩
  · intro ctx w addr es e st₁ tf tt st₂ st₃ hpos hx hes hcheck htake hmerge
    obtain ⟨M, _, hM⟩ := extensions_refine hL hpos hes
    simp only [checkExtension, deref, bind_eq_ok, ofOption_eq_ok, Option.some.injEq] at hcheck
    obtain ⟨_, _, e', he', _, _, tf', hf, tt', ht, _, _, _, _, _, _, heq⟩ := hcheck
    subst he'
    cases heq
    obtain ⟨hle, hv⟩ := extension_views hM hx ht htake hmerge
    refine ⟨amountOn e.fromDate (M addr).locks, ?_, hle⟩
    rw [hv.byDate e.fromDate tf addr hf]
    unfold Ledger.amounts
    rw [if_neg (by omega)]

theorem indexes_agree_sample :
    ∃ st, Reachable (readers chain) newYear.blockTime newYear.blockTime st ∧
      ∃ l, getLocksByAddress st (ascii "d") = .ok l ∧
        st.get (getLockExpirationKey (Time.ofDay 20605) (ascii "d")) =
          (lookup Lock.unlockDate (ascii "2026-06-01") l).map fun e => .amount e.amount := by
  obtain ⟨st, _, hst, _⟩ := lockThenExtend_reachable
  exact ⟨st, hst, (indexes_agree (readers chain) hst).1 (ascii "d") (ascii "2026-06-01")
    (Time.ofDay 20605) (by decide)⟩

/-! ### No early release -/

/-- A message never lowers the amount an account has locked beyond any day; and at
every later block that day or before it, all of it is counted. -/
theorem no_early_release (k : Keepers W) {t₀ t : BlockTime} {st : LockStore}
    (h : Reachable k t₀ t st) {ctx : Ctx} {w : W} {msg : Message} {s' : LockStore × W}
    (hadm : msg.Admissible) (hok : deliver k ctx st w msg = .ok s') (a : AccAddress) :
    ∃ l l', getLocksByAddress st a = .ok l ∧ getLocksByAddress s'.1 a = .ok l' ∧
      ∀ n, activeAfter n l ≤ activeAfter n l' ∧
        ∀ u s ctx', Run k ctx.blockTime s'.1 u s → ctx'.blockTime.day ≤ n →
          ∃ counted, activeAfter n l' ≤ counted ∧
            ∀ y, getLockedAmountByAddress ctx' s a = .ok y ↔ y = counted ∧ y < intBound := by
  obtain ⟨L, hL, _⟩ := h.encodes
  obtain ⟨L', hsteps, hL'⟩ := deliver_refines hL hadm hok
  refine ⟨(L a).locks, (L' a).locks, hL.getLocksByAddress a, hL'.getLocksByAddress a, ?_⟩
  intro n
  refine ⟨hsteps.activeAfter_le a n, ?_⟩
  intro u s ctx' hrun hday
  obtain ⟨M, hM, hle, _⟩ := hrun.refines hL'
  refine ⟨activeAfter ctx'.blockTime.day (M a).locks, ?_, getLockedAmountByAddress_iff hM ctx' a⟩
  exact (hle a n).trans (activeAfter_anti (M a).wellFormed hday)

theorem no_early_release_sample :
    ∃ st s', Reachable (readers chain) newYear.blockTime newYear.blockTime st ∧
      deliver (readers chain) newYear st twoValidators (.extend extendToJuly) = .ok s' ∧
      ∃ l l', getLocksByAddress st (ascii "d") = .ok l ∧
        getLocksByAddress s'.1 (ascii "d") = .ok l' ∧
        ∀ n, activeAfter n l ≤ activeAfter n l' := by
  obtain ⟨st, s', hst, hs'⟩ := lockThenExtend_reachable
  obtain ⟨l, l', hl, hl', hn⟩ := no_early_release (readers chain) hst
    (show (Message.extend extendToJuly).Admissible from extendToJuly_positive) hs' (ascii "d")
  exact ⟨st, s', hst, hs', l, l', hl, hl', fun n => (hn n).1⟩

end Tsc.Lockup
