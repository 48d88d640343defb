import Tsc.Lockup.Invariants

/-!
# No lock is longer than two years

The limit of `blockDay.AddDate(2, 0, 0)` is checked only for the date a message
brings in. Every other update keeps the dates that are stored, and the limit of a
later block is not earlier, so it holds of all stored dates at all times. Nothing
is assumed of the amounts.
-/

namespace Tsc.Lockup

open Go Sdk Kv Staking

variable {W : Type}

def DateWithin (n : ℤ) (d : Bytes) : Prop := ∃ u, parseDateOnly d = some u ∧ u.dayNumber ≤ n

/-- An entry of the store, under a key of one of the indexes, without a date after
day `n`; an amount in the queue is one `math.Int` can hold. -/
def EntryWithin (n : ℤ) (key : Bytes) (v : Value) : Prop :=
  (∃ a l, key = getLocksByAddressKey a ∧ v = .locks l ∧ ∀ e ∈ l, DateWithin n e.unlockDate) ∨
    ∃ d u a x, (parseDateOnly d = some u ∧ u.dayNumber ≤ n) ∧ key = getLockExpirationKey u a ∧
      v = .amount x ∧ InRange x

def Within (n : ℤ) (st : LockStore) : Prop := ∀ key v, st.get key = some v → EntryWithin n key v

theorem DateWithin.mono {m n : ℤ} (h : m ≤ n) {d : Bytes} (hd : DateWithin m d) :
    DateWithin n d := by
  obtain ⟨u, hu, hle⟩ := hd
  exact ⟨u, hu, hle.trans h⟩

theorem Within.mono {m n : ℤ} (h : m ≤ n) {st : LockStore} (hst : Within m st) : Within n st := by
  intro key v hv
  rcases hst key v hv with ⟨a, l, hkey, hval, hl⟩ | ⟨d, u, a, x, hd, hkey, hval⟩
  · exact Or.inl ⟨a, l, hkey, hval, fun e he => (hl e he).mono h⟩
  · exact Or.inr ⟨d, u, a, x, ⟨hd.1, hd.2.trans h⟩, hkey, hval⟩

section Calls

variable {n : ℤ} {st st' : LockStore} {a : AccAddress} {d : Bytes} {t : Time} {x : ℤ}

theorem Within.locks (h : Within n st) (a : AccAddress) :
    ∃ l, getLocksByAddress st a = .ok l ∧ ∀ e ∈ l, DateWithin n e.unlockDate := by
  unfold getLocksByAddress
  cases hget : st.get (getLocksByAddressKey a) with
  | none => exact ⟨[], rfl, by simp⟩
  | some v =>
    rcases h _ v hget with ⟨b, l, _, hval, hl⟩ | ⟨_, u, b, _, _, hkey, _⟩
    · exact ⟨l, by rw [hval]; rfl, hl⟩
    · exact absurd hkey (addressKey_ne_dateKey a b u)

theorem Within.setLocksByAddress (h : Within n st) {l : List Lock}
    (hl : ∀ e ∈ l, DateWithin n e.unlockDate) : Within n (setLocksByAddress st a l) := by
  intro key v hv
  by_cases hkey : key = getLocksByAddressKey a
  · rw [hkey, setLocksByAddress_get_self] at hv
    split_ifs at hv
    cases hv
    exact Or.inl ⟨a, l, hkey, rfl, hl⟩
  · rw [setLocksByAddress_get _ _ _ _ hkey] at hv
    exact h key v hv

/-- An updated lock keeps the date of the lock it replaces. -/
theorem dates_set {l : List Lock} (hl : ∀ e ∈ l, DateWithin n e.unlockDate) {i : ℕ} {e : Lock}
    (hi : l[i]? = some e) (y : ℤ) : ∀ f ∈ l.set i ⟨e.unlockDate, y⟩, DateWithin n f.unlockDate := by
  intro f hf
  rcases List.mem_or_eq_of_mem_set hf with hold | hnew
  · exact hl f hold
  · rw [hnew]
    exact hl e (List.mem_of_getElem? hi)

theorem dates_addLocks {l : List Lock} (hl : ∀ e ∈ l, DateWithin n e.unlockDate)
    (hd : DateWithin n d) : ∀ e ∈ addLocks d x l, DateWithin n e.unlockDate := by
  unfold addLocks
  split
  next e i hf => exact dates_set hl (lookupFrom_zero hf).1 _
  next =>
    intro e he
    rcases (mem_insertBefore _ _ _ _).mp he with hnew | hold
    · rw [hnew]
      exact hd
    · exact hl e hold

theorem dates_subLocks {l : List Lock} (hl : ∀ e ∈ l, DateWithin n e.unlockDate) :
    ∀ e ∈ subLocks d x l, DateWithin n e.unlockDate := by
  unfold subLocks
  split
  next e i hf =>
    split_ifs
    · exact fun f hf => hl f (List.mem_of_mem_eraseIdx hf)
    · exact dates_set hl (lookupFrom_zero hf).1 _
  next => exact hl

theorem Within.mergeLock (h : Within n st) (hd : DateWithin n d)
    (hm : mergeLock st a d x = .ok st') : Within n st' := by
  obtain ⟨l, hget, hl⟩ := h.locks a
  obtain ⟨l', hget', rfl⟩ := mergeLock_ok hm
  rw [hget] at hget'
  cases hget'
  exact h.setLocksByAddress (dates_addLocks hl hd)

theorem Within.takeLock (h : Within n st) (ht : takeLock st a d x = .ok st') : Within n st' := by
  obtain ⟨l, hget, hl⟩ := h.locks a
  obtain ⟨l', _, _, hget', _, _, rfl⟩ := takeLock_ok ht
  rw [hget] at hget'
  cases hget'
  exact h.setLocksByAddress (dates_subLocks hl)

theorem Within.addToExpirationQueue (h : Within n st) (hd : parseDateOnly d = some t)
    (hle : t.dayNumber ≤ n) (hq : addToExpirationQueue st t a x = .ok st') : Within n st' := by
  simp only [Lockup.addToExpirationQueue, bind_eq_ok, intAdd_eq_ok] at hq
  obtain ⟨_, _, y, ⟨hy, rfl⟩, hq⟩ := hq
  cases hq
  exact Store.forall_get_set (Or.inr ⟨d, t, a, _, ⟨hd, hle⟩, rfl, rfl, hy⟩) h

/-- A smaller amount stays under its key, whose date was within the limit already. -/
theorem Within.removeFromExpirationQueue (h : Within n st)
    (hq : removeFromExpirationQueue st t a x = .ok st') : Within n st' := by
  unfold Lockup.removeFromExpirationQueue at hq
  dsimp only at hq
  cases hget : st.get (getLockExpirationKey t a) with
  | none =>
    simp only [hget] at hq
    cases hq
    exact h
  | some bz =>
    simp only [hget, bind_eq_ok, intSub_eq_ok] at hq
    obtain ⟨_, _, _, _, y, ⟨hy, rfl⟩, hq⟩ := hq
    split_ifs at hq
    · cases hq
      intro key v hv
      rw [Store.get_delete] at hv
      split_ifs at hv
      exact h key v hv
    · cases hq
      apply Store.forall_get_set _ h
      rcases h _ bz hget with ⟨b, _, hkey, _⟩ | ⟨d', u, b, _, hd', hkey, _⟩
      · exact absurd hkey.symm (addressKey_ne_dateKey b a t)
      · exact Or.inr ⟨d', u, b, _, hd', hkey, rfl, hy⟩

end Calls

/-! ### Messages and runs -/

section Messages

variable {k : Keepers W} {ctx : Ctx} {st st' : LockStore} {w : W}

theorem lock_within {msg : MsgLock} (h : Within ctx.blockTime.horizon st)
    (hm : lock k ctx st w msg = .ok st') : Within ctx.blockTime.horizon st' := by
  obtain ⟨addr, t, st₁, _, _, ht, hday, _, hmerge, hqueue⟩ := lock_ok k hm
  exact (h.mergeLock ⟨t, ht, hday.2⟩ hmerge).addToExpirationQueue ht hday.2 hqueue

theorem extendOne_within {n : ℤ} {addr : AccAddress} {extension? : Option Extension}
    (hlimit : ctx.blockTime.horizon ≤ n) (h : Within n st)
    (hm : extendOne k ctx w addr st extension? = .ok st') : Within n st' := by
  obtain ⟨e, tf, tt, st₁, st₂, st₃, _, _, ht, _, hday, htake, hmerge, hremove, hadd⟩ :=
    extendOne_ok k hm
  have hle := hday.2.trans hlimit
  have h₂ := (h.takeLock htake).mergeLock ⟨tt, ht, hle⟩ hmerge
  exact (h₂.removeFromExpirationQueue hremove).addToExpirationQueue ht hle hadd

theorem deliver_within {msg : Message} {s' : LockStore × W} (h : Within ctx.blockTime.horizon st)
    (hm : deliver k ctx st w msg = .ok s') : Within ctx.blockTime.horizon s'.1 := by
  cases msg with
  | lock msg =>
    obtain ⟨st₁, hlock, hs⟩ := (bind_eq_ok _ _ _).mp hm
    cases hs
    exact lock_within h hlock
  | extend msg =>
    obtain ⟨st₁, hextend, hs⟩ := (bind_eq_ok _ _ _).mp hm
    cases hs
    obtain ⟨addr, _, hloop⟩ := extend_ok k hextend
    exact forRange_invariant (Within ctx.blockTime.horizon)
      (fun _ _ _ _ hu hstep => extendOne_within (le_refl _) hu hstep) h hloop
  | sendDelegateAndLock msg => exact lock_within h (sendDelegateAndLock_ok k hm)
  | multiSendDelegateAndLock msg =>
    apply forRange_invariant (fun u : LockStore × W => Within ctx.blockTime.horizon u.1) _ h
      (multiSendDelegateAndLock_ok k hm)
    intro _ _ u u' hu hstep
    obtain ⟨output, _, hsend⟩ := (bind_eq_ok _ _ _).mp hstep
    exact lock_within hu (sendDelegateAndLock_ok k hsend)

end Messages

/-- Stores after any successful messages at non-decreasing block times. -/
inductive Delivered (k : Keepers W) : BlockTime → LockStore → Prop
  | genesis (t : BlockTime) : Delivered k t Store.empty
  | message {u : BlockTime} {st st' : LockStore} {ctx : Ctx} {w w' : W} {msg : Message}
      (run : Delivered k u st) (later : u.time.nanos ≤ ctx.blockTime.time.nanos)
      (ok : deliver k ctx st w msg = .ok (st', w')) : Delivered k ctx.blockTime st'

theorem Delivered.within {k : Keepers W} {t : BlockTime} {st : LockStore} (h : Delivered k t st) :
    Within t.horizon st := by
  induction h with
  | genesis t =>
    intro key v hv
    cases hv
  | message _ hlater hok ih => exact deliver_within (ih.mono (BlockTime.horizon_mono hlater)) hok

theorem Reachable.delivered {k : Keepers W} {t₀ t : BlockTime} {st : LockStore}
    (h : Reachable k t₀ t st) : Delivered k t st := by
  induction h with
  | start => exact Delivered.genesis _
  | message _ hlater _ hok ih => exact Delivered.message ih hlater hok

/-- After any messages, at their block and at every later one, no stored lock has
its date after `blockDay.AddDate(2, 0, 0)`. -/
theorem lock_horizon (k : Keepers W) {t : BlockTime} {st : LockStore} (h : Delivered k t st)
    (ctx : Ctx) (hlater : t.time.nanos ≤ ctx.blockTime.time.nanos) (a : AccAddress) :
    ∃ l, getLocksByAddress st a = .ok l ∧ ∀ e ∈ l, ∃ u, parseDateOnly e.unlockDate = some u ∧
      ¬ u.After (ctx.blockDay.addDate 2 0 0) := by
  obtain ⟨l, hget, hl⟩ := (h.within.mono (BlockTime.horizon_mono hlater)).locks a
  refine ⟨l, hget, ?_⟩
  intro e he
  obtain ⟨u, hu, hle⟩ := hl e he
  refine ⟨u, hu, ?_⟩
  rw [parseDateOnly_ofDay hu, Ctx.blockDay_addDate, Time.after_ofDay]
  exact not_lt.mpr hle

theorem lock_horizon_june :
    ∃ s, deliver (readers chain) newYear Store.empty twoValidators (.lock lockUntilJune) = .ok s ∧
      ∃ l, getLocksByAddress s.1 (ascii "d") = .ok l ∧
        ∀ e ∈ l, ∃ u, parseDateOnly e.unlockDate = some u ∧
          ¬ u.After (newYear.blockDay.addDate 2 0 0) := by
  have hok : (deliver (readers chain) newYear Store.empty twoValidators
    (.lock lockUntilJune)).isOk = true := by decide +kernel
  obtain ⟨s, hs⟩ := exists_of_isOk hok
  have hrun := Delivered.message (Delivered.genesis newYear.blockTime) (le_refl _) hs
  exact ⟨s, hs, lock_horizon (readers chain) hrun newYear (le_refl _) (ascii "d")⟩

-- 29 February 2024 plus two years is 1 March 2026
example : (Time.ofDay 19782).addDate 2 0 0 = Time.ofDay 20513 := by decide

end Tsc.Lockup
