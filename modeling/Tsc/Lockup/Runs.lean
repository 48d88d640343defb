import Tsc.Lockup.Encoding

/-!
# Messages refine the ledger

Every message that returns takes a store that encodes a ledger to one that
encodes the ledger after some moves. Runs of messages start from the empty store
at non-decreasing block times; bank and staking state may be anything at each
message, since other modules run in between.
-/

namespace Tsc.Lockup

open Go Sdk Kv

variable {W : Type} {k : Keepers W} {ctx : Ctx} {st st' : LockStore} {w : W} {L : Ledger}

/-! ### Single messages -/

theorem lock_encodes {msg : MsgLock} {addr : AccAddress} {t : Time} {st₁ : LockStore}
    (h : Encodes st L) (hx : 0 < msg.amount.amount) (ht : parseDateOnly msg.unlockDate = some t)
    (hmerge : mergeLock st addr msg.unlockDate msg.amount.amount = .ok st₁)
    (hqueue : addToExpirationQueue st₁ t addr msg.amount.amount = .ok st') :
    Encodes st' (Function.update L addr ((L addr).add msg.unlockDate msg.amount.amount ht hx)) := by
  have hv := h.mergeLock ht hx hmerge
  have hnn := amountOn_nonneg (L addr).wellFormed msg.unlockDate
  have hq := hv.addToExpirationQueue ht (by unfold Ledger.amounts; omega) hqueue
  refine hq.encodes ?_
  intro a d
  unfold addAmount Ledger.amounts
  by_cases ha : a = addr
  · rw [ha, Function.update_self, LockList.amountOn_add]
    simp only [true_and, eq_comm]
  · rw [Function.update_of_ne ha, if_neg (fun hb => ha hb.1), add_zero]

theorem lock_refines {msg : MsgLock} (h : Encodes st L) (hm : lock k ctx st w msg = .ok st') :
    ∃ L', Ledger.Step ctx.blockTime.day L L' ∧ Encodes st' L' := by
  obtain ⟨addr, t, st₁, _, hx, ht, hday, _, hmerge, hqueue⟩ := lock_ok k hm
  exact ⟨_, Ledger.Step.lock L addr msg.unlockDate msg.amount.amount t ht hx hday.1,
    lock_encodes h hx ht hmerge hqueue⟩

/-- The address index after the two updates of an extension, the queue still as
before: the moved amount is there to be removed. -/
theorem extension_views {addr : AccAddress} {e : Extension} {tt : Time} {st₁ st₂ : LockStore}
    (h : Encodes st L) (hx : 0 < e.amount.amount) (ht : parseDateOnly e.toDate = some tt)
    (htake : takeLock st addr e.fromDate e.amount.amount = .ok st₁)
    (hmerge : mergeLock st₁ addr e.toDate e.amount.amount = .ok st₂) :
    ∃ hle : e.amount.amount ≤ amountOn e.fromDate (L addr).locks,
      Views st₂ (Function.update L addr
        (((L addr).sub e.fromDate e.amount.amount hx hle).add e.toDate e.amount.amount ht hx))
        L.amounts := by
  obtain ⟨hle, hv₁⟩ := Views.takeLock h hx htake
  have hv₂ := hv₁.mergeLock ht hx hmerge
  rw [Function.update_idem, Function.update_self] at hv₂
  exact ⟨hle, hv₂⟩

theorem extendOne_encodes {addr : AccAddress} {e : Extension} (h : Encodes st L)
    (hx : 0 < e.amount.amount) (hm : extendOne k ctx w addr st (some e) = .ok st') :
    ∃ tf tt, ∃ _ : parseDateOnly e.fromDate = some tf, ∃ ht : parseDateOnly e.toDate = some tt,
      ∃ hle : e.amount.amount ≤ amountOn e.fromDate (L addr).locks,
        tf.dayNumber < tt.dayNumber ∧ ctx.blockTime.day < tt.dayNumber ∧
        Encodes st' (Function.update L addr
          (((L addr).sub e.fromDate e.amount.amount hx hle).add e.toDate e.amount.amount ht hx)) := by
  obtain ⟨e', tf, tt, st₁, st₂, st₃, he, hf, ht, hlt, hday, htake, hmerge, hremove, hadd⟩ :=
    extendOne_ok k hm
  cases he
  obtain ⟨hle, hv₂⟩ := extension_views h hx ht htake hmerge
  have hv₃ := hv₂.removeFromExpirationQueue hf hx hle hremove
  have hne := (parseDateOnly_ne hf ht hlt).symm
  have hnn := amountOn_nonneg (L addr).wellFormed e.toDate
  have hpos : 0 < addAmount L.amounts addr e.fromDate (-e.amount.amount) addr e.toDate +
      e.amount.amount := by
    unfold addAmount Ledger.amounts
    rw [if_neg (fun hb => hne hb.2)]
    omega
  have hv₄ := hv₃.addToExpirationQueue ht hpos hadd
  refine ⟨tf, tt, hf, ht, hle, hlt, hday.1, hv₄.encodes ?_⟩
  intro a d
  unfold addAmount Ledger.amounts
  by_cases ha : a = addr
  · rw [ha, Function.update_self, LockList.amountOn_add, LockList.amountOn_sub]
    simp only [true_and, eq_comm]
    split_ifs <;> ring
  · rw [Function.update_of_ne ha, if_neg (fun hb => ha hb.1), if_neg (fun hb => ha hb.1)]
    ring

theorem extendOne_refines {addr : AccAddress} {e : Extension} (h : Encodes st L)
    (hx : 0 < e.amount.amount) (hm : extendOne k ctx w addr st (some e) = .ok st') :
    ∃ L', Ledger.Step ctx.blockTime.day L L' ∧ Encodes st' L' := by
  obtain ⟨tf, tt, hf, ht, hle, hlt, hday, hL'⟩ := extendOne_encodes h hx hm
  exact ⟨_, Ledger.Step.move L addr e.fromDate e.toDate e.amount.amount tf tt hf ht hlt hday hx hle,
    hL'⟩

def EncodesAfter (n : ℤ) (L : Ledger) (st : LockStore) : Prop :=
  ∃ L', Ledger.Steps n L L' ∧ Encodes st L'

theorem EncodesAfter.refl {n : ℤ} (h : Encodes st L) : EncodesAfter n L st :=
  ⟨L, Relation.ReflTransGen.refl, h⟩

theorem EncodesAfter.step {n : ℤ} (h : EncodesAfter n L st)
    (hstep : ∀ M, Encodes st M → ∃ M', Ledger.Step n M M' ∧ Encodes st' M') :
    EncodesAfter n L st' := by
  obtain ⟨M, hsteps, hM⟩ := h
  obtain ⟨M', hone, hM'⟩ := hstep M hM
  exact ⟨M', hsteps.tail hone, hM'⟩

theorem extensions_refine {addr : AccAddress} {es : List (Option Extension)} (h : Encodes st L)
    (hpos : ∀ e, some e ∈ es → 0 < e.amount.amount)
    (hm : forRange (extendOne k ctx w addr) st es = .ok st') :
    EncodesAfter ctx.blockTime.day L st' := by
  apply forRange_invariant (EncodesAfter ctx.blockTime.day L) _ (EncodesAfter.refl h) hm
  intro o ho u u' hu hstep
  obtain ⟨e, _, _, _, _, _, he, _⟩ := extendOne_ok k hstep
  subst he
  exact hu.step fun M hM => extendOne_refines hM (hpos e ho) hstep

theorem outputs_refine {fromAddress : Bytes} {s s' : LockStore × W}
    {os : List (Option MultiSendDelegateAndLockOutput)} (h : Encodes s.1 L)
    (hm : forRange (sendOutput k ctx fromAddress) s os = .ok s') :
    EncodesAfter ctx.blockTime.day L s'.1 := by
  apply forRange_invariant (fun u : LockStore × W => EncodesAfter ctx.blockTime.day L u.1) _
    (EncodesAfter.refl h) hm
  intro o _ u u' hu hstep
  simp only [sendOutput, bind_eq_ok] at hstep
  obtain ⟨output, _, hsend⟩ := hstep
  exact hu.step fun M hM => lock_refines hM (sendDelegateAndLock_ok k hsend)

/-! ### Runs -/

inductive Message where
  | lock (msg : MsgLock)
  | extend (msg : MsgExtend)
  | sendDelegateAndLock (msg : MsgSendDelegateAndLock)
  | multiSendDelegateAndLock (msg : MsgMultiSendDelegateAndLock)

def deliver (k : Keepers W) (ctx : Ctx) (st : LockStore) (w : W) : Message → Out (LockStore × W)
  | .lock msg => do
    let st' ← lock k ctx st w msg
    .ok (st', w)
  | .extend msg => do
    let st' ← extend k ctx st w msg
    .ok (st', w)
  | .sendDelegateAndLock msg => sendDelegateAndLock k ctx st w msg
  | .multiSendDelegateAndLock msg => multiSendDelegateAndLock k ctx st w msg

/-- Extensions carry positive amounts, as `ValidateBasic` and the precompile make sure. -/
def Message.Admissible : Message → Prop
  | .extend msg => msg.Positive
  | _ => True

theorem deliver_refines {msg : Message} {s' : LockStore × W} (h : Encodes st L)
    (hadm : msg.Admissible) (hm : deliver k ctx st w msg = .ok s') :
    EncodesAfter ctx.blockTime.day L s'.1 := by
  cases msg with
  | lock msg =>
    simp only [deliver, bind_eq_ok] at hm
    obtain ⟨st₁, hlock, hs⟩ := hm
    cases hs
    exact (EncodesAfter.refl h).step fun M hM => lock_refines hM hlock
  | extend msg =>
    simp only [deliver, bind_eq_ok] at hm
    obtain ⟨st₁, hextend, hs⟩ := hm
    cases hs
    obtain ⟨addr, _, hloop⟩ := extend_ok k hextend
    exact extensions_refine h hadm hloop
  | sendDelegateAndLock msg =>
    exact (EncodesAfter.refl h).step fun M hM => lock_refines hM (sendDelegateAndLock_ok k hm)
  | multiSendDelegateAndLock msg =>
    exact outputs_refine h (multiSendDelegateAndLock_ok k hm)

/-- Stores after successful messages, from the store `s` at time `t`. -/
inductive Run (k : Keepers W) (t : BlockTime) (s : LockStore) : BlockTime → LockStore → Prop
  | start : Run k t s t s
  | message {u : BlockTime} {st st' : LockStore} {ctx : Ctx} {w w' : W} {msg : Message}
      (run : Run k t s u st) (later : u.time.nanos ≤ ctx.blockTime.time.nanos)
      (admissible : msg.Admissible) (ok : deliver k ctx st w msg = .ok (st', w')) :
      Run k t s ctx.blockTime st'

/-- States of the module: runs from the empty store, first block at `t₀` or later. -/
abbrev Reachable (k : Keepers W) (t₀ : BlockTime) : BlockTime → LockStore → Prop :=
  Run k t₀ Store.empty

/-- Every lock is admissible, so the first message of a run may be any lock. -/
theorem Reachable.of_lock {ctx : Ctx} {w : W} {msg : MsgLock} {s : LockStore × W}
    (h : deliver k ctx Store.empty w (.lock msg) = .ok s) :
    Reachable k ctx.blockTime ctx.blockTime s.1 := by
  have hadm : (Message.lock msg).Admissible := trivial
  exact Run.message Run.start (le_refl _) hadm h

theorem Run.later {t u : BlockTime} {s : LockStore} (h : Run k t s u st) :
    t.time.nanos ≤ u.time.nanos := by
  induction h with
  | start => exact le_refl _
  | message _ hlater _ _ ih => exact ih.trans hlater

/-- A whole run keeps the stores an encoding, loses nothing beyond any day, and
brings in only dates after its first day. -/
theorem Run.refines {t u : BlockTime} {s : LockStore} (h : Run k t s u st) (hL : Encodes s L) :
    ∃ L', Encodes st L' ∧ (∀ a n, activeAfter n (L a).locks ≤ activeAfter n (L' a).locks) ∧
      ∀ m ≤ t.day, Ledger.After m L → Ledger.After m L' := by
  induction h with
  | start => exact ⟨L, hL, fun a n => le_refl _, fun m _ hm => hm⟩
  | message hrun hlater hadm hok ih =>
    obtain ⟨M, hM, hle, hafter⟩ := ih
    obtain ⟨M', hsteps, hM'⟩ := deliver_refines hM hadm hok
    refine ⟨M', hM', fun a n => (hle a n).trans (hsteps.activeAfter_le a n), ?_⟩
    intro m hm hA
    have hday := BlockTime.day_mono (hrun.later.trans hlater)
    exact hsteps.after (hm.trans hday) (hafter m hm hA)

theorem Reachable.encodes {t₀ t : BlockTime} (h : Reachable k t₀ t st) :
    ∃ L, Encodes st L ∧ Ledger.After t₀.day L := by
  obtain ⟨L, hL, _, hafter⟩ := Run.refines h encodes_empty
  refine ⟨L, hL, hafter t₀.day (le_refl _) ?_⟩
  intro a d hd
  exact absurd hd (lt_irrefl 0)

/-! ### Properties of the store alone

A message writes to the store by three calls only, so what these keep every run keeps. -/

structure KeptByWrites (P : LockStore → Prop) : Prop where
  setLocks : ∀ st a l, P st → P (setLocksByAddress st a l)
  addQueue : ∀ st st' t a x, P st → addToExpirationQueue st t a x = .ok st' → P st'
  removeQueue : ∀ st st' t a x, P st → removeFromExpirationQueue st t a x = .ok st' → P st'

section KeptByWrites

variable {P : LockStore → Prop} (hP : KeptByWrites P)
include hP

theorem KeptByWrites.lock {msg : MsgLock} (h : P st) (hm : lock k ctx st w msg = .ok st') :
    P st' := by
  obtain ⟨addr, t, st₁, _, _, _, _, _, hmerge, hqueue⟩ := lock_ok k hm
  obtain ⟨l, _, rfl⟩ := mergeLock_ok hmerge
  exact hP.addQueue _ _ _ _ _ (hP.setLocks _ _ _ h) hqueue

theorem KeptByWrites.extendOne {addr : AccAddress} {o : Option Extension} (h : P st)
    (hm : extendOne k ctx w addr st o = .ok st') : P st' := by
  obtain ⟨e, tf, tt, st₁, st₂, st₃, _, _, _, _, _, htake, hmerge, hremove, hadd⟩ :=
    extendOne_ok k hm
  obtain ⟨_, _, _, _, _, _, rfl⟩ := takeLock_ok htake
  obtain ⟨_, _, rfl⟩ := mergeLock_ok hmerge
  have h₃ := hP.removeQueue _ _ _ _ _ (hP.setLocks _ _ _ (hP.setLocks _ _ _ h)) hremove
  exact hP.addQueue _ _ _ _ _ h₃ hadd

theorem KeptByWrites.deliver {msg : Message} {s' : LockStore × W} (h : P st)
    (hm : deliver k ctx st w msg = .ok s') : P s'.1 := by
  cases msg with
  | lock msg =>
    simp only [Lockup.deliver, bind_eq_ok] at hm
    obtain ⟨st₁, hlock, hs⟩ := hm
    cases hs
    exact hP.lock h hlock
  | extend msg =>
    simp only [Lockup.deliver, bind_eq_ok] at hm
    obtain ⟨st₁, hextend, hs⟩ := hm
    cases hs
    obtain ⟨addr, _, hloop⟩ := extend_ok k hextend
    exact forRange_invariant P (fun _ _ _ _ hu hstep => hP.extendOne hu hstep) h hloop
  | sendDelegateAndLock msg => exact hP.lock h (sendDelegateAndLock_ok k hm)
  | multiSendDelegateAndLock msg =>
    refine forRange_invariant (fun u : LockStore × W => P u.1) ?_ h
      (multiSendDelegateAndLock_ok k hm)
    intro o _ u u' hu hstep
    simp only [sendOutput, bind_eq_ok] at hstep
    obtain ⟨output, _, hsend⟩ := hstep
    exact hP.lock hu (sendDelegateAndLock_ok k hsend)

theorem KeptByWrites.run {t u : BlockTime} {s : LockStore} (h : Run k t s u st) (hs : P s) :
    P st := by
  induction h with
  | start => exact hs
  | message _ _ _ hok ih => exact hP.deliver ih hok

end KeptByWrites

/-! ### The locked amount -/

theorem isLocked_iff {d : Bytes} {t : Time} (ctx : Ctx) (h : parseDateOnly d = some t) :
    isLocked ctx.blockDay d ↔ ctx.blockTime.day < dayOf d := by
  have ht := parseDateOnly_ofDay h
  unfold isLocked
  rw [h, Ctx.blockDay_eq, dayOf_eq h]
  dsimp only
  rw [ht, Time.before_ofDay, Time.dayNumber_ofDay]

theorem LockList.filter_isLocked (M : LockList) (ctx : Ctx) :
    (M.locks.filter fun e => isLocked ctx.blockDay e.unlockDate) =
      M.locks.filter fun e => ctx.blockTime.day < dayOf e.unlockDate := by
  apply List.filter_congr
  intro e he
  obtain ⟨t, ht⟩ := M.wellFormed.parses e he
  simp only [isLocked_iff ctx ht]

/-- `GetLockedAmountByAddress` returns the amount after the block day, unless that
has more than 256 bits. -/
theorem getLockedAmountByAddress_iff (h : Encodes st L) (ctx : Ctx) (a : AccAddress) (y : ℤ) :
    getLockedAmountByAddress ctx st a = .ok y ↔
      y = activeAfter ctx.blockTime.day (L a).locks ∧ y < intBound := by
  unfold getLockedAmountByAddress
  rw [Views.getLocksByAddress h a, ok_bind]
  dsimp only
  rw [forRange_intAdd_filter Lock.amount (fun e => isLocked ctx.blockDay e.unlockDate),
    LockList.filter_isLocked,
    forRange_intAdd_iff _ _ _ (le_refl 0) intBound_pos]
  · unfold activeAfter
    rw [zero_add]
    constructor
    · intro hy
      exact ⟨hy.1, hy.1 ▸ hy.2⟩
    · intro hy
      exact ⟨hy.1, hy.1 ▸ hy.2⟩
  · intro e he
    exact ((L a).wellFormed.positive e (List.mem_of_mem_filter he)).le

end Tsc.Lockup
