import Tsc.Sdk.IntText
import Tsc.Lockup.Extending
import Tsc.Lockup.Invariants

/-!
# Events of the lockup messages (`x/lockup/types/events.go`)

`Lock` emits one event when it is done, `Extend` one for each extension, all of them after
its loop, and the two transfers the events of the locks they make. The events name the
account by its bech32 text, dates and amounts by their texts. They are a journal of the
module: whoever follows them, past the events of other modules, has the amount stored for
every account and date.
-/

namespace Tsc.Lockup

open Go Sdk Kv Staking

structure Event where
  type : Bytes
  attributes : List (Bytes × Bytes)
  deriving Repr, DecidableEq

def eventTypeLock : Bytes := ascii "lock"

def eventTypeLockExtended : Bytes := ascii "lock_extended"

def attributeKeyLockAddress : Bytes := ascii "address"

def attributeKeyAmount : Bytes := ascii "amount"

def attributeKeyUnlockDate : Bytes := ascii "unlock_date"

def attributeKeyOldUnlockDate : Bytes := ascii "old_unlock_date"

def lockEvent (msg : MsgLock) : Event :=
  ⟨eventTypeLock, [(attributeKeyLockAddress, msg.address),
    (attributeKeyUnlockDate, msg.unlockDate),
    (attributeKeyAmount, decimalText msg.amount.amount)]⟩

def lockExtendedEvent (address : Bytes) (extension : Extension) : Event :=
  ⟨eventTypeLockExtended, [(attributeKeyLockAddress, address),
    (attributeKeyOldUnlockDate, extension.fromDate),
    (attributeKeyUnlockDate, extension.toDate),
    (attributeKeyAmount, decimalText extension.amount.amount)]⟩

/-! ### Handlers with their events

The events of the bank and staking modules, and the `delegate` event `SendDelegateAndLock`
emits in their name, are left out. -/

section Handlers

variable {W : Type} (k : Keepers W) (ctx : Ctx)

def lockEmitting (st : LockStore) (w : W) (msg : MsgLock) : Out (LockStore × List Event) := do
  let st' ← lock k ctx st w msg
  .ok (st', [lockEvent msg])

def extendOneEmitting (w : W) (address : Bytes) (addr : AccAddress) (s : LockStore × List Event)
    (extension? : Option Extension) : Out (LockStore × List Event) := do
  let st' ← extendOne k ctx w addr s.1 extension?
  let extension ← deref extension?
  .ok (st', s.2 ++ [lockExtendedEvent address extension])

def extendEmitting (st : LockStore) (w : W) (msg : MsgExtend) : Out (LockStore × List Event) := do
  let addr ← wrapErr .errInvalidAddress "invalid lockup address: %s"
    (k.accAddressFromBech32 msg.address)
  let _ ← ofOption (fail .errNotFound "no account found for address: %s" [.str msg.address])
    (k.getAccount w addr)
  forRange (extendOneEmitting k ctx w msg.address addr) (st, []) msg.extensions

def sendDelegateAndLockEmitting (st : LockStore) (w : W) (msg : MsgSendDelegateAndLock) :
    Out ((LockStore × W) × List Event) := do
  let s ← sendDelegateAndLock k ctx st w msg
  .ok (s, [lockEvent ⟨msg.toAddress, msg.unlockDate, msg.amount⟩])

def sendOutputEmitting (fromAddress : Bytes) (s : (LockStore × W) × List Event)
    (output? : Option MultiSendDelegateAndLockOutput) : Out ((LockStore × W) × List Event) := do
  let output ← deref output?
  let (s', events) ← sendDelegateAndLockEmitting k ctx s.1.1 s.1.2
    ⟨fromAddress, output.toAddress, output.validatorAddress, output.unlockDate, output.amount⟩
  .ok (s', s.2 ++ events)

def multiSendDelegateAndLockEmitting (st : LockStore) (w : W) (msg : MsgMultiSendDelegateAndLock) :
    Out ((LockStore × W) × List Event) := do
  let _ ← wrapErr .errInvalidAddress "invalid from address: %s"
    (k.accAddressFromBech32 msg.fromAddress)
  let totalOutputs ← forRange addOutput 0 msg.outputs
  failIf (msg.totalAmount.amount ≠ totalOutputs)
    (fail .errInvalidRequest "input %s does not match sum of outputs %s"
      [.coin msg.totalAmount, .int totalOutputs])
  forRange (sendOutputEmitting k ctx msg.fromAddress) ((st, w), []) msg.outputs

def deliverEmitting (st : LockStore) (w : W) : Message → Out ((LockStore × W) × List Event)
  | .lock msg => do
    let (st', events) ← lockEmitting k ctx st w msg
    .ok ((st', w), events)
  | .extend msg => do
    let (st', events) ← extendEmitting k ctx st w msg
    .ok ((st', w), events)
  | .sendDelegateAndLock msg => sendDelegateAndLockEmitting k ctx st w msg
  | .multiSendDelegateAndLock msg => multiSendDelegateAndLockEmitting k ctx st w msg

end Handlers

/-! ### Events change no outcome -/

section Outcome

variable {W : Type} {k : Keepers W} {ctx : Ctx} {st : LockStore} {w : W}

theorem extendOneEmitting_iff {address : Bytes} {addr : AccAddress} (s : LockStore × List Event)
    (o : Option Extension) (st' : LockStore) :
    (∃ s', extendOneEmitting k ctx w address addr s o = .ok s' ∧ s'.1 = st') ↔
      extendOne k ctx w addr s.1 o = .ok st' := by
  simp only [extendOneEmitting, bind_eq_ok]
  constructor
  · intro h
    obtain ⟨_, ⟨st₁, hone, _, _, heq⟩, rfl⟩ := h
    cases heq
    exact hone
  · intro hone
    obtain ⟨e, _, _, _, _, _, rfl, _⟩ := extendOne_ok k hone
    exact ⟨_, ⟨st', hone, e, rfl, rfl⟩, rfl⟩

theorem sendOutputEmitting_iff {fromAddress : Bytes} (s : (LockStore × W) × List Event)
    (o : Option MultiSendDelegateAndLockOutput) (u : LockStore × W) :
    (∃ s', sendOutputEmitting k ctx fromAddress s o = .ok s' ∧ s'.1 = u) ↔
      sendOutput k ctx fromAddress s.1 o = .ok u := by
  simp only [sendOutputEmitting, sendDelegateAndLockEmitting, sendOutput, bind_eq_ok]
  constructor
  · intro h
    obtain ⟨_, ⟨output, hout, _, ⟨u', hsend, heq⟩, heq'⟩, rfl⟩ := h
    cases heq
    cases heq'
    exact ⟨output, hout, hsend⟩
  · intro h
    obtain ⟨output, hout, hsend⟩ := h
    exact ⟨_, ⟨output, hout, _, ⟨u, hsend, rfl⟩, rfl⟩, rfl⟩

theorem deliverEmitting_iff (msg : Message) (s' : LockStore × W) :
    (∃ events, deliverEmitting k ctx st w msg = .ok (s', events)) ↔
      deliver k ctx st w msg = .ok s' := by
  cases msg with
  | lock msg =>
    simp only [deliverEmitting, lockEmitting, deliver, bind_eq_ok]
    constructor
    · intro h
      obtain ⟨_, _, ⟨st', hlock, heq⟩, heq'⟩ := h
      cases heq
      cases heq'
      exact ⟨st', hlock, rfl⟩
    · intro h
      obtain ⟨st', hlock, heq⟩ := h
      cases heq
      exact ⟨_, _, ⟨st', hlock, rfl⟩, rfl⟩
  | extend msg =>
    have hloop : ∀ addr st', (∃ r, forRange (extendOneEmitting k ctx w msg.address addr) (st, [])
        msg.extensions = .ok r ∧ r.1 = st') ↔
        forRange (extendOne k ctx w addr) st msg.extensions = .ok st' :=
      fun addr st' => forRange_proj (fun o _ s u => extendOneEmitting_iff s o u) (st, []) st'
    simp only [deliverEmitting, extendEmitting, deliver, extend, bind_eq_ok]
    constructor
    · intro h
      obtain ⟨events, r, ⟨addr, haddr, u, hu, hr⟩, heq⟩ := h
      cases heq
      exact ⟨r.1, ⟨addr, haddr, u, hu, (hloop addr r.1).mp ⟨r, hr, rfl⟩⟩, rfl⟩
    · intro h
      obtain ⟨st', ⟨addr, haddr, u, hu, hr⟩, heq⟩ := h
      cases heq
      obtain ⟨r, hr', rfl⟩ := (hloop addr st').mpr hr
      exact ⟨r.2, r, ⟨addr, haddr, u, hu, hr'⟩, rfl⟩
  | sendDelegateAndLock msg =>
    simp only [deliverEmitting, sendDelegateAndLockEmitting, deliver, bind_eq_ok]
    constructor
    · intro h
      obtain ⟨_, u, hsend, heq⟩ := h
      cases heq
      exact hsend
    · intro h
      exact ⟨_, s', h, rfl⟩
  | multiSendDelegateAndLock msg =>
    have hloop : (∃ r, forRange (sendOutputEmitting k ctx msg.fromAddress) ((st, w), [])
        msg.outputs = .ok r ∧ r.1 = s') ↔
        forRange (sendOutput k ctx msg.fromAddress) (st, w) msg.outputs = .ok s' :=
      forRange_proj (fun o _ s u => sendOutputEmitting_iff s o u) ((st, w), []) s'
    simp only [deliverEmitting, multiSendDelegateAndLockEmitting, deliver, multiSendDelegateAndLock,
      bind_eq_ok]
    constructor
    · intro h
      obtain ⟨events, a, ha, total, ht, u, hu, hr⟩ := h
      exact ⟨a, ha, total, ht, u, hu, hloop.mp ⟨_, hr, rfl⟩⟩
    · intro h
      obtain ⟨a, ha, total, ht, u, hu, hr⟩ := h
      obtain ⟨r, hr', rfl⟩ := hloop.mpr hr
      exact ⟨r.2, a, ha, total, ht, u, hu, hr'⟩

end Outcome

/-! ### Following the events -/

/-- The amounts an observer holds for accounts and dates. -/
abbrev Amounts := AccAddress → Bytes → ℤ

def Event.IsLockup (e : Event) : Prop := e.type = eventTypeLock ∨ e.type = eventTypeLockExtended

instance (e : Event) : Decidable e.IsLockup := inferInstanceAs (Decidable (_ ∨ _))

def Event.attribute (e : Event) (key : Bytes) : Out Bytes :=
  ofOption (fail .plain "attribute not found" [])
    ((e.attributes.find? fun p => p.1 = key).map Prod.snd)

section Replay

variable {W : Type} (k : Keepers W) (T : TextReader)

/-- What an observer makes of an event; those of other modules are passed by. -/
def follow (M : Amounts) (e : Event) : Out Amounts :=
  if e.type = eventTypeLock then do
    let a ← e.attribute attributeKeyLockAddress >>= k.accAddressFromBech32
    let d ← e.attribute attributeKeyUnlockDate
    let x ← e.attribute attributeKeyAmount >>= T.unmarshalText
    .ok (addAmount M a d x)
  else if e.type = eventTypeLockExtended then do
    let a ← e.attribute attributeKeyLockAddress >>= k.accAddressFromBech32
    let old ← e.attribute attributeKeyOldUnlockDate
    let d ← e.attribute attributeKeyUnlockDate
    let x ← e.attribute attributeKeyAmount >>= T.unmarshalText
    .ok (addAmount (addAmount M a old (-x)) a d x)
  else .ok M

def replay (events : List Event) : Out Amounts := forRange (follow k T) (fun _ _ => 0) events

theorem follow_lockEvent {msg : MsgLock} {a : AccAddress}
    (ha : k.accAddressFromBech32 msg.address = .ok a) (M : Amounts) :
    follow k T M (lockEvent msg) = .ok (addAmount M a msg.unlockDate msg.amount.amount) := by
  have haddr : (lockEvent msg).attribute attributeKeyLockAddress = .ok msg.address := rfl
  have hdate : (lockEvent msg).attribute attributeKeyUnlockDate = .ok msg.unlockDate := rfl
  have hamount : (lockEvent msg).attribute attributeKeyAmount =
    .ok (decimalText msg.amount.amount) := rfl
  have htype : (lockEvent msg).type = eventTypeLock := rfl
  rw [follow, if_pos htype, haddr, hdate, hamount]
  simp only [ok_bind, ha, T.decimal]

theorem follow_lockExtendedEvent {address : Bytes} {e : Extension} {a : AccAddress}
    (ha : k.accAddressFromBech32 address = .ok a) (M : Amounts) :
    follow k T M (lockExtendedEvent address e) =
      .ok (addAmount (addAmount M a e.fromDate (-e.amount.amount)) a e.toDate e.amount.amount) := by
  have haddr : (lockExtendedEvent address e).attribute attributeKeyLockAddress = .ok address := rfl
  have hold : (lockExtendedEvent address e).attribute attributeKeyOldUnlockDate =
    .ok e.fromDate := rfl
  have hdate : (lockExtendedEvent address e).attribute attributeKeyUnlockDate = .ok e.toDate := rfl
  have hamount : (lockExtendedEvent address e).attribute attributeKeyAmount =
    .ok (decimalText e.amount.amount) := rfl
  have htype : (lockExtendedEvent address e).type = eventTypeLockExtended := rfl
  have hother : eventTypeLockExtended ≠ eventTypeLock := by decide
  rw [follow, htype, if_neg hother, if_pos rfl, haddr, hold, hdate, hamount]
  simp only [ok_bind, ha, T.decimal]

theorem follow_other {e : Event} (h : ¬ e.IsLockup) (M : Amounts) : follow k T M e = .ok M := by
  rw [Event.IsLockup, not_or] at h
  rw [follow, if_neg h.1, if_neg h.2]

/-- The events take the amounts of the one store to those of the other. -/
def Journals (st : LockStore) (events : List Event) (st' : LockStore) : Prop :=
  ∀ L, Encodes st L → ∃ L', Encodes st' L' ∧ forRange (follow k T) L.amounts events = .ok L'.amounts

variable {k T}

theorem Journals.refl (st : LockStore) : Journals k T st [] st := fun L hL => ⟨L, hL, rfl⟩

theorem Journals.trans {st₁ st₂ st₃ : LockStore} {es fs : List Event} (h : Journals k T st₁ es st₂)
    (h' : Journals k T st₂ fs st₃) : Journals k T st₁ (es ++ fs) st₃ := by
  intro L hL
  obtain ⟨M, hM, hes⟩ := h L hL
  obtain ⟨N, hN, hfs⟩ := h' M hM
  exact ⟨N, hN, by rw [forRange_bind, hes, ok_bind, hfs]⟩

/-! ### Each message journals what it does -/

theorem Ledger.amounts_add (L : Ledger) (addr : AccAddress) {d : Bytes} {x : ℤ} {t : Time}
    (ht : parseDateOnly d = some t) (hx : 0 < x) :
    Ledger.amounts (Function.update L addr ((L addr).add d x ht hx)) =
      addAmount L.amounts addr d x := by
  funext a d'
  unfold addAmount Ledger.amounts
  by_cases hb : a = addr
  · rw [hb, Function.update_self, LockList.amountOn_add]
    simp only [true_and, eq_comm]
  · rw [Function.update_of_ne hb, if_neg (fun h => hb h.1), add_zero]

theorem Ledger.amounts_sub (L : Ledger) (addr : AccAddress) {d : Bytes} {x : ℤ} (hx : 0 < x)
    (hle : x ≤ amountOn d (L addr).locks) :
    Ledger.amounts (Function.update L addr ((L addr).sub d x hx hle)) =
      addAmount L.amounts addr d (-x) := by
  funext a d'
  unfold addAmount Ledger.amounts
  by_cases hb : a = addr
  · rw [hb, Function.update_self, LockList.amountOn_sub]
    simp only [true_and, eq_comm]
    split_ifs <;> ring
  · rw [Function.update_of_ne hb, if_neg (fun h => hb h.1), add_zero]

section Messages

variable {ctx : Ctx} {st : LockStore} {w : W}

theorem lock_journals {msg : MsgLock} {st' : LockStore} (hm : lock k ctx st w msg = .ok st') :
    Journals k T st [lockEvent msg] st' := by
  intro L hL
  obtain ⟨addr, t, st₁, ha, hx, ht, _, _, hmerge, hqueue⟩ := lock_ok k hm
  refine ⟨_, lock_encodes hL hx ht hmerge hqueue, ?_⟩
  rw [forRange_cons, follow_lockEvent k T ha, ok_bind, L.amounts_add addr ht hx]
  rfl

theorem extendOne_journals {address : Bytes} {addr : AccAddress} {e : Extension} {st' : LockStore}
    (ha : k.accAddressFromBech32 address = .ok addr) (hx : 0 < e.amount.amount)
    (hm : extendOne k ctx w addr st (some e) = .ok st') :
    Journals k T st [lockExtendedEvent address e] st' := by
  intro L hL
  obtain ⟨tf, tt, _, ht, hle, _, _, hL'⟩ := extendOne_encodes hL hx hm
  have htwice := Ledger.amounts_add
    (Function.update L addr ((L addr).sub e.fromDate e.amount.amount hx hle)) addr ht hx
  rw [Function.update_self, Function.update_idem, L.amounts_sub addr hx hle] at htwice
  refine ⟨_, hL', ?_⟩
  rw [forRange_cons, follow_lockExtendedEvent k T ha, ok_bind, htwice]
  rfl

theorem extend_journals {msg : MsgExtend} {r : LockStore × List Event} (hpos : msg.Positive)
    (hm : extendEmitting k ctx st w msg = .ok r) : Journals k T st r.2 r.1 := by
  simp only [extendEmitting, bind_eq_ok, wrapErr_eq_ok] at hm
  obtain ⟨addr, ha, _, _, hloop⟩ := hm
  refine forRange_invariant (fun u => Journals k T st u.2 u.1) ?_ (Journals.refl st) hloop
  intro o ho u u' hu hstep
  simp only [extendOneEmitting, bind_eq_ok] at hstep
  obtain ⟨st₁, hone, e, he, heq⟩ := hstep
  cases (ofOption_eq_ok _ _ _).mp he
  cases heq
  exact hu.trans (extendOne_journals ha (hpos e ho) hone)

theorem outputs_journal {fromAddress : Bytes} {os : List (Option MultiSendDelegateAndLockOutput)}
    {r : (LockStore × W) × List Event}
    (hm : forRange (sendOutputEmitting k ctx fromAddress) ((st, w), []) os = .ok r) :
    Journals k T st r.2 r.1.1 := by
  refine forRange_invariant (fun u : (LockStore × W) × List Event => Journals k T st u.2 u.1.1) ?_
    (Journals.refl st) hm
  intro o _ u u' hu hstep
  simp only [sendOutputEmitting, sendDelegateAndLockEmitting, bind_eq_ok] at hstep
  obtain ⟨output, _, _, ⟨s, hsend, heq⟩, heq'⟩ := hstep
  cases heq
  cases heq'
  exact hu.trans (lock_journals (sendDelegateAndLock_ok k hsend))

theorem deliver_journals {msg : Message} {r : (LockStore × W) × List Event} (hadm : msg.Admissible)
    (hm : deliverEmitting k ctx st w msg = .ok r) : Journals k T st r.2 r.1.1 := by
  cases msg with
  | lock msg =>
    simp only [deliverEmitting, lockEmitting, bind_eq_ok] at hm
    obtain ⟨_, ⟨st', hlock, heq⟩, heq'⟩ := hm
    cases heq
    cases heq'
    exact lock_journals hlock
  | extend msg =>
    simp only [deliverEmitting, bind_eq_ok] at hm
    obtain ⟨_, hextend, heq⟩ := hm
    cases heq
    exact extend_journals hadm hextend
  | sendDelegateAndLock msg =>
    simp only [deliverEmitting, sendDelegateAndLockEmitting, bind_eq_ok] at hm
    obtain ⟨s, hsend, heq⟩ := hm
    cases heq
    exact lock_journals (sendDelegateAndLock_ok k hsend)
  | multiSendDelegateAndLock msg =>
    simp only [deliverEmitting, multiSendDelegateAndLockEmitting, bind_eq_ok] at hm
    obtain ⟨_, _, _, _, _, _, hloop⟩ := hm
    exact outputs_journal hloop

end Messages

end Replay

/-! ### Whole runs -/

section Runs

variable {W : Type} {k : Keepers W} {T : TextReader} {t₀ t : BlockTime} {st : LockStore}
  {events : List Event}

/-- Runs of messages from the empty store with all events so far. -/
inductive EventRun (k : Keepers W) (t₀ : BlockTime) : BlockTime → LockStore → List Event → Prop
  | start : EventRun k t₀ t₀ Store.empty []
  | message {u : BlockTime} {st st' : LockStore} {events new : List Event} {ctx : Ctx} {w w' : W}
      {msg : Message} (run : EventRun k t₀ u st events)
      (later : u.time.nanos ≤ ctx.blockTime.time.nanos) (admissible : msg.Admissible)
      (ok : deliverEmitting k ctx st w msg = .ok ((st', w'), new)) :
      EventRun k t₀ ctx.blockTime st' (events ++ new)

theorem EventRun.reachable (h : EventRun k t₀ t st events) : Reachable k t₀ t st := by
  induction h with
  | start => exact Run.start
  | message _ hlater hadm hok ih =>
    exact Run.message ih hlater hadm ((deliverEmitting_iff _ _).mp ⟨_, hok⟩)

theorem Reachable.emits (h : Reachable k t₀ t st) : ∃ events, EventRun k t₀ t st events := by
  induction h with
  | start => exact ⟨[], .start⟩
  | message _ hlater hadm hok ih =>
    obtain ⟨events, hrun⟩ := ih
    obtain ⟨new, hnew⟩ := (deliverEmitting_iff _ _).mpr hok
    exact ⟨events ++ new, hrun.message hlater hadm hnew⟩

theorem EventRun.journals (h : EventRun k t₀ t st events) :
    Journals k T Store.empty events st := by
  induction h with
  | start => exact Journals.refl _
  | message _ _ hadm hok ih => exact ih.trans (deliver_journals hadm hok)

/-- The loop passes other modules' events by. -/
theorem replay_filter (log : List Event) :
    replay k T log = replay k T (log.filter fun e => e.IsLockup) :=
  forRange_filter (fun _ _ he M => follow_other k T he M) _

/-- The runs of the handlers are those with events, which change no outcome. Over every one
of them, whoever follows the events, with those of other modules anywhere in between, ends
with exactly the amounts stored for all accounts and dates. -/
theorem events_replay (k : Keepers W) (T : TextReader) (t₀ t : BlockTime) (st : LockStore) :
    (Reachable k t₀ t st ↔ ∃ events, EventRun k t₀ t st events) ∧
      ∀ events, EventRun k t₀ t st events →
        ∀ log, log.filter (fun e => e.IsLockup) = events →
          replay k T log = .ok (storedAmount st) := by
  refine ⟨⟨Reachable.emits, fun ⟨_, h⟩ => h.reachable⟩, ?_⟩
  intro events h log hlog
  obtain ⟨L, hL, hreplay⟩ := h.journals Ledger.empty encodes_empty
  have hamounts : storedAmount st = L.amounts := by
    funext a d
    exact hL.storedAmount_eq a d
  rw [replay_filter, hlog, hamounts]
  exact hreplay

end Runs

def transferEvent : Event := ⟨ascii "transfer", [(ascii "amount", ascii "5tsc")]⟩

def juneEvents : Out (List Event × List Event) := do
  let s ← deliverEmitting (readers chain) newYear Store.empty twoValidators
    (.lock lockUntilJune)
  let s' ← deliverEmitting (readers chain) newYear s.1.1 twoValidators (.extend extendToJuly)
  .ok (s.2, s'.2)

/-- A lock and an extension of a part of it, with a transfer in between. -/
theorem events_replay_june :
    ∃ st first second, juneEvents = .ok (first, second) ∧
      Reachable (readers chain) newYear.blockTime newYear.blockTime st ∧
      EventRun (readers chain) newYear.blockTime newYear.blockTime st (first ++ second) ∧
      replay (readers chain) decimalReader (first ++ transferEvent :: second) =
        .ok (storedAmount st) := by
  have hlog : juneEvents.toOption.map (fun r =>
      (r.1 ++ transferEvent :: r.2).filter fun e => e.IsLockup) =
      juneEvents.toOption.map fun r => r.1 ++ r.2 := by decide +kernel
  have hok : juneEvents.isOk = true := by decide +kernel
  obtain ⟨r, hr⟩ := exists_of_isOk hok
  rw [hr] at hlog
  have hfilter := Option.some.inj hlog
  have hsteps := hr
  simp only [juneEvents, bind_eq_ok] at hsteps
  obtain ⟨s, hs, s', hs', heq⟩ := hsteps
  cases heq
  have hlock : (Message.lock lockUntilJune).Admissible := trivial
  have hextend : (Message.extend extendToJuly).Admissible := extendToJuly_positive
  have hrun := (EventRun.start.message (le_refl _) hlock hs).message (le_refl _) hextend hs'
  obtain ⟨hreach, hreplay⟩ := events_replay (readers chain) decimalReader newYear.blockTime
    newYear.blockTime s'.1.1
  exact ⟨s'.1.1, s.2, s'.2, hr, hreach.mpr ⟨_, hrun⟩, hrun, hreplay _ hrun _ hfilter⟩

end Tsc.Lockup
