import Tsc.Precompiles.LockupAbi

/-!
# Calls of the lockup contract

What a call that returns has done, in terms of the message server: which messages calls
stand for, that they reach no state messages do not reach, and that an observer who follows
the logs knows the stored amounts.
-/

namespace Tsc.Precompiles

open Go Sdk Kv Lockup Staking

/-! ### What a call that returns has done -/

section Inversion

variable {W : Type} {k : Keepers W} {H : Evm} {ctx : Ctx} {s s' : LockStore × W}
  {caller input bondDenom : Bytes} {readOnly : Bool} {logs : List EthLog} {bz : Bytes}
  {m : Method} {args : List AbiValue}

theorem newIntFromBigInt_uint {x : ℤ} (h : Uint256 x) : newIntFromBigInt (some x) = .ok x := by
  have hbound := intBound_pos
  have hrange : InRange x := ⟨lt_of_lt_of_le (by omega) h.1, h.2⟩
  exact (checkInt_eq_ok _ _).mpr ⟨hrange, rfl⟩

section Typed

variable {a v d : Bytes} {x : ℤ} (hx : Uint256 x)
include hx

theorem newMsgLock_iff (r : MsgLock × Bytes) :
    newMsgLock H [.address a, .string d, .bigInt (some x)] bondDenom = .ok r ↔
      (0 < x ∧ H.validDenom bondDenom = true) ∧ r = (⟨H.accString a, d, ⟨bondDenom, x⟩⟩, a) := by
  simp only [newMsgLock, asAddress, asString, asBigInt, newIntFromBigInt_uint hx, ok_bind,
    bind_eq_ok, failIf_eq_ok, not_not, newCoin_eq_ok]
  constructor
  · intro h
    obtain ⟨_, hpos, coin, ⟨⟨hdenom, _⟩, rfl⟩, heq⟩ := h
    cases heq
    exact ⟨⟨hpos, hdenom⟩, rfl⟩
  · intro h
    obtain ⟨⟨hpos, hdenom⟩, rfl⟩ := h
    exact ⟨(), hpos, _, ⟨⟨hdenom, hx.1⟩, rfl⟩, rfl⟩

theorem newMsgSendDelegateAndLock_iff (r : MsgSendDelegateAndLock × Bytes × Bytes) :
    newMsgSendDelegateAndLock H [.address a, .string v, .string d, .bigInt (some x)] caller
      bondDenom = .ok r ↔
      (0 < x ∧ H.validDenom bondDenom = true) ∧
        r = (⟨H.accString caller, H.accString a, v, d, ⟨bondDenom, x⟩⟩, caller, a) := by
  simp only [newMsgSendDelegateAndLock, asAddress, asString, asBigInt, newIntFromBigInt_uint hx,
    ok_bind, bind_eq_ok, failIf_eq_ok, not_not, newCoin_eq_ok]
  constructor
  · intro h
    obtain ⟨_, hpos, coin, ⟨⟨hdenom, _⟩, rfl⟩, heq⟩ := h
    cases heq
    exact ⟨⟨hpos, hdenom⟩, rfl⟩
  · intro h
    obtain ⟨⟨hpos, hdenom⟩, rfl⟩ := h
    exact ⟨(), hpos, _, ⟨⟨hdenom, hx.1⟩, rfl⟩, rfl⟩

end Typed

/-- Whatever address a call of `extend` names, the decoder's tuples are refused. -/
theorem precompileExtend_refused {G : Host} {a : Bytes} {exts : List ExtensionInput}
    {r : LockStore × List Log × Bytes} :
    precompileExtend k G ctx s.1 s.2 caller [.address a, .tuples abiExtensions exts] ≠ .ok r := by
  intro h
  simp only [precompileExtend, newMsgExtend, parseExtensions, if_neg abiExtensions_ne, bind_eq_ok,
    wrapErr_eq_ok] at h
  obtain ⟨_, _, _, ⟨_, hparse, _⟩, _⟩ := h
  cases hparse

/-- What a call that returns has done: it read, or the caller's lock or payment went
through the message server and was logged. -/
inductive Effect (k : Keepers W) (H : Evm) (ctx : Ctx) (s : LockStore × W) (caller : Bytes) :
    LockStore × W → List EthLog → Prop
  | read : Effect k H ctx s caller s []
  | lock {bondDenom d : Bytes} {x : ℤ} {st' : LockStore} {log : EthLog}
      (len : caller.length = 20) (text : GoString d) (uint : Uint256 x)
      (ok : Lockup.lock k ctx s.1 s.2 ⟨H.accString caller, d, ⟨bondDenom, x⟩⟩ = .ok st')
      (logged : emitLockEvent H ⟨H.accString caller, d, ⟨bondDenom, x⟩⟩ caller = .ok log) :
      Effect k H ctx s caller (st', s.2) [log]
  | send {bondDenom toAddr v d : Bytes} {x : ℤ} {s' : LockStore × W} {log : EthLog}
      (len : toAddr.length = 20) (texts : GoString v ∧ GoString d) (uint : Uint256 x)
      (ok : sendDelegateAndLock k ctx s.1 s.2
        ⟨H.accString caller, H.accString toAddr, v, d, ⟨bondDenom, x⟩⟩ = .ok s')
      (logged : emitSendDelegateAndLockEvent H
        ⟨H.accString caller, H.accString toAddr, v, d, ⟨bondDenom, x⟩⟩ caller toAddr = .ok log) :
      Effect k H ctx s caller s' [log]

theorem execute_ok (h : execute k H ctx s caller input readOnly = .ok (s', logs, bz)) :
    Effect k H ctx s caller s' logs ∧ (readOnly = true → s' = s ∧ logs = []) := by
  simp only [execute, bind_eq_ok] at h
  obtain ⟨⟨m, args⟩, hsetup, hrun⟩ := h
  have htyped := H.typed _ _ _ _ hsetup
  have hwrites : isTransaction m = true → readOnly = true → s' = s ∧ logs = [] := by
    intro htx hro
    rw [hro] at hsetup
    rw [H.guarded _ _ _ hsetup] at htx
    cases htx
  cases m with
  | lock =>
    refine ⟨?_, hwrites rfl⟩
    obtain ⟨a, d, x, rfl, hlen, hd, hx⟩ := htyped
    simp only [runMethod, precompileLock, bind_eq_ok, newMsgLock_iff hx, failIf_eq_ok,
      not_not] at hrun
    obtain ⟨bondDenom, _, _, ⟨_, rfl⟩, _, rfl, st', hlock, log, hlog, _, _, heq⟩ := hrun
    cases heq
    exact .lock hlen hd hx hlock hlog
  | extend =>
    obtain ⟨a, exts, rfl⟩ := htyped
    simp only [runMethod, bind_eq_ok] at hrun
    obtain ⟨r, hextend, _⟩ := hrun
    exact absurd hextend precompileExtend_refused
  | sendDelegateAndLock =>
    refine ⟨?_, hwrites rfl⟩
    obtain ⟨a, v, d, x, rfl, hlen, htexts, hx⟩ := htyped
    simp only [runMethod, precompileSendDelegateAndLock, bind_eq_ok,
      newMsgSendDelegateAndLock_iff hx] at hrun
    obtain ⟨bondDenom, _, _, ⟨_, rfl⟩, u, hsend, log, hlog, _, _, heq⟩ := hrun
    cases heq
    exact .send hlen htexts hx hsend hlog
  | locks =>
    simp only [runMethod, bind_eq_ok] at hrun
    obtain ⟨_, _, heq⟩ := hrun
    cases heq
    exact ⟨.read, fun _ => ⟨rfl, rfl⟩⟩
  | totalLockedAmount =>
    simp only [runMethod, bind_eq_ok] at hrun
    obtain ⟨_, _, heq⟩ := hrun
    cases heq
    exact ⟨.read, fun _ => ⟨rfl, rfl⟩⟩
  | other name => cases hrun

end Inversion

/-! ### Calls and messages -/

section Runs

variable {W : Type} {k : Keepers W} {H : Evm} {t₀ t : BlockTime} {st : LockStore}

theorem Effect.delivered {ctx : Ctx} {s s' : LockStore × W} {caller : Bytes} {logs : List EthLog}
    (h : Effect k H ctx s caller s' logs) :
    s' = s ∨ ∃ msg : Message, msg.Admissible ∧ deliver k ctx s.1 s.2 msg = .ok s' := by
  cases h with
  | read => exact Or.inl rfl
  | @lock bondDenom d x st' log _ _ _ hok _ =>
    refine Or.inr ⟨.lock ⟨H.accString caller, d, ⟨bondDenom, x⟩⟩, trivial, ?_⟩
    rw [deliver, hok, ok_bind]
  | send _ _ _ hok _ => exact Or.inr ⟨.sendDelegateAndLock _, trivial, hok⟩

/-- Stores after messages and calls of the contract, in any order, by any callers and with
any call data. -/
inductive ContractRun (k : Keepers W) (H : Evm) (t₀ : BlockTime) : BlockTime → LockStore → Prop
  | start : ContractRun k H t₀ t₀ Store.empty
  | message {u : BlockTime} {st st' : LockStore} {ctx : Ctx} {w w' : W} {msg : Message}
      (run : ContractRun k H t₀ u st) (later : u.time.nanos ≤ ctx.blockTime.time.nanos)
      (admissible : msg.Admissible) (ok : deliver k ctx st w msg = .ok (st', w')) :
      ContractRun k H t₀ ctx.blockTime st'
  | call {u : BlockTime} {st st' : LockStore} {ctx : Ctx} {w w' : W} {caller input bz : Bytes}
      {readOnly : Bool} {logs : List EthLog} (run : ContractRun k H t₀ u st)
      (later : u.time.nanos ≤ ctx.blockTime.time.nanos)
      (ok : execute k H ctx (st, w) caller input readOnly = .ok ((st', w'), logs, bz)) :
      ContractRun k H t₀ ctx.blockTime st'

/-- The contract opens no way to a state that messages alone do not reach. -/
theorem contract_reaches_no_more (k : Keepers W) (H : Evm) {t₀ t : BlockTime} {st : LockStore}
    (h : ContractRun k H t₀ t st) : ∃ u, u.time.nanos ≤ t.time.nanos ∧ Reachable k t₀ u st := by
  induction h with
  | start => exact ⟨t₀, le_refl _, Run.start⟩
  | message _ hlater hadm hok ih =>
    obtain ⟨v, hv, hreach⟩ := ih
    exact ⟨_, le_refl _, Run.message hreach (hv.trans hlater) hadm hok⟩
  | call _ hlater hok ih =>
    obtain ⟨v, hv, hreach⟩ := ih
    rcases (execute_ok hok).1.delivered with heq | ⟨msg, hadm, hmsg⟩
    · cases heq
      exact ⟨v, hv.trans hlater, hreach⟩
    · exact ⟨_, le_refl _, Run.message hreach (hv.trans hlater) hadm hmsg⟩

/-! ### Two calls -/

def holder : Bytes := List.replicate 20 1

def payee : Bytes := List.replicate 20 2

/-- `holder` has 1000 with validator `A` and 500 besides. -/
def holderState : State :=
  { oneValidator with
    delegations := ⟨[(toLex (holder, ascii "A"), 1000)], List.pairwise_singleton _ _⟩
    balance := fun a _ => if a = holder then 500 else 0 }

/-- Call data for `lock(holder, "2026-06-01", 40)`. -/
def lockCall : Bytes :=
  beBytes 4 0x38e611b3 ++
    Abi.encode [.uint (beVal holder), .string (ascii "2026-06-01"), .uint 40]

/-- Call data for `sendDelegateAndLock(payee, A, "2026-07-01", 10)`. -/
def sendCall : Bytes :=
  beBytes 4 0xb9f4c400 ++ Abi.encode [.uint (beVal payee), .string (valText (ascii "A")),
    .string (ascii "2026-07-01"), .uint 10]

def twoCalls : Out ((LockStore × State) × (LockStore × State) × List EthLog × List EthLog) := do
  let (s, logs, _) ← execute (keepers chain) lockupEvm newYear (Store.empty, holderState) holder
    lockCall false
  let (s', logs', _) ← execute (keepers chain) lockupEvm newYear s holder sendCall false
  .ok (s, s', logs, logs')

theorem twoCalls_isOk : twoCalls.isOk = true := by decide +kernel

theorem lockCall_decoded : lockupEvm.setupABI lockCall false =
    .ok (.lock, [.address holder, .string (ascii "2026-06-01"), .bigInt (some 40)]) := by
  decide +kernel

theorem contract_reaches_no_more_two :
    ∃ st, ContractRun (keepers chain) lockupEvm newYear.blockTime newYear.blockTime st ∧
      ∃ u : BlockTime, u.time.nanos ≤ newYear.blockTime.time.nanos ∧
        Reachable (keepers chain) newYear.blockTime u st := by
  obtain ⟨r, hr⟩ := exists_of_isOk twoCalls_isOk
  simp only [twoCalls, bind_eq_ok] at hr
  obtain ⟨s, hs, s', hs', _⟩ := hr
  have hrun := (ContractRun.start.call (le_refl _) hs).call (le_refl _) hs'
  exact ⟨s'.1.1, hrun, contract_reaches_no_more (keepers chain) lockupEvm hrun⟩

end Runs

/-! ### The logs -/

section Logs

variable (H : Evm)

/-- What an observer makes of a log of the contract. -/
def followLog (M : Amounts) (log : EthLog) : Out Amounts :=
  match log.topics with
  | [id, topic] =>
    if id = H.eventID (ascii "Lock") then do
      let (d, x) ← H.unpackLock log.data
      .ok (addAmount M (H.readTopic topic) d x)
    else .ok M
  | [id, _, toTopic] =>
    if id = H.eventID (ascii "SendDelegateAndLock") then do
      let (_, d, x) ← H.unpackSendDelegateAndLock log.data
      .ok (addAmount M (H.readTopic toTopic) d x)
    else .ok M
  | _ => .ok M

variable {H}

theorem followLog_lock {msg : MsgLock} {a : Bytes} {log : EthLog} (hlen : a.length = 20)
    (hd : GoString msg.unlockDate) (hx : Uint256 msg.amount.amount)
    (h : emitLockEvent H msg a = .ok log) (M : Amounts) :
    followLog H M log = .ok (addAmount M a msg.unlockDate msg.amount.amount) := by
  simp only [emitLockEvent, bind_eq_ok] at h
  obtain ⟨topic, htopic, data, hdata, heq⟩ := h
  cases heq
  simp only [followLog, if_true, H.unpackLock_pack _ _ _ hd hx hdata, ok_bind,
    H.readTopic_make _ _ hlen htopic]

theorem followLog_send {msg : MsgSendDelegateAndLock} {fromAddr toAddr : Bytes} {log : EthLog}
    (hlen : toAddr.length = 20) (hv : GoString msg.validatorAddress) (hd : GoString msg.unlockDate)
    (hx : Uint256 msg.amount.amount)
    (h : emitSendDelegateAndLockEvent H msg fromAddr toAddr = .ok log) (M : Amounts) :
    followLog H M log = .ok (addAmount M toAddr msg.unlockDate msg.amount.amount) := by
  simp only [emitSendDelegateAndLockEvent, bind_eq_ok] at h
  obtain ⟨fromTopic, _, toTopic, htopic, data, hdata, heq⟩ := h
  cases heq
  simp only [followLog, if_true, H.unpackSend_pack _ _ _ _ hv hd hx hdata, ok_bind,
    H.readTopic_make _ _ hlen htopic]

theorem addAmount_le {M : Amounts} {b : AccAddress} {d : Bytes} {x : ℤ} (hx : 0 ≤ x)
    (a : AccAddress) (d' : Bytes) : M a d' ≤ addAmount M b d x a d' := by
  unfold addAmount
  split_ifs <;> omega

/-- A lock for an account with a 20-byte address, in the amounts of the ledger. -/
theorem lock_amounts {W : Type} {k : Keepers W} {ctx : Ctx} {st st' : LockStore} {w : W}
    {msg : MsgLock} {a : AccAddress} {L : Ledger} (h : Encodes st L)
    (ha : k.accAddressFromBech32 msg.address = .ok a) (hm : Lockup.lock k ctx st w msg = .ok st') :
    0 < msg.amount.amount ∧ ∃ L', Encodes st' L' ∧
      L'.amounts = addAmount L.amounts a msg.unlockDate msg.amount.amount := by
  obtain ⟨addr, t, st₁, haddr, hx, ht, _, _, hmerge, hqueue⟩ := lock_ok k hm
  rw [ha] at haddr
  cases haddr
  exact ⟨hx, _, lock_encodes h hx ht hmerge hqueue, L.amounts_add a ht hx⟩

variable {W : Type} {k : Keepers W}

/-- The logs take the amounts of the one store to those of the other, which are no
smaller, and name the caller. -/
structure Logged (H : Evm) (caller : Bytes) (st : LockStore) (logs : List EthLog)
    (st' : LockStore) : Prop where
  amounts : ∀ L, Encodes st L → ∃ L', Encodes st' L' ∧
    forRange (followLog H) L.amounts logs = .ok L'.amounts ∧
    ∀ a d, L.amounts a d ≤ L'.amounts a d
  names : ∀ log ∈ logs, ∃ topic, H.makeTopic caller = .ok topic ∧ log.topics[1]? = some topic

theorem Effect.logged {ctx : Ctx} {s s' : LockStore × W} {caller : Bytes} {logs : List EthLog}
    (haddr : ∀ a, a.length = 20 → k.accAddressFromBech32 (H.accString a) = .ok a)
    (h : Effect k H ctx s caller s' logs) : Logged H caller s.1 logs s'.1 := by
  cases h with
  | read =>
    exact ⟨fun L hL => ⟨L, hL, rfl, fun _ _ => le_refl _⟩, fun log hlog => nomatch hlog⟩
  | lock hlen hd huint hok hlog =>
    refine ⟨?_, ?_⟩
    · intro L hL
      obtain ⟨hx, L', hL', heq⟩ := lock_amounts hL (haddr _ hlen) hok
      refine ⟨L', hL', ?_, fun a d => heq ▸ addAmount_le hx.le a d⟩
      rw [forRange_cons, followLog_lock hlen hd huint hlog, ok_bind, heq]
      rfl
    · intro log hmem
      rw [List.mem_singleton.mp hmem]
      simp only [emitLockEvent, bind_eq_ok] at hlog
      obtain ⟨topic, htopic, _, _, heq⟩ := hlog
      cases heq
      exact ⟨topic, htopic, rfl⟩
  | send hlen htexts huint hok hlog =>
    refine ⟨?_, ?_⟩
    · intro L hL
      obtain ⟨hx, L', hL', heq⟩ := lock_amounts hL (haddr _ hlen) (sendDelegateAndLock_ok k hok)
      refine ⟨L', hL', ?_, fun a d => heq ▸ addAmount_le hx.le a d⟩
      rw [forRange_cons, followLog_send hlen htexts.1 htexts.2 huint hlog, ok_bind, heq]
      rfl
    · intro log hmem
      rw [List.mem_singleton.mp hmem]
      simp only [emitSendDelegateAndLockEvent, bind_eq_ok] at hlog
      obtain ⟨topic, htopic, _, _, _, _, heq⟩ := hlog
      cases heq
      exact ⟨topic, htopic, rfl⟩

/-- Calls one after another, with their logs and who made them; other contracts may
change anything else in between. -/
inductive Calls (k : Keepers W) (H : Evm) (st : LockStore) :
    LockStore → List (Bytes × EthLog) → Prop
  | none : Calls k H st st []
  | call {u u' : LockStore} {ctx : Ctx} {w w' : W} {caller input bz : Bytes} {readOnly : Bool}
      {logs : List (Bytes × EthLog)} {new : List EthLog} (calls : Calls k H st u logs)
      (ok : execute k H ctx (u, w) caller input readOnly = .ok ((u', w'), new, bz)) :
      Calls k H st u' (logs ++ new.map fun log => (caller, log))

/-- Whatever sequence of calls the contract gets, no stored amount of any account and date
falls, following its logs gives the new amounts, and every log names the caller. -/
theorem calls_logged (k : Keepers W) (H : Evm)
    (haddr : ∀ a, a.length = 20 → k.accAddressFromBech32 (H.accString a) = .ok a)
    {t₀ t : BlockTime} {st st' : LockStore} (h : Reachable k t₀ t st)
    {logs : List (Bytes × EthLog)} (hcalls : Calls k H st st' logs) :
    forRange (followLog H) (storedAmount st) (logs.map Prod.snd) = .ok (storedAmount st') ∧
      (∀ a d, storedAmount st a d ≤ storedAmount st' a d) ∧
      ∀ p ∈ logs, ∃ topic, H.makeTopic p.1 = .ok topic ∧ p.2.topics[1]? = some topic := by
  obtain ⟨L, hL, _⟩ := h.encodes
  have hstored : ∀ {u M}, Encodes u M → storedAmount u = M.amounts := by
    intro u M hM
    funext a d
    exact hM.storedAmount_eq a d
  have hall : ∃ L', Encodes st' L' ∧
      forRange (followLog H) L.amounts (logs.map Prod.snd) = .ok L'.amounts ∧
      (∀ a d, L.amounts a d ≤ L'.amounts a d) ∧
      ∀ p ∈ logs, ∃ topic, H.makeTopic p.1 = .ok topic ∧ p.2.topics[1]? = some topic := by
    induction hcalls with
    | none => exact ⟨L, hL, rfl, fun _ _ => le_refl _, fun p hp => nomatch hp⟩
    | call _ hok ih =>
      obtain ⟨M, hM, hreplay, hle, hnames⟩ := ih
      have hlogged := (execute_ok hok).1.logged haddr
      obtain ⟨M', hM', hreplay', hle'⟩ := hlogged.amounts M hM
      refine ⟨M', hM', ?_, fun a d => (hle a d).trans (hle' a d), ?_⟩
      · rw [List.map_append, List.map_map, forRange_bind, hreplay, ok_bind, ← hreplay']
        congr 1
        exact List.map_id _
      · intro p hp
        rcases List.mem_append.mp hp with hp | hp
        · exact hnames p hp
        · obtain ⟨log, hlog, rfl⟩ := List.mem_map.mp hp
          exact hlogged.names log hlog
  obtain ⟨L', hL', hreplay, hle, hnames⟩ := hall
  rw [hstored hL, hstored hL']
  exact ⟨hreplay, hle, hnames⟩

theorem calls_logged_two :
    ∃ st logs, Calls (keepers chain) lockupEvm Store.empty st logs ∧
      forRange (followLog lockupEvm) (storedAmount Store.empty) (logs.map Prod.snd) =
        .ok (storedAmount st) := by
  obtain ⟨r, hr⟩ := exists_of_isOk twoCalls_isOk
  simp only [twoCalls, bind_eq_ok] at hr
  obtain ⟨s, hs, s', hs', _⟩ := hr
  have hcalls := (Calls.none.call hs).call hs'
  have hstart : Reachable (keepers chain) newYear.blockTime newYear.blockTime Store.empty :=
    Run.start
  exact ⟨_, _, hcalls,
    (calls_logged (keepers chain) lockupEvm (fun a _ => readText_accText a) hstart hcalls).1⟩

end Logs

/-! ### Agreement with the message server -/

/-- The message a caller's transaction stands for: none for somebody else's locks, and none
without an amount. -/
def nativeMsg (H : Evm) (caller bondDenom : Bytes) : Method → List AbiValue → Option Message
  | .lock, [.address a, .string d, .bigInt (some x)] =>
    if caller = a ∧ 0 < x then some (.lock ⟨H.accString caller, d, ⟨bondDenom, x⟩⟩) else none
  | .sendDelegateAndLock, [.address a, .string v, .string d, .bigInt (some x)] =>
    if 0 < x then
      some (.sendDelegateAndLock ⟨H.accString caller, H.accString a, v, d, ⟨bondDenom, x⟩⟩)
    else none
  | _, _ => none

structure Evm.Works (H : Evm) : Prop where
  makeTopic : ∀ a, ∃ topic, H.makeTopic a = .ok topic
  packLock : ∀ d x, ∃ data, H.packLock d x = .ok data
  packSend : ∀ v d x, ∃ data, H.packSendDelegateAndLock v d x = .ok data
  packSuccess : ∃ result, H.packSuccess = .ok result

section Agreement

variable {W : Type} {k : Keepers W} {H : Evm} {ctx : Ctx} {s s' : LockStore × W}
  {caller bondDenom a v d : Bytes} {x : ℤ} (hH : H.Works) (hbond : k.bondDenom s.2 = .ok bondDenom)
  (hdenom : H.validDenom bondDenom = true) (hx : Uint256 x)
include hH hbond hdenom hx

theorem precompileLock_iff :
    (∃ logs bz, precompileLock k H ctx s caller [.address a, .string d, .bigInt (some x)] =
      .ok (s', logs, bz)) ↔
      (caller = a ∧ 0 < x) ∧
        deliver k ctx s.1 s.2 (.lock ⟨H.accString caller, d, ⟨bondDenom, x⟩⟩) = .ok s' := by
  simp only [precompileLock, hbond, ok_bind, bind_eq_ok, newMsgLock_iff hx, failIf_eq_ok,
    not_not, deliver]
  constructor
  · intro h
    obtain ⟨_, _, _, ⟨⟨hpos, _⟩, rfl⟩, _, rfl, st', hlock, _, _, _, _, heq⟩ := h
    cases heq
    exact ⟨⟨rfl, hpos⟩, st', hlock, rfl⟩
  · intro h
    obtain ⟨⟨rfl, hpos⟩, st', hlock, heq⟩ := h
    cases heq
    obtain ⟨topic, htopic⟩ := hH.makeTopic caller
    obtain ⟨data, hdata⟩ := hH.packLock d x
    obtain ⟨result, hresult⟩ := hH.packSuccess
    have hlog : emitLockEvent H ⟨H.accString caller, d, ⟨bondDenom, x⟩⟩ caller =
        .ok ⟨lockupPrecompileAddress, [H.eventID (ascii "Lock"), topic], data⟩ := by
      simp only [emitLockEvent, htopic, hdata, ok_bind]
    exact ⟨_, result, _, ⟨⟨hpos, hdenom⟩, rfl⟩, (), rfl, st', hlock, _, hlog, result, hresult, rfl⟩

theorem precompileSendDelegateAndLock_iff :
    (∃ logs bz, precompileSendDelegateAndLock k H ctx s caller
      [.address a, .string v, .string d, .bigInt (some x)] = .ok (s', logs, bz)) ↔
      0 < x ∧ sendDelegateAndLock k ctx s.1 s.2
        ⟨H.accString caller, H.accString a, v, d, ⟨bondDenom, x⟩⟩ = .ok s' := by
  simp only [precompileSendDelegateAndLock, hbond, ok_bind, bind_eq_ok,
    newMsgSendDelegateAndLock_iff hx]
  constructor
  · intro h
    obtain ⟨_, _, _, ⟨⟨hpos, _⟩, rfl⟩, u, hsend, _, _, _, _, heq⟩ := h
    cases heq
    exact ⟨hpos, hsend⟩
  · intro h
    obtain ⟨hpos, hsend⟩ := h
    obtain ⟨fromTopic, hfrom⟩ := hH.makeTopic caller
    obtain ⟨toTopic, hto⟩ := hH.makeTopic a
    obtain ⟨data, hdata⟩ := hH.packSend v d x
    obtain ⟨result, hresult⟩ := hH.packSuccess
    have hlog : emitSendDelegateAndLockEvent H
        ⟨H.accString caller, H.accString a, v, d, ⟨bondDenom, x⟩⟩ caller a =
        .ok ⟨lockupPrecompileAddress,
          [H.eventID (ascii "SendDelegateAndLock"), fromTopic, toTopic], data⟩ := by
      simp only [emitSendDelegateAndLockEvent, hfrom, hto, hdata, ok_bind]
    exact ⟨_, result, _, ⟨⟨hpos, hdenom⟩, rfl⟩, s', hsend, _, hlog, result, hresult, rfl⟩

end Agreement

/-- For every state, caller and decodable call data, a transaction of the contract goes
through exactly when the message it stands for does, with the same result. An `extend`, a
`lock` for somebody else and an amount of zero stand for none. -/
theorem execute_agrees {W : Type} (k : Keepers W) (H : Evm) (hH : H.Works) (ctx : Ctx)
    (s s' : LockStore × W) (caller : Bytes) {bondDenom input : Bytes} {m : Method}
    {args : List AbiValue} (hbond : k.bondDenom s.2 = .ok bondDenom)
    (hdenom : H.validDenom bondDenom = true)
    (hdecoded : H.setupABI input false = .ok (m, args)) (htx : isTransaction m = true) :
    (∃ logs bz, execute k H ctx s caller input false = .ok (s', logs, bz)) ↔
      ∃ msg, nativeMsg H caller bondDenom m args = some msg ∧
        deliver k ctx s.1 s.2 msg = .ok s' := by
  have hrun : execute k H ctx s caller input false = runMethod k H ctx s caller args m := by
    rw [execute, hdecoded, ok_bind]
  rw [hrun]
  have htyped := H.typed _ _ _ _ hdecoded
  cases m with
  | lock =>
    obtain ⟨a, d, x, rfl, _, _, hx⟩ := htyped
    rw [runMethod, precompileLock_iff hH hbond hdenom hx, nativeMsg]
    split_ifs with ha
    · simp [ha]
    · simp [ha]
  | extend =>
    obtain ⟨a, exts, rfl⟩ := htyped
    simp only [runMethod, bind_eq_ok, nativeMsg, reduceCtorEq, false_and, exists_false, iff_false]
    intro h
    obtain ⟨_, _, r, hextend, _⟩ := h
    exact precompileExtend_refused hextend
  | sendDelegateAndLock =>
    obtain ⟨a, v, d, x, rfl, _, _, hx⟩ := htyped
    rw [runMethod, precompileSendDelegateAndLock_iff hH hbond hdenom hx, nativeMsg]
    split_ifs with hpos
    · simp [hpos, deliver]
    · simp [hpos]
  | locks => cases htx
  | totalLockedAmount => cases htx
  | other name => cases htx

theorem lockupEvm_works : lockupEvm.Works :=
  ⟨fun _ => ⟨_, rfl⟩, fun _ _ => ⟨_, rfl⟩, fun _ _ _ => ⟨_, rfl⟩, ⟨_, rfl⟩⟩

/-- Forty locked by a call are forty locked by the message. -/
theorem execute_agrees_forty :
    ∃ s' msg, (∃ logs bz, execute (keepers chain) lockupEvm newYear (Store.empty, holderState)
        holder lockCall false = .ok (s', logs, bz)) ∧
      nativeMsg lockupEvm holder (ascii "tsc") .lock [.address holder,
        .string (ascii "2026-06-01"), .bigInt (some 40)] = some msg ∧
      deliver (keepers chain) newYear Store.empty holderState msg = .ok s' := by
  obtain ⟨r, hr⟩ := exists_of_isOk twoCalls_isOk
  simp only [twoCalls, bind_eq_ok] at hr
  obtain ⟨⟨s', logs, bz⟩, hs, _⟩ := hr
  obtain ⟨msg, hmsg, hok⟩ := (execute_agrees (keepers chain) lockupEvm lockupEvm_works newYear
    (Store.empty, holderState) s' holder rfl (by decide) lockCall_decoded rfl).mp ⟨logs, bz, hs⟩
  exact ⟨s', msg, ⟨logs, bz, hs⟩, hmsg, hok⟩

end Tsc.Precompiles
