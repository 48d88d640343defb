import Tsc.Lockup.Locking
import Tsc.Staking.Routes
import Tsc.Staking.Delegating

/-!
# The chain: locks, delegations and transfers together

A transaction carries lockup messages, staking messages and transfers in any mix;
they run one after another on the same stores, under the marks the ante handler
left, and the keepers call the hooks and the send restriction of the lockup module
as they go. Over whole runs without slashing the part of an account's locks that its
delegations do not cover has only two sources: undelegations from a marked pair, and
extensions of locks that have run out. What a request does is shown for exact shares;
on states without slashed validators every platform follows them.
-/

namespace Tsc.Staking

open Go Sdk Kv Lockup

inductive Request where
  | lockup (msg : Message)
  | staking (msg : Msg)
  | send (transfer : Transfer)

/-- A message of a transaction: a request itself, or one that makes requests when it
runs (authz's `MsgExec`, an Ethereum transaction that calls precompiles). -/
inductive ChainMsg where
  | plain (request : Request)
  | wrapping (inner : List Request)
  | ethereumTx (calls : List Request)

def ChainMsg.requests : ChainMsg → List Request
  | .plain request => [request]
  | .wrapping inner => inner
  | .ethereumTx calls => calls

/-- The message as the redelegation marker sees it. -/
def ChainMsg.seen : ChainMsg → TxMsg
  | .plain (.staking msg) => .staking msg
  | _ => .wrapping []

structure ChainTx where
  extensionOptions : List Bytes
  msgs : List ChainMsg

def ChainTx.requests (tx : ChainTx) : List Request := tx.msgs.flatMap ChainMsg.requests

def ChainTx.seen (tx : ChainTx) : Tx := ⟨tx.extensionOptions, tx.msgs.map ChainMsg.seen⟩

section Requests

variable (p : Platform) (c : AddressCodec) (ctx : Ctx)

def handleRequest (s : LockStore × State) : Request → Out (LockStore × State)
  | .lockup msg => deliver (keepers p) ctx s.1 s.2 msg
  | .staking msg => do
    let w' ← handle p ctx s.1 s.2 msg
    .ok (s.1, w')
  | .send transfer => do
    let w' ← (keepers p).sendCoins ctx s.1 s.2 transfer.fromAddr transfer.toAddr transfer.coins
    .ok (s.1, w')

/-- `ValidateBasic` lets only positive extensions through. -/
def Request.Admissible : Request → Prop
  | .lockup msg => msg.Admissible
  | _ => True

/-- What a request can take out from under the locks of `a` without any check: what an
Extend takes from dates that have passed, and what leaves a marked pair. -/
def unchecked (a : AccAddress) : Request → ℤ
  | .lockup (.extend msg) =>
    if c.acc msg.address = .ok a then (msg.extensions.map (revived ctx.blockTime.day)).sum else 0
  | .staking (.undelegate delegator validator amount) =>
    if c.acc delegator = .ok a ∧ isRedelegating ctx a ((c.val validator).toOption.getD []) then
      amount.amount
    else 0
  | _ => 0

end Requests

/-- The part of the locks beyond day `n` that the delegations do not cover. -/
def uncovered (n : ℤ) (L : Ledger) (w : State) (a : AccAddress) : ℤ :=
  deficit (activeAfter n (L a).locks) (delegated w a)

theorem uncovered_le {n : ℤ} {L L' : Ledger} {w w' : State} {a : AccAddress} {loss : ℤ}
    (hloss : 0 ≤ loss)
    (h : activeAfter n (L' a).locks ≤ delegated w' a ∨
      activeAfter n (L' a).locks - delegated w' a ≤
        activeAfter n (L a).locks - delegated w a + loss) :
    uncovered n L' w' a ≤ uncovered n L w a + loss := by
  unfold uncovered deficit
  omega

/-- A step at day `n` that leaves the accounting valid and the store an encoding, and
under no account takes away more than `loss` without a check. -/
structure Covered (n : ℤ) (L : Ledger) (w : State) (s' : LockStore × State)
    (loss : AccAddress → ℤ) : Prop where
  valid : Valid s'.2
  nonneg : ∀ a, 0 ≤ loss a
  ledger : ∃ L', Encodes s'.1 L' ∧ ∀ a, uncovered n L' s'.2 a ≤ uncovered n L w a + loss a

/-- Nothing more is uncovered than before. -/
def NoWorse (n : ℤ) (L : Ledger) (w : State) (s' : LockStore × State) : Prop :=
  Valid s'.2 ∧ ∃ L', Encodes s'.1 L' ∧ ∀ a, uncovered n L' s'.2 a ≤ uncovered n L w a

theorem NoWorse.refl {n : ℤ} {L : Ledger} {s : LockStore × State} (h : Encodes s.1 L)
    (hw : Valid s.2) : NoWorse n L s.2 s :=
  ⟨hw, L, h, fun _ => le_refl _⟩

theorem NoWorse.covered {n : ℤ} {L : Ledger} {w : State} {s' : LockStore × State}
    {loss : AccAddress → ℤ} (h : NoWorse n L w s') (hloss : ∀ a, 0 ≤ loss a) :
    Covered n L w s' loss := by
  obtain ⟨hw', L', hL', hle⟩ := h
  refine ⟨hw', hloss, L', hL', ?_⟩
  intro a
  have hstep := hle a
  have hnn := hloss a
  omega

/-! ### Lockup messages -/

section Lockup

variable {c : AddressCodec} {ctx : Ctx} {st : LockStore} {w : State} {L : Ledger}

theorem noWorse_lock {msg : MsgLock} {st' : LockStore} (h : Encodes st L) (hw : Valid w)
    (hm : lock (keepers c.exact) ctx st w msg = .ok st') :
    NoWorse ctx.blockTime.day L w (st', w) := by
  obtain ⟨addr, t, st₁, _, hx, ht, hday, ⟨locked, total, hl, hd, hle⟩, hmerge, hqueue⟩ :=
    lock_ok (keepers c.exact) hm
  refine ⟨hw, _, lock_encodes h hx ht hmerge hqueue, ?_⟩
  intro a
  by_cases ha : a = addr
  · -- the account itself has just been checked
    have hactive := ((getLockedAmountByAddress_iff h ctx addr locked).mp hl).1
    have htotal := ((hw.priced.getTotalDelegatedAmount_iff c addr total).mp hd).1
    rw [← add_zero (uncovered _ L w a)]
    apply uncovered_le (le_refl 0)
    left
    show _ ≤ delegated w a
    rw [ha, Function.update_self, activeAfter_add ht hx hday.1]
    omega
  · unfold uncovered
    rw [Function.update_of_ne ha]

theorem Encodes.locks_eq {L' : Ledger} (h : Encodes st L) (h' : Encodes st L') (a : AccAddress) :
    (L a).locks = (L' a).locks := by
  have heq := (h.getLocksByAddress a).symm.trans (h'.getLocksByAddress a)
  exact Except.ok.inj heq

theorem extensions_others {k : Keepers State} {addr : AccAddress} {es : List (Option Extension)}
    {st' : LockStore} (h : Encodes st L) (hpos : ∀ e, some e ∈ es → 0 < e.amount.amount)
    (hm : forRange (extendOne k ctx w addr) st es = .ok st') (b : AccAddress) (hb : b ≠ addr) :
    getLocksByAddress st' b = .ok (L b).locks := by
  have hinv : ∃ M, Encodes st' M ∧ (M b).locks = (L b).locks := by
    apply forRange_invariant (fun u => ∃ M, Encodes u M ∧ (M b).locks = (L b).locks) _
      ⟨L, h, rfl⟩ hm
    intro o ho u u' hu hstep
    obtain ⟨M, hM, heq⟩ := hu
    obtain ⟨e, _, _, _, _, _, he, _⟩ := extendOne_ok k hstep
    subst he
    obtain ⟨_, _, _, ht, hle, _, _, hM'⟩ := extendOne_encodes hM (hpos e ho) hstep
    exact ⟨_, hM', by rw [Function.update_of_ne hb, heq]⟩
  obtain ⟨M, hM, heq⟩ := hinv
  rw [hM.getLocksByAddress b, heq]

theorem revived_nonneg {n : ℤ} {es : List (Option Extension)}
    (hpos : ∀ e, some e ∈ es → 0 < e.amount.amount) : 0 ≤ (es.map (revived n)).sum := by
  apply List.sum_nonneg
  intro x hx
  obtain ⟨o, ho, rfl⟩ := List.mem_map.mp hx
  cases o with
  | none => exact le_refl 0
  | some e =>
    unfold revived
    dsimp only
    split_ifs
    · exact (hpos e ho).le
    · exact le_refl 0

theorem covered_extend {msg : MsgExtend} {st' : LockStore} (h : Encodes st L) (hw : Valid w)
    (hpos : msg.Positive) (hm : extend (keepers c.exact) ctx st w msg = .ok st') :
    Covered ctx.blockTime.day L w (st', w) fun a => unchecked c ctx a (.lockup (.extend msg)) := by
  obtain ⟨addr, haddr, hloop⟩ := extend_ok (keepers c.exact) hm
  obtain ⟨L', hL', hactive⟩ := extensions_active h hpos hloop
  have hnn := revived_nonneg (n := ctx.blockTime.day) hpos
  have hself : ∀ a, c.acc msg.address = .ok a ↔ a = addr := by
    intro a
    have hacc : c.acc msg.address = .ok addr := haddr
    rw [hacc, Except.ok.injEq, eq_comm]
  refine ⟨hw, ?_, L', hL', ?_⟩
  · intro a
    simp only [unchecked]
    split_ifs
    · exact hnn
    · exact le_refl 0
  · intro a
    simp only [unchecked, hself a]
    by_cases ha : a = addr
    · rw [if_pos ha]
      apply uncovered_le hnn
      right
      rw [ha, hactive]
      omega
    · rw [if_neg ha, add_zero]
      have hlist := extensions_others h hpos hloop a ha
      rw [hL'.getLocksByAddress a, Except.ok.injEq] at hlist
      unfold uncovered
      rw [hlist]

theorem sendAndDelegate_grows {msg : MsgSendDelegateAndLock} {w' : State} (hw : Valid w)
    (h : sendAndDelegate (keepers c.exact) ctx st w msg = .ok w') :
    Valid w' ∧ ∀ a, delegated w a ≤ delegated w' a := by
  simp only [sendAndDelegate, bind_eq_ok, failIf_eq_ok, not_not] at h
  obtain ⟨_, hpos, _, _, b, _, _, _, _, _, w₁, hsend, _, _, x, _, hdel⟩ := h
  obtain ⟨balance, rfl⟩ := sendCoins_ok hsend
  obtain ⟨w₂, hpay, hdel⟩ := (bind_eq_ok _ _ _).mp hdel
  obtain ⟨hw₂, hsame, _, hpool, _⟩ := payPool_ok (valid_setBalance hw balance) hpos hpay
  have hmoves := delegate_ok hw₂ hpos hpool hdel
  refine ⟨hmoves.valid, ?_⟩
  intro a
  have hbefore : delegated w₂ a = delegated w a := hsame a
  rw [hmoves.amounts a, hbefore]
  split_ifs <;> omega

theorem noWorse_sendDelegateAndLock {msg : MsgSendDelegateAndLock} {s' : LockStore × State}
    (h : Encodes st L) (hw : Valid w)
    (hm : sendDelegateAndLock (keepers c.exact) ctx st w msg = .ok s') :
    NoWorse ctx.blockTime.day L w s' := by
  rw [sendDelegateAndLock_eq] at hm
  simp only [bind_eq_ok] at hm
  obtain ⟨w₂, hsteps, st', hlock, heq⟩ := hm
  cases heq
  obtain ⟨hw₂, hgrows⟩ := sendAndDelegate_grows hw hsteps
  obtain ⟨_, L', hL', hle⟩ := noWorse_lock h hw₂ hlock
  refine ⟨hw₂, L', hL', ?_⟩
  intro a
  refine (hle a).trans ?_
  have hdel := hgrows a
  unfold uncovered deficit
  omega

theorem noWorse_outputs {fromAddress : Bytes} {s' : LockStore × State}
    {os : List (Option MultiSendDelegateAndLockOutput)} (h : Encodes st L) (hw : Valid w)
    (hm : forRange (sendOutput (keepers c.exact) ctx fromAddress) (st, w) os = .ok s') :
    NoWorse ctx.blockTime.day L w s' := by
  refine forRange_invariant (NoWorse ctx.blockTime.day L w) ?_
    (NoWorse.refl (s := (st, w)) h hw) hm
  intro o _ u u' hu hstep
  obtain ⟨hu, M, hM, hle⟩ := hu
  simp only [sendOutput, bind_eq_ok] at hstep
  obtain ⟨output, _, hsend⟩ := hstep
  obtain ⟨hu', M', hM', hle'⟩ := noWorse_sendDelegateAndLock hM hu hsend
  exact ⟨hu', M', hM', fun a => (hle' a).trans (hle a)⟩

theorem covered_lockup {msg : Message} {s' : LockStore × State} (h : Encodes st L) (hw : Valid w)
    (hadm : msg.Admissible) (hm : deliver (keepers c.exact) ctx st w msg = .ok s') :
    Covered ctx.blockTime.day L w s' fun a => unchecked c ctx a (.lockup msg) := by
  cases msg with
  | lock msg =>
    simp only [deliver, bind_eq_ok] at hm
    obtain ⟨st', hlock, heq⟩ := hm
    cases heq
    exact (noWorse_lock h hw hlock).covered fun a => le_refl 0
  | extend msg =>
    simp only [deliver, bind_eq_ok] at hm
    obtain ⟨st', hextend, heq⟩ := hm
    cases heq
    exact covered_extend h hw hadm hextend
  | sendDelegateAndLock msg =>
    exact (noWorse_sendDelegateAndLock h hw hm).covered fun a => le_refl 0
  | multiSendDelegateAndLock msg =>
    exact (noWorse_outputs h hw (multiSendDelegateAndLock_ok (keepers c.exact) hm)).covered
      fun a => le_refl 0

end Lockup

/-! ### Staking messages and transfers -/

section Requests

variable {c : AddressCodec} {ctx : Ctx} {st : LockStore} {w w' : State} {L : Ledger}

/-- An undelegation off the marked pairs has read the locked amount. -/
theorem handleUndelegate_locked {d : AccAddress} {v : ValAddress} {amt : ℤ} (hw : Valid w)
    (hamt : 0 < amt) (hm : ¬ isRedelegating ctx d v)
    (h : handleUndelegate c.exact ctx st w d v amt = .ok w') :
    ∃ locked, getLockedAmountByAddress ctx st d = .ok locked := by
  simp only [handleUndelegate, bind_eq_ok] at h
  obtain ⟨shares, hs, r, hu, _⟩ := h
  obtain ⟨x, current, hx, hk, hp, hle⟩ := validateUnbondAmount_ok hw hamt hs
  obtain ⟨_, hcond⟩ := (unbond_iff hw hk hx hp.pos hle r).mp hu
  obtain ⟨locked, hl, _⟩ := hcond.resolve_left hm
  exact ⟨locked, hl⟩

theorem covered_undelegate {delegator validator : Bytes} {amount : Coin} (h : Encodes st L)
    (hw : Valid w) (hm : handle c.exact ctx st w (.undelegate delegator validator amount) = .ok w') :
    Covered ctx.blockTime.day L w (st, w')
      fun a => unchecked c ctx a (.staking (.undelegate delegator validator amount)) := by
  simp only [handle, checkCoin, bind_eq_ok, failIf_eq_ok, not_not] at hm
  obtain ⟨v, hv, d, hd, _, ⟨_, hpos, _⟩, hh⟩ := hm
  obtain ⟨_, hmoves, hcheck⟩ := handleUndelegate_ok hw hpos hh
  have hloss : ∀ a, unchecked c ctx a (.staking (.undelegate delegator validator amount)) =
      if d = a ∧ isRedelegating ctx a v then amount.amount else 0 := by
    intro a
    have hacc : c.acc delegator = .ok d := hd
    have hval : c.val validator = .ok v := hv
    simp only [unchecked, hacc, hval, Except.toOption, Option.getD_some, Except.ok.injEq]
  refine ⟨hmoves.valid, ?_, L, h, ?_⟩
  · intro a
    rw [hloss a]
    split_ifs <;> omega
  · intro a
    rw [hloss a]
    have hafter := hmoves.amounts a
    by_cases hda : d = a
    · subst hda
      by_cases hmark : isRedelegating ctx d v
      · rw [if_pos ⟨rfl, hmark⟩]
        apply uncovered_le hpos.le
        right
        show _ - delegated w' d ≤ _
        rw [hmoves.self]
        omega
      · -- the hook has compared the locks with what is left
        obtain ⟨locked, hl⟩ := handleUndelegate_locked hw hpos hmark hh
        have hactive := ((getLockedAmountByAddress_iff h ctx d locked).mp hl).1
        rw [if_neg (fun hb => hmark hb.2)]
        apply uncovered_le (le_refl 0)
        left
        rw [← hactive]
        exact hcheck hmark locked hl
    · rw [if_neg hda, add_zero] at hafter
      rw [if_neg (fun hb => hda hb.1)]
      apply uncovered_le (le_refl 0)
      right
      show _ - delegated w' a ≤ _
      omega

theorem covered_staking {msg : Msg} (h : Encodes st L) (hw : Valid w)
    (hm : handle c.exact ctx st w msg = .ok w') :
    Covered ctx.blockTime.day L w (st, w') fun a => unchecked c ctx a (.staking msg) := by
  have hh := handle_ok hw hm
  -- a delegation adds to one account, a redelegation changes no total
  have hgrows : (∀ a, 0 ≤ netOf c a msg) → NoWorse ctx.blockTime.day L w (st, w') := by
    intro hnet
    refine ⟨hh.valid, L, h, ?_⟩
    intro a
    have hafter := hh.net a
    have hnn := hnet a
    unfold uncovered deficit
    dsimp only
    omega
  cases msg with
  | delegate delegator validator amount =>
    simp only [handle, checkCoin, bind_eq_ok, failIf_eq_ok, not_not] at hm
    obtain ⟨_, _, _, _, _, ⟨_, hpos, _⟩, _⟩ := hm
    refine (hgrows ?_).covered fun a => le_refl 0
    intro a
    simp only [netOf]
    split_ifs
    · exact hpos.le
    · exact le_refl 0
  | undelegate delegator validator amount => exact covered_undelegate h hw hm
  | beginRedelegate _ _ _ _ => exact (hgrows fun a => le_refl 0).covered fun a => le_refl 0

theorem covered_request {request : Request} {s' : LockStore × State} (h : Encodes st L)
    (hw : Valid w) (hadm : request.Admissible)
    (hm : handleRequest c.exact ctx (st, w) request = .ok s') :
    Covered ctx.blockTime.day L w s' fun a => unchecked c ctx a request := by
  cases request with
  | lockup msg => exact covered_lockup h hw hadm hm
  | staking msg =>
    simp only [handleRequest, bind_eq_ok] at hm
    obtain ⟨w', hh, heq⟩ := hm
    cases heq
    exact covered_staking h hw hh
  | send transfer =>
    simp only [handleRequest, bind_eq_ok] at hm
    obtain ⟨w', hsend, heq⟩ := hm
    cases heq
    obtain ⟨balance, rfl⟩ := sendCoins_ok hsend
    have hsame : NoWorse ctx.blockTime.day L w (st, { w with balance }) :=
      ⟨valid_setBalance hw balance, L, h, fun a => le_refl _⟩
    exact hsame.covered fun a => le_refl 0

end Requests

/-! ### Other platforms -/

section Platforms

variable {p : Platform} {ctx : Ctx} {st : LockStore} {w w' : State}

theorem lock_exact {msg : MsgLock} {st' : LockStore} (hw : Priced w) (hu : Unslashed w)
    (h : lock (keepers p) ctx st w msg = .ok st') :
    lock (keepers p.exact) ctx st w msg = .ok st' := by
  simp only [lock, bind_eq_ok] at h ⊢
  obtain ⟨denom, hdenom, _, hcoin, a, ha, _, hpos, t, ht, _, hday, _, hlimit, locked, hl, total, hd,
    hrest⟩ := h
  exact ⟨denom, hdenom, (), hcoin, a, ha, (), hpos, t, ht, (), hday, (), hlimit, locked, hl, total,
    getTotalDelegatedAmount_exact hw hu hd, hrest⟩

theorem sendRestrictionFn_exact {fromAddr toAddr receiver : AccAddress} {amt : Coins}
    (hw : Priced w) (hu : Unslashed w)
    (h : sendRestrictionFn (readers p) ctx st w fromAddr toAddr amt = .ok receiver) :
    sendRestrictionFn (readers p.exact) ctx st w fromAddr toAddr amt = .ok receiver := by
  simp only [sendRestrictionFn, bind_eq_ok] at h ⊢
  obtain ⟨denom, hdenom, h⟩ := h
  refine ⟨denom, hdenom, ?_⟩
  split_ifs at h ⊢
  · exact h
  · simp only [bind_eq_ok] at h ⊢
    obtain ⟨locked, hl, h⟩ := h
    refine ⟨locked, hl, ?_⟩
    split_ifs at h ⊢
    · exact h
    · simp only [bind_eq_ok] at h ⊢
      obtain ⟨total, ht, hrest⟩ := h
      exact ⟨total, getTotalDelegatedAmount_exact hw hu ht, hrest⟩

theorem sendCoins_exact {fromAddr toAddr : AccAddress} {amt : Coins} (hw : Priced w)
    (hu : Unslashed w) (h : (keepers p).sendCoins ctx st w fromAddr toAddr amt = .ok w') :
    (keepers p.exact).sendCoins ctx st w fromAddr toAddr amt = .ok w' ∧ Unslashed w' := by
  obtain ⟨receiver, hsend, hmoves⟩ := (bind_eq_ok _ _ _).mp h
  have hexact : (keepers p.exact).sendCoins ctx st w fromAddr toAddr amt = .ok w' :=
    (bind_eq_ok _ _ _).mpr ⟨receiver, sendRestrictionFn_exact hw hu hsend, hmoves⟩
  obtain ⟨balance, rfl⟩ := sendCoins_ok hexact
  exact ⟨hexact, hu.rate, hu.decimal⟩

theorem sendDelegateAndLock_exact {msg : MsgSendDelegateAndLock} {s' : LockStore × State}
    (hw : Valid w) (hu : Unslashed w)
    (h : sendDelegateAndLock (keepers p) ctx st w msg = .ok s') :
    sendDelegateAndLock (keepers p.exact) ctx st w msg = .ok s' ∧ Valid s'.2 ∧ Unslashed s'.2 := by
  rw [sendDelegateAndLock_eq] at h ⊢
  obtain ⟨w₂, hsteps, st', hlock, heq⟩ := by simpa only [bind_eq_ok] using h
  cases heq
  have hexact : sendAndDelegate (keepers p.exact) ctx st w msg = .ok w₂ ∧ Unslashed w₂ := by
    simp only [sendAndDelegate, bind_eq_ok] at hsteps ⊢
    obtain ⟨_, hpos, a, ha, b, hb, denom, hdenom, _, hcoin, w₁, hsend, v, hv, x, hx, hdel⟩ := hsteps
    obtain ⟨hsend', hu₁⟩ := sendCoins_exact hw.priced hu hsend
    obtain ⟨balance, rfl⟩ := sendCoins_ok hsend'
    have hamt : 0 < msg.amount.amount := not_not.mp ((failIf_eq_ok _ _ _).mp hpos)
    obtain ⟨hdel', hu₂⟩ := handleDelegate_exact (valid_setBalance hw balance) hu₁ hamt hdel
    exact ⟨⟨(), hpos, a, ha, b, hb, denom, hdenom, (), hcoin, _, hsend', v, hv, x, hx, hdel'⟩, hu₂⟩
  have hvalid := (sendAndDelegate_grows hw hexact.1).1
  rw [hexact.1, ok_bind, lock_exact hvalid.priced hexact.2 hlock, ok_bind]
  exact ⟨rfl, hvalid, hexact.2⟩

theorem multiSendDelegateAndLock_exact {msg : MsgMultiSendDelegateAndLock}
    {s' : LockStore × State} (hw : Valid w) (hu : Unslashed w)
    (h : multiSendDelegateAndLock (keepers p) ctx st w msg = .ok s') :
    multiSendDelegateAndLock (keepers p.exact) ctx st w msg = .ok s' ∧ Valid s'.2 ∧
      Unslashed s'.2 := by
  simp only [multiSendDelegateAndLock, bind_eq_ok] at h ⊢
  obtain ⟨a, ha, outputs, hsum, _, htotal, hloop⟩ := h
  have hinv : forRange (sendOutput (keepers p.exact) ctx msg.fromAddress) (st, w) msg.outputs =
      .ok s' ∧ Valid s'.2 ∧ Unslashed s'.2 := by
    refine forRange_follows (fun u => Valid u.2 ∧ Unslashed u.2) ?_ ⟨hw, hu⟩ hloop
    intro o _ u u' hinv hstep
    simp only [sendOutput, bind_eq_ok] at hstep ⊢
    obtain ⟨output, houtput, hsend⟩ := hstep
    obtain ⟨hsend', hinv'⟩ := sendDelegateAndLock_exact hinv.1 hinv.2 hsend
    exact ⟨⟨output, houtput, hsend'⟩, hinv'⟩
  exact ⟨⟨a, ha, outputs, hsum, (), htotal, hinv.1⟩, hinv.2⟩

theorem deliver_exact {msg : Message} {s' : LockStore × State} (hw : Valid w) (hu : Unslashed w)
    (h : deliver (keepers p) ctx st w msg = .ok s') :
    deliver (keepers p.exact) ctx st w msg = .ok s' ∧ Unslashed s'.2 := by
  cases msg with
  | lock msg =>
    simp only [deliver, bind_eq_ok] at h ⊢
    obtain ⟨st', hlock, heq⟩ := h
    cases heq
    exact ⟨⟨st', lock_exact hw.priced hu hlock, rfl⟩, hu⟩
  | extend msg =>
    -- `Extend` reads no delegations
    simp only [deliver, bind_eq_ok] at h ⊢
    obtain ⟨st', hextend, heq⟩ := h
    cases heq
    exact ⟨⟨st', hextend, rfl⟩, hu⟩
  | sendDelegateAndLock msg =>
    obtain ⟨hexact, _, hu'⟩ := sendDelegateAndLock_exact hw hu h
    exact ⟨hexact, hu'⟩
  | multiSendDelegateAndLock msg =>
    obtain ⟨hexact, _, hu'⟩ := multiSendDelegateAndLock_exact hw hu h
    exact ⟨hexact, hu'⟩

theorem handleRequest_exact {request : Request} {s s' : LockStore × State} (hw : Valid s.2)
    (hu : Unslashed s.2) (h : handleRequest p ctx s request = .ok s') :
    handleRequest p.exact ctx s request = .ok s' ∧ Unslashed s'.2 := by
  cases request with
  | lockup msg => exact deliver_exact hw hu h
  | staking msg =>
    simp only [handleRequest, bind_eq_ok] at h ⊢
    obtain ⟨w', hh, heq⟩ := h
    cases heq
    obtain ⟨hh', hu'⟩ := handle_exact hw hu hh
    exact ⟨⟨w', hh', rfl⟩, hu'⟩
  | send transfer =>
    simp only [handleRequest, bind_eq_ok] at h ⊢
    obtain ⟨w', hsend, heq⟩ := h
    cases heq
    obtain ⟨hsend', hu'⟩ := sendCoins_exact hw.priced hu hsend
    exact ⟨⟨w', hsend', rfl⟩, hu'⟩

/-- The requests of a transaction, one after another. -/
theorem covered_requests {requests : List Request} {s s' : LockStore × State} {L : Ledger}
    (h : Encodes s.1 L) (hw : Valid s.2) (hu : Unslashed s.2)
    (hadm : ∀ r ∈ requests, r.Admissible)
    (hm : forRange (handleRequest p ctx) s requests = .ok s') :
    Unslashed s'.2 ∧ Covered ctx.blockTime.day L s.2 s'
      fun a => (requests.map (unchecked p.toAddressCodec ctx a)).sum := by
  induction requests generalizing s L with
  | nil =>
    cases hm
    exact ⟨hu, (NoWorse.refl h hw).covered fun a => le_refl 0⟩
  | cons request requests ih =>
    obtain ⟨u, hone, hrest⟩ := (bind_eq_ok _ _ _).mp hm
    obtain ⟨hone', hu₁⟩ := handleRequest_exact hw hu hone
    have hfirst : Covered ctx.blockTime.day L s.2 u
        fun a => unchecked p.toAddressCodec ctx a request :=
      covered_request h hw (hadm request (List.mem_cons_self ..)) hone'
    obtain ⟨M, hM, hle⟩ := hfirst.ledger
    obtain ⟨hu', hothers⟩ := ih hM hfirst.valid hu₁ (fun r hr => hadm r (List.mem_cons_of_mem _ hr))
      hrest
    obtain ⟨L', hL', hle'⟩ := hothers.ledger
    refine ⟨hu', hothers.valid, ?_, L', hL', ?_⟩
    · intro a
      rw [List.map_cons, List.sum_cons]
      exact add_nonneg (hfirst.nonneg a) (hothers.nonneg a)
    · intro a
      have h₁ := hle a
      have h₂ := hle' a
      rw [List.map_cons, List.sum_cons]
      omega

end Platforms

/-! ### Runs -/

/-- States of the chain from a staking state `w₀` and no locks, first block at `t₀` or
later and no validator slashed on the way, with the amounts that went unchecked so far. -/
inductive ChainRun (p : Platform) (t₀ : BlockTime) (w₀ : State) :
    BlockTime → LockStore × State → (AccAddress → ℤ) → Prop
  | start : ChainRun p t₀ w₀ t₀ (Store.empty, w₀) fun _ => 0
  | tx {u : BlockTime} {s s' : LockStore × State} {loss : AccAddress → ℤ} {ctx ctx' : Ctx}
      {tx : ChainTx} (run : ChainRun p t₀ w₀ u s loss)
      (later : u.time.nanos ≤ ctx.blockTime.time.nanos)
      (ante : newAnteHandler p.toAddressCodec passing ctx tx.seen = .ok ctx')
      (admissible : ∀ r ∈ tx.requests, r.Admissible)
      (ok : forRange (handleRequest p ctx') s tx.requests = .ok s') :
      ChainRun p t₀ w₀ ctx.blockTime s'
        fun a => loss a + (tx.requests.map (unchecked p.toAddressCodec ctx' a)).sum

theorem markTxMsg_blockTime {c : AddressCodec} {ctx ctx' : Ctx} {msg : TxMsg}
    (h : markTxMsg c ctx msg = .ok ctx') : ctx'.blockTime = ctx.blockTime := by
  cases msg with
  | staking msg =>
    have hante : anteHandle c ctx [msg] = .ok ctx' := by
      have hmark : markRedelegation c ctx msg = .ok ctx' := h
      unfold anteHandle
      rw [forRange_cons, hmark, ok_bind]
      rfl
    exact anteHandle_blockTime hante
  | wrapping _ =>
    cases h
    rfl
  | ethereumTx _ =>
    cases h
    rfl

theorem newAnteHandler_blockTime {c : AddressCodec} {ctx ctx' : Ctx} {tx : Tx}
    (h : newAnteHandler c passing ctx tx = .ok ctx') : ctx'.blockTime = ctx.blockTime := by
  have hcosmos : ∀ {u : Ctx}, newCosmosAnteHandler c passing ctx tx = .ok u →
      u.blockTime = ctx.blockTime := by
    intro u hu
    obtain ⟨u', hloop, hpass⟩ := (bind_eq_ok _ _ _).mp hu
    cases hpass
    refine forRange_invariant (fun u => u.blockTime = ctx.blockTime) ?_ rfl hloop
    intro msg _ v v' hv hstep
    rw [markTxMsg_blockTime hstep, hv]
  unfold newAnteHandler at h
  split at h
  · exact hcosmos h
  · split_ifs at h
    · cases h
      rfl
    · exact hcosmos h

/-- The invariant of a run: what is uncovered went unchecked before. -/
theorem ChainRun.uncovered_le {p : Platform} {t₀ t : BlockTime} {w₀ : State}
    {s : LockStore × State} {loss : AccAddress → ℤ} (h : ChainRun p t₀ w₀ t s loss)
    (hw₀ : Valid w₀) (hu₀ : Unslashed w₀) :
    (Valid s.2 ∧ Unslashed s.2) ∧
      ∃ L, Encodes s.1 L ∧ ∀ a, uncovered t.day L s.2 a ≤ loss a := by
  induction h with
  | start =>
    refine ⟨⟨hw₀, hu₀⟩, Ledger.empty, encodes_empty, ?_⟩
    intro a
    have hnn := hw₀.priced.delegated_nonneg a
    have hnone : activeAfter t₀.day (Ledger.empty a).locks = 0 := rfl
    unfold uncovered deficit
    dsimp only
    omega
  | tx hrun hlater hante hadm hok ih =>
    obtain ⟨⟨hw, hu⟩, L, hL, hle⟩ := ih
    obtain ⟨hu', hstep⟩ := covered_requests hL hw hu hadm hok
    rw [newAnteHandler_blockTime hante] at hstep
    obtain ⟨L', hL', hle'⟩ := hstep.ledger
    refine ⟨⟨hstep.valid, hu'⟩, L', hL', ?_⟩
    intro a
    -- locks that ran out since the last block no longer need cover
    have hanti := activeAfter_anti (L a).wellFormed (BlockTime.day_mono hlater)
    have hbefore := hle a
    have hafter := hle' a
    unfold uncovered deficit at hbefore hafter ⊢
    dsimp only at hafter ⊢
    omega

/-- Over every run without slashing the locked amount of an account exceeds what it has
delegated by no more than what it undelegated from marked pairs and what its extensions
took from dates that had passed; this holds at every later block time. -/
theorem chain_covers_locks (p : Platform) {t₀ t : BlockTime} {w₀ : State}
    {s : LockStore × State} {loss : AccAddress → ℤ} (hw₀ : Valid w₀) (hu₀ : Unslashed w₀)
    (h : ChainRun p t₀ w₀ t s loss) (ctx : Ctx)
    (hlater : t.time.nanos ≤ ctx.blockTime.time.nanos) (a : AccAddress) (locked total : ℤ)
    (hl : getLockedAmountByAddress ctx s.1 a = .ok locked)
    (hd : getTotalDelegatedAmount (readers p) s.2 a = .ok total) :
    locked ≤ total + loss a := by
  obtain ⟨⟨hw, hu⟩, L, hL, hle⟩ := h.uncovered_le hw₀ hu₀
  have hlocked := ((getLockedAmountByAddress_iff hL ctx a locked).mp hl).1
  have htotal := ((hw.priced.getTotalDelegatedAmount_iff p.toAddressCodec a total).mp
    (getTotalDelegatedAmount_exact hw.priced hu hd)).1
  have hanti := activeAfter_anti (L a).wellFormed (BlockTime.day_mono hlater)
  have hshort := hle a
  unfold uncovered deficit at hshort
  omega

/-- A lock, a redelegation away from the validator it rests on, and a payment. -/
def mixedTx : ChainTx :=
  ⟨[], [.plain (.lockup (.lock ⟨accText (ascii "d"), ascii "2026-06-01", tsc 100⟩)),
    .plain (.staking redelegateOne),
    .wrapping [.send ⟨ascii "s", ascii "d", [tsc 5], by decide, by decide⟩]]⟩

def runMixed : Out (Ctx × (LockStore × State) × ℤ × ℤ) := do
  let ctx ← newAnteHandler bech32 passing newYear mixedTx.seen
  let s ← forRange (handleRequest chain ctx) (Store.empty, fundedSender) mixedTx.requests
  let locked ← getLockedAmountByAddress newYear s.1 (ascii "d")
  let total ← getTotalDelegatedAmount (readers chain) s.2 (ascii "d")
  .ok (ctx, s, locked, total)

theorem mixed_run {ctx : Ctx} {s : LockStore × State}
    (hante : newAnteHandler bech32 passing newYear mixedTx.seen = .ok ctx)
    (hs : forRange (handleRequest chain ctx) (Store.empty, fundedSender) mixedTx.requests =
      .ok s) :
    ChainRun chain newYear.blockTime fundedSender newYear.blockTime s
      fun a => 0 + (mixedTx.requests.map (unchecked bech32 ctx a)).sum := by
  have hadm : ∀ r ∈ mixedTx.requests, r.Admissible := by
    intro r hr
    simp only [mixedTx, ChainTx.requests, ChainMsg.requests, List.flatMap_cons, List.flatMap_nil,
      List.mem_append, List.mem_singleton, List.not_mem_nil, or_false] at hr
    rcases hr with rfl | rfl | rfl <;> trivial
  exact ChainRun.tx ChainRun.start (le_refl _) hante hadm hs

theorem fundedSender_unslashed : Unslashed fundedSender :=
  ⟨twoValidators_unslashed.rate, twoValidators_unslashed.decimal⟩

theorem chain_covers_locks_mixed :
    ∃ s loss, ChainRun chain newYear.blockTime fundedSender newYear.blockTime s loss ∧
      getLockedAmountByAddress newYear s.1 (ascii "d") = .ok 100 ∧
      getTotalDelegatedAmount (readers chain) s.2 (ascii "d") = .ok 100 ∧
      100 ≤ 100 + loss (ascii "d") := by
  have hok : (runMixed >>= fun r => .ok r.2.2) = .ok (100, 100) := by decide +kernel
  simp only [runMixed, bind_eq_ok] at hok
  obtain ⟨_, ⟨ctx, hante, s, hs, locked, hl, total, ht, heq⟩, hread⟩ := hok
  cases heq
  cases hread
  have hrun := mixed_run hante hs
  exact ⟨s, _, hrun, hl, ht, chain_covers_locks chain (valid_setBalance twoValidators_valid _)
    fundedSender_unslashed hrun newYear (le_refl _) (ascii "d") 100 100 hl ht⟩

end Tsc.Staking
