import Tsc.Lockup.SendRestriction
import Tsc.Lockup.Distribution
import Tsc.Lockup.Extending
import Tsc.Staking.Tx

/-!
# Locking is exact and backed

What `Lock` asks for and what it leaves: the locked amount of the account grows by
the amount of the message and stays within what is delegated, and no other account
is touched. `SendDelegateAndLock` delegates that amount first, which makes room for
the lock, as long as the records of the recipient fit the page the delegations are
read in.
-/

namespace Tsc.Lockup

open Go Sdk Kv Staking

variable {W : Type}

/-! ### `Lock` -/

section Lock

variable {k : Keepers W} {ctx : Ctx} {st st' : LockStore} {w : W} {L : Ledger}

/-- After locking `x` for the account of `address`: its locked amount is `x` more and
within its delegations, the lists of all others are as before. -/
structure LockedExactly (k : Keepers W) (ctx : Ctx) (st st' : LockStore) (w : W) (address : Bytes)
    (x : ℤ) : Prop where
  grows : ∃ a locked delegated, k.accAddressFromBech32 address = .ok a ∧
    getLockedAmountByAddress ctx st a = .ok locked ∧
    getLockedAmountByAddress ctx st' a = .ok (locked + x) ∧
    getTotalDelegatedAmount k w a = .ok delegated ∧ locked + x ≤ delegated
  others : ∀ a b, k.accAddressFromBech32 address = .ok a → b ≠ a →
    getLocksByAddress st' b = getLocksByAddress st b

theorem activeAfter_add {M : LockList} {d : Bytes} {t : Time} {x n : ℤ}
    (ht : parseDateOnly d = some t) (hx : 0 < x) (hn : n < t.dayNumber) :
    activeAfter n (M.add d x ht hx).locks = activeAfter n M.locks + x := by
  rw [activeAfter_eq_weigh, activeAfter_eq_weigh, LockList.weigh_add, dayOf_eq ht, if_pos hn,
    one_mul]

theorem lock_exactly {msg : MsgLock} (h : Encodes st L) (hm : lock k ctx st w msg = .ok st') :
    LockedExactly k ctx st st' w msg.address msg.amount.amount := by
  obtain ⟨a, t, st₁, ha, hx, ht, hday, ⟨locked, delegated, hl, hd, hle⟩, hmerge, hqueue⟩ :=
    lock_ok k hm
  have hL' := lock_encodes h hx ht hmerge hqueue
  have hlt := getTotalDelegatedAmount_lt hd
  refine ⟨⟨a, locked, delegated, ha, hl, ?_, hd, hle⟩, ?_⟩
  · rw [getLockedAmountByAddress_iff hL', Function.update_self, activeAfter_add ht hx hday.1,
      ← ((getLockedAmountByAddress_iff h ctx a locked).mp hl).1]
    exact ⟨rfl, by omega⟩
  · intro a' b ha' hb
    rw [ha] at ha'
    cases ha'
    rw [hL'.getLocksByAddress, h.getLocksByAddress, Function.update_of_ne hb]

/-- `Lock` goes through on every store that encodes a ledger once its checks pass: the
merged amounts are within the delegated amount and so in range. -/
theorem lock_succeeds {msg : MsgLock} {a : AccAddress} {t : Time} {locked delegated : ℤ}
    (h : Encodes st L) (hbond : k.bondDenom w = .ok msg.amount.denom)
    (ha : k.accAddressFromBech32 msg.address = .ok a) (hx : 0 < msg.amount.amount)
    (ht : parseDateOnly msg.unlockDate = some t) (hday : ctx.blockTime.day < t.dayNumber)
    (hlimit : t.dayNumber ≤ ctx.blockTime.horizon)
    (hl : getLockedAmountByAddress ctx st a = .ok locked)
    (hd : getTotalDelegatedAmount k w a = .ok delegated)
    (hle : locked + msg.amount.amount ≤ delegated) :
    ∃ st', lock k ctx st w msg = .ok st' := by
  have hlt := getTotalDelegatedAmount_lt hd
  have hactive := ((getLockedAmountByAddress_iff h ctx a locked).mp hl).1
  have hnn := activeAfter_nonneg (L a).wellFormed ctx.blockTime.day
  have hwithin : amountOn msg.unlockDate (L a).locks ≤ locked := by
    rw [hactive]
    exact amountOn_le_activeAfter (L a).wellFormed (by rwa [dayOf_eq ht])
  have hbound := intBound_pos
  have hadd : intAdd locked msg.amount.amount = .ok (locked + msg.amount.amount) :=
    (intAdd_eq_ok _ _ _).mpr ⟨⟨by omega, by omega⟩, rfl⟩
  have hfuture : ¬ (ctx.blockDay.After t ∨ ctx.blockDay = t) := by
    rw [Ctx.blockDay_eq, parseDateOnly_ofDay ht, Time.after_ofDay]
    rintro (hlt | heq)
    · omega
    · have hsame := congrArg Time.dayNumber heq
      rw [Time.dayNumber_ofDay, Time.dayNumber_ofDay] at hsame
      omega
  have hhorizon : ¬ (ctx.blockDay.addDate 2 0 0).Before t := by
    rw [Ctx.blockDay_addDate, parseDateOnly_ofDay ht, Time.before_ofDay]
    omega
  obtain ⟨st₁, hmerge⟩ := h.mergeLock_ok hx (by omega : amountOn msg.unlockDate (L a).locks +
    msg.amount.amount < intBound)
  have hv := h.mergeLock ht hx hmerge
  obtain ⟨st', hqueue⟩ := hv.addToExpirationQueue_ok ht
    (amountOn_nonneg (L a).wellFormed msg.unlockDate) hx (by unfold Ledger.amounts; omega)
  refine ⟨st', ?_⟩
  simp only [lock, hbond, ok_bind, failIf_of_not _ (not_not.mpr rfl), ha, wrapErr,
    failIf_of_not _ (not_not.mpr hx), ht, ofOption, failIf_of_not _ hfuture,
    failIf_of_not _ hhorizon, hl, hd, hadd, failIf_of_not _ (not_lt.mpr hle), hmerge, hqueue]

end Lock

/-! ### `SendDelegateAndLock` -/

/-- `SendDelegateAndLock` up to its call of `Lock`. -/
def sendAndDelegate (k : Keepers W) (ctx : Ctx) (st : LockStore) (w : W)
    (msg : MsgSendDelegateAndLock) : Out W := do
  failIf (¬ 0 < msg.amount.amount)
    (fail .errInvalidCoins "invalid amount: %s" [.coin msg.amount])
  let fromAddr ← wrapErr .errInvalidAddress "invalid from address: %s"
    (k.accAddressFromBech32 msg.fromAddress)
  let toAddr ← wrapErr .errInvalidAddress "invalid to address: %s"
    (k.accAddressFromBech32 msg.toAddress)
  let bondDenom ← k.bondDenom w
  failIf (msg.amount.denom ≠ bondDenom)
    (fail .errInvalidRequest "invalid denom: %s, expected: %s"
      [.str msg.amount.denom, .str bondDenom])
  let w₁ ← k.sendCoins ctx st w fromAddr toAddr [msg.amount]
  let valAddr ← wrapErr .errInvalidAddress "invalid validator address: %s"
    (k.valAddressFromBech32 msg.validatorAddress)
  let validator ← k.getValidator w₁ valAddr
  k.delegate ctx st w₁ toAddr msg.amount.amount validator

theorem sendDelegateAndLock_eq (k : Keepers W) (ctx : Ctx) (st : LockStore) (w : W)
    (msg : MsgSendDelegateAndLock) :
    sendDelegateAndLock k ctx st w msg = (do
      let w₂ ← sendAndDelegate k ctx st w msg
      let st' ← lock k ctx st w₂ ⟨msg.toAddress, msg.unlockDate, msg.amount⟩
      .ok (st', w₂)) := by
  simp only [sendDelegateAndLock, sendAndDelegate, bind_assoc]

section Steps

variable {c : AddressCodec} {ctx : Ctx} {st : LockStore} {w w' : State}

theorem valid_setBalance (h : Valid w) (balance : AccAddress → Bytes → ℤ) :
    Valid { w with balance } := ⟨h.positive, h.shares, h.tokens, h.unshared, h.pool⟩

theorem delegate_eq {p : Platform} {d : AccAddress} {v : ValAddress} {amt : ℤ}
    (h : Staking.delegate p ctx st w d v amt = .ok w') :
    ∃ x shares, w' = addShares w d v x amt shares := by
  simp only [Staking.delegate, storeDelegation, bind_eq_ok] at h
  obtain ⟨_, ⟨x, _, _, _, shares, _, hadd⟩, _, _, heq⟩ := h
  cases hadd
  cases heq
  exact ⟨x, shares, rfl⟩

theorem payPool_bondDenom {d : AccAddress} {amt : ℤ} (h : payPool w d amt = .ok w') :
    w'.bondDenom = w.bondDenom := by
  simp only [payPool, bind_eq_ok] at h
  obtain ⟨_, _, _, _, heq⟩ := h
  cases heq
  rfl

theorem addShares_validatorsOf (w : State) (d : AccAddress) (v v' : ValAddress) (x : Validator)
    (amt : ℤ) (shares : ℚ) :
    v' ∈ validatorsOf (addShares w d v x amt shares) d ↔ v' ∈ validatorsOf w d ∨ v' = v := by
  rw [mem_validatorsOf, mem_validatorsOf]
  simp only [addShares, Store.get_set]
  by_cases hv : v' = v
  · simp [hv]
  · simp [hv]

/-- With one more validator there is one more record. -/
theorem delegationsOf_length {d : AccAddress} {v : ValAddress}
    (h : ∀ v', v' ∈ validatorsOf w' d ↔ v' ∈ validatorsOf w d ∨ v' = v) :
    (delegationsOf w' d).length = ((validatorsOf w d).filter (· ≠ v)).length + 1 := by
  have hnodup : (v :: (validatorsOf w d).filter (· ≠ v)).Nodup := by
    refine List.nodup_cons.mpr ⟨by simp, (validatorsOf_nodup w d).filter _⟩
  have hperm : (validatorsOf w' d).Perm (v :: (validatorsOf w d).filter (· ≠ v)) := by
    rw [List.perm_ext_iff_of_nodup (validatorsOf_nodup w' d) hnodup]
    intro v'
    rw [h v']
    by_cases hv : v' = v
    · simp [hv]
    · simp [hv]
  have hlen := hperm.length_eq
  rwa [validatorsOf, List.length_map, List.length_cons] at hlen

/-- What the steps before `Lock` leave of the recipient's delegations. -/
theorem sendAndDelegate_ok {msg : MsgSendDelegateAndLock} {b : AccAddress} (hw : Valid w)
    (hb : c.acc msg.toAddress = .ok b) (h : sendAndDelegate (keepers c.exact) ctx st w msg = .ok w') :
    0 < msg.amount.amount ∧ w'.bondDenom = msg.amount.denom ∧ Valid w' ∧
      delegated w' b = delegated w b + msg.amount.amount ∧
      ∃ v x, c.val msg.validatorAddress = .ok v ∧ w.validators.get v = some x ∧
        (delegationsOf w' b).length =
          ((validatorsOf w b).filter (· ≠ x.operator)).length + 1 := by
  simp only [sendAndDelegate, bind_eq_ok, failIf_eq_ok, wrapErr_eq_ok, not_not] at h
  obtain ⟨_, hpos, _, _, b', hb', denom, hdenom, _, heq, w₁, hsend, v, hv, x, hx, hdel⟩ := h
  cases hb.symm.trans hb'
  cases hdenom
  obtain ⟨balance, rfl⟩ := sendCoins_ok hsend
  obtain ⟨w₂, hpay, hdel⟩ := (bind_eq_ok _ _ _).mp hdel
  obtain ⟨hw₂, hsame, hvals, hpool, _⟩ := payPool_ok (valid_setBalance hw balance) hpos hpay
  have hmoves := delegate_ok hw₂ hpos hpool hdel
  have hdenom := payPool_bondDenom hpay
  obtain ⟨y, shares, rfl⟩ := delegate_eq hdel
  refine ⟨hpos, hdenom.trans heq.symm, hmoves.valid, ?_, v, x, hv, (ofOption_eq_ok _ _ _).mp hx, ?_⟩
  · rw [hmoves.self, hsame]
    rfl
  · apply delegationsOf_length
    intro v'
    rw [addShares_validatorsOf, hvals]
    rfl

/-- The recipient has fewer than 99 records with validators other than the one the
message names. -/
def RoomFor (c : AddressCodec) (w : State) (b : AccAddress) (validatorAddress : Bytes) : Prop :=
  ∃ v x, c.val validatorAddress = .ok v ∧ w.validators.get v = some x ∧
    ((validatorsOf w b).filter (· ≠ x.operator)).length < 99

/-- The lock step goes through exactly if there was room for one more record. -/
theorem lockStep_iff {L : Ledger} {msg : MsgSendDelegateAndLock} {b : AccAddress} {u : Time}
    (h : Encodes st L) (hw : Valid w) (hb : c.acc msg.toAddress = .ok b)
    (hu : parseDateOnly msg.unlockDate = some u) (hfuture : ctx.blockDay.Before u)
    (hlimit : ¬ (ctx.blockDay.addDate 2 0 0).Before u) (hback : Backed c.exact ctx st w b)
    (hsteps : sendAndDelegate (keepers c.exact) ctx st w msg = .ok w') :
    (∃ s', sendDelegateAndLock (keepers c.exact) ctx st w msg = .ok s') ↔
      RoomFor c w b msg.validatorAddress := by
  obtain ⟨hpos, hdenom, hw', hdel, v, x, hv, hx, hlen⟩ := sendAndDelegate_ok hw hb hsteps
  obtain ⟨locked, total, hl, ht, hle⟩ := hback
  rw [hw.priced.getTotalDelegatedAmount_iff] at ht
  have htotal : ∀ D, getTotalDelegatedAmount (keepers c.exact) w' b = .ok D ↔
      D = delegated w' b ∧ (delegationsOf w' b).length < 100 :=
    hw'.priced.getTotalDelegatedAmount_iff c b
  have hroom : RoomFor c w b msg.validatorAddress ↔ (delegationsOf w' b).length < 100 := by
    constructor
    · rintro ⟨v', x', hv', hx', hlt⟩
      cases hv.symm.trans hv'
      cases hx.symm.trans hx'
      omega
    · intro hlt
      exact ⟨v, x, hv, hx, by omega⟩
  rw [hroom, sendDelegateAndLock_eq, hsteps, ok_bind]
  constructor
  · rintro ⟨s', hs'⟩
    obtain ⟨st', hlock, _⟩ := (bind_eq_ok _ _ _).mp hs'
    obtain ⟨a, _, _, ha, _, _, _, ⟨_, D, _, hD, _⟩, _⟩ := lock_ok (keepers c.exact) hlock
    cases hb.symm.trans ha
    exact ((htotal D).mp hD).2
  · intro hlt
    have hday : ctx.blockTime.day < u.dayNumber := by
      rwa [Ctx.blockDay_eq, parseDateOnly_ofDay hu, Time.before_ofDay] at hfuture
    have hhorizon : u.dayNumber ≤ ctx.blockTime.horizon := by
      rwa [Ctx.blockDay_addDate, parseDateOnly_ofDay hu, Time.before_ofDay, not_lt] at hlimit
    have hcover : locked + msg.amount.amount ≤ delegated w' b := by omega
    have hlock : ∃ st', lock (keepers c.exact) ctx st w' ⟨msg.toAddress, msg.unlockDate, msg.amount⟩ =
        .ok st' :=
      lock_succeeds h (congrArg Except.ok hdenom) hb hpos hu hday hhorizon hl
        ((htotal _).mpr ⟨rfl, hlt⟩) hcover
    obtain ⟨st', hlock⟩ := hlock
    exact ⟨(st', w'), by rw [hlock, ok_bind]⟩

end Steps

/-- A successful Lock or SendDelegateAndLock locks exactly its amount, within the
delegations after it, for its account alone. The Lock step of the latter, reached with
a recipient whose locks were backed, goes through exactly if the recipient has
fewer than 99 delegations with other validators. -/
theorem locking_exact_and_backed (k : Keepers W) {t₀ t : BlockTime} {st : LockStore}
    (h : Reachable k t₀ t st) (ctx : Ctx) :
    (∀ w msg st', lock k ctx st w msg = .ok st' →
      LockedExactly k ctx st st' w msg.address msg.amount.amount) ∧
    (∀ w msg s', sendDelegateAndLock k ctx st w msg = .ok s' →
      LockedExactly k ctx st s'.1 s'.2 msg.toAddress msg.amount.amount) ∧
    ∀ (c : AddressCodec) (w w' : State) (msg : MsgSendDelegateAndLock) (b : AccAddress) (u : Time),
      Valid w → c.acc msg.toAddress = .ok b → parseDateOnly msg.unlockDate = some u →
      ctx.blockDay.Before u → ¬ (ctx.blockDay.addDate 2 0 0).Before u → Backed c.exact ctx st w b →
      sendAndDelegate (keepers c.exact) ctx st w msg = .ok w' →
      ((∃ s', sendDelegateAndLock (keepers c.exact) ctx st w msg = .ok s') ↔
        RoomFor c w b msg.validatorAddress) := by
  obtain ⟨L, hL, _⟩ := h.encodes
  refine ⟨?_, ?_, ?_⟩
  · intro w msg st' hm
    exact lock_exactly hL hm
  · intro w msg s' hm
    exact lock_exactly hL (sendDelegateAndLock_ok k hm)
  · intro c w w' msg b u hw hb hu hfuture hlimit hback hsteps
    exact lockStep_iff hL hw hb hu hfuture hlimit hback hsteps

/-! ### The hundredth delegation -/

/-- A validator nobody has delegated to yet. -/
def openValidator (w : State) (v : ValAddress) : State :=
  { w with validators := w.validators.set v ⟨v, 0, 0⟩ }

theorem openValidator_valid {w : State} (h : Valid w) {v : ValAddress}
    (hnew : w.validators.get v = none) : Valid (openValidator w v) := by
  have htokens : tokenTotal (openValidator w v) = tokenTotal w := by
    simp only [tokenTotal, openValidator, Store.total_set, Store.share_none _ hnew]
    ring
  refine ⟨h.positive, ?_, Store.forall_get_set (le_refl 0) h.tokens,
    Store.forall_get_set (fun _ => rfl) h.unshared, ?_⟩
  · intro v'
    have hsum := h.shares v'
    show sharesOf w v' = _
    simp only [openValidator, Store.get_set]
    by_cases hv : v' = v
    · rw [hsum, if_pos hv, hv, hnew]
      rfl
    · rw [hsum, if_neg hv]
  · rw [htokens]
    exact h.pool

theorem openValidator_delegated {w : State} (h : Valid w) {v : ValAddress}
    (hnew : w.validators.get v = none) (d : AccAddress) :
    delegated (openValidator w v) d = delegated w d := by
  apply Store.total_congr
  intro key s hk
  obtain ⟨_, x, hx, _⟩ := h.priced.record key s hk
  have hne : (ofLex key).2 ≠ v := by
    intro heq
    rw [heq, hnew] at hx
    cases hx
  unfold worth rate openValidator
  dsimp only
  rw [Store.get_set, if_neg hne]

section Spread

variable (n : ℕ) (hn : n ≤ 256)

theorem spread_record {key : AccAddress ×ₗ ValAddress} {s : ℚ}
    (h : (spread n hn).delegations.get key = some s) :
    s = 1 ∧ ∃ x, (spread n hn).validators.get (ofLex key).2 = some x := by
  rw [Store.get_eq_some_iff] at h
  obtain ⟨i, _, heq⟩ := List.mem_map.mp h
  cases heq
  exact ⟨rfl, _, (Store.get_eq_some_iff _ _ _).mpr
    (List.mem_map.mpr ⟨i, List.mem_finRange i, rfl⟩)⟩

theorem spread_shares (i : Fin n) : sharesOf (spread n hn) [Fin.castLE hn i] = 1 := by
  have hone : ∀ j : Fin n, (if ([Fin.castLE hn j] : Bytes) = [Fin.castLE hn i] then (1 : ℚ) else 0) =
      if j = i then 1 else 0 := by
    intro j
    simp
  have hsum : sharesOf (spread n hn) [Fin.castLE hn i] = ((List.finRange n).map fun j =>
      if ([Fin.castLE hn j] : Bytes) = [Fin.castLE hn i] then (1 : ℚ) else 0).sum := by
    unfold sharesOf Store.total spread
    rw [List.map_map]
    rfl
  rw [hsum, ← Fin.sum_univ_def, Finset.sum_congr rfl fun j _ => hone j, Finset.sum_ite_eq']
  simp

theorem spread_validator {v : ValAddress} {x : Validator}
    (h : (spread n hn).validators.get v = some x) :
    x.tokens = 1 ∧ x.delegatorShares = 1 ∧ sharesOf (spread n hn) v = 1 := by
  rw [Store.get_eq_some_iff] at h
  obtain ⟨i, _, heq⟩ := List.mem_map.mp h
  cases heq
  exact ⟨rfl, rfl, spread_shares n hn i⟩

theorem spread_tokenTotal : tokenTotal (spread n hn) = n := by
  unfold tokenTotal Store.total spread
  rw [List.map_map]
  show ((List.finRange n).map fun _ => (1 : ℤ)).sum = n
  simp

theorem spread_valid : Valid (spread n hn) := by
  refine ⟨?_, ?_, ?_, ?_, (spread_tokenTotal n hn).le, ?_⟩
  · intro key s hk
    rw [(spread_record n hn hk).1]
    norm_num
  · intro v
    cases hv : (spread n hn).validators.get v with
    | some x =>
      obtain ⟨_, hs, hsum⟩ := spread_validator n hn hv
      rw [hsum, Option.map_some, Option.getD_some, hs]
    | none =>
      rw [Option.map_none, Option.getD_none]
      unfold sharesOf Store.total
      apply List.sum_eq_zero
      intro y hy
      obtain ⟨e, he, rfl⟩ := List.mem_map.mp hy
      refine if_neg ?_
      intro hev
      obtain ⟨_, x, hx⟩ := spread_record n hn ((Store.get_eq_some_iff _ e.1 e.2).mpr he)
      rw [hev, hv] at hx
      cases hx
  · intro v x hx
    rw [(spread_validator n hn hx).1]
    decide
  · intro v x hx h0
    rw [(spread_validator n hn hx).2.1] at h0
    norm_num at h0
  · show (n : ℤ) < intBound
    have hbig : (256 : ℤ) < intBound := by decide +kernel
    omega

end Spread

/-- `d` has one token with each of 99 validators, and there is a hundredth. -/
def crowded : State :=
  { openValidator (spread 99 (by decide)) [99] with
    balance := fun a _ => if a = ascii "s" then 1000 else 0 }

def toHundredth : MsgSendDelegateAndLock :=
  ⟨accText (ascii "s"), accText (ascii "d"), valText [99], ascii "2026-06-01", tsc 10⟩

theorem hundredth_new : (spread 99 (by decide)).validators.get [99] = none := by decide +kernel

theorem crowded_valid : Valid crowded :=
  valid_setBalance (openValidator_valid (spread_valid 99 (by decide)) hundredth_new) _

theorem crowded_backed : Backed bech32.exact newYear Store.empty crowded (ascii "d") := by
  have hdel := openValidator_delegated (spread_valid 99 (by decide)) hundredth_new (ascii "d")
  rw [spread_delegated] at hdel
  refine ⟨0, 99, by decide +kernel, ?_, by norm_num⟩
  rw [crowded_valid.priced.getTotalDelegatedAmount_iff]
  exact ⟨hdel.symm, by decide +kernel⟩

theorem crowded_others {v : ValAddress} {x : Validator}
    (hv : bech32.val toHundredth.validatorAddress = .ok v)
    (hx : crowded.validators.get v = some x) :
    ((validatorsOf crowded (ascii "d")).filter (· ≠ x.operator)).length = 99 := by
  have hget : crowded.validators.get [99] = some ⟨[99], 0, 0⟩ := by decide +kernel
  have hv' : v = [99] := (Except.ok.inj ((readText_valText [99]).symm.trans hv)).symm
  rw [hv', hget] at hx
  cases hx
  decide +kernel

/-- Nothing is locked, so no hook objects to the hundredth delegation, and the lock
step then reads the same full page for ever. -/
theorem send_to_hundredth_hangs :
    ∃ w', Valid crowded ∧ Backed bech32.exact newYear Store.empty crowded (ascii "d") ∧
      sendAndDelegate (keepers bech32.exact) newYear Store.empty crowded toHundredth = .ok w' ∧
      (∀ fuel total, totalDelegatedLoop (keepers bech32.exact) w' (ascii "d") fuel 0 ≠ .ok total) ∧
      ∀ s', sendDelegateAndLock (keepers bech32.exact) newYear Store.empty crowded toHundredth ≠
        .ok s' := by
  have hsteps : (sendAndDelegate (keepers bech32.exact) newYear Store.empty crowded
    toHundredth).isOk = true := by decide +kernel
  have hdate : parseDateOnly toHundredth.unlockDate = some (Time.ofDay 20605) := by decide +kernel
  obtain ⟨w', hw'⟩ := exists_of_isOk hsteps
  obtain ⟨_, _, _, _, v, x, hv, hx, hlen⟩ := sendAndDelegate_ok crowded_valid
    (readText_accText (ascii "d")) hw'
  rw [crowded_others hv hx] at hlen
  refine ⟨w', crowded_valid, crowded_backed, hw', ?_, ?_⟩
  · intro fuel total
    apply totalDelegatedLoop_full (keepers bech32.exact) rfl
    rw [List.length_map, List.length_take]
    exact (congrArg (min 100) hlen).trans rfl
  · intro s' hs'
    obtain ⟨v, x, hv, hx, hlt⟩ := (lockStep_iff encodes_empty crowded_valid
      (readText_accText (ascii "d")) hdate (by decide) (by decide) crowded_backed hw').mp ⟨s', hs'⟩
    exact absurd (crowded_others hv hx) (ne_of_lt hlt)

/-! ### A recipient with one delegation -/

def sendToD : MsgSendDelegateAndLock :=
  ⟨accText (ascii "s"), accText (ascii "d"), valText (ascii "A"), ascii "2026-06-01", tsc 10⟩

theorem locking_exact_and_backed_send_to_d :
    ∃ s', sendDelegateAndLock (keepers bech32.exact) newYear Store.empty fundedSender sendToD = .ok s' ∧
      LockedExactly (keepers bech32.exact) newYear Store.empty s'.1 s'.2
        (accText (ascii "d")) 10 := by
  have hsteps : (sendAndDelegate (keepers bech32.exact) newYear Store.empty fundedSender
    sendToD).isOk = true := by decide +kernel
  obtain ⟨w', hw'⟩ := exists_of_isOk hsteps
  have hrun : Reachable (keepers bech32.exact) newYear.blockTime newYear.blockTime Store.empty :=
    Run.start
  obtain ⟨_, hsend, hstep⟩ := locking_exact_and_backed (keepers bech32.exact) hrun newYear
  have hback : Backed bech32.exact newYear Store.empty fundedSender (ascii "d") :=
    ⟨0, 100, by decide +kernel, by decide +kernel, by decide⟩
  have hdate : parseDateOnly sendToD.unlockDate = some (Time.ofDay 20605) := by decide +kernel
  obtain ⟨s', hs'⟩ := (hstep bech32 fundedSender w' sendToD (ascii "d") (Time.ofDay 20605)
    (valid_setBalance twoValidators_valid _) (readText_accText (ascii "d")) hdate (by decide)
    (by decide) hback hw').mpr ⟨ascii "A", ⟨ascii "A", 100, 100⟩, readText_valText (ascii "A"),
      by decide +kernel, by decide +kernel⟩
  exact ⟨s', hs', hsend fundedSender sendToD s' hs'⟩

end Tsc.Lockup
