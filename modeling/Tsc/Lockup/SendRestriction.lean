import Tsc.Lockup.Backing

/-!
# The send restriction on single transfers

`SendRestrictionFn` keeps back what an account has locked above its delegations, its
deficit: a transfer of the bond denom passes exactly if there is no deficit or the
rest of the balance still covers it. To a sender with locks and a hundred delegations it
gives no answer at all. The bank consults it on the balance before the debit, so over any
sequence of single transfers no account falls below its deficit.
-/

namespace Tsc.Lockup

open Go Sdk Kv Staking

variable {W : Type}

/-- No stored lock has a negative amount. Nothing else is asked of the store. -/
def Unsigned (st : LockStore) : Prop :=
  ∀ key l, st.get key = some (.locks l) → ∀ e ∈ l, 0 ≤ e.amount

theorem Unsigned.locks {st : LockStore} (h : Unsigned st) {a : AccAddress} {l : List Lock}
    (hget : getLocksByAddress st a = .ok l) : ∀ e ∈ l, 0 ≤ e.amount := by
  unfold getLocksByAddress at hget
  cases hv : st.get (getLocksByAddressKey a) with
  | none =>
    rw [hv] at hget
    cases hget
    simp
  | some v =>
    rw [hv] at hget
    cases v with
    | locks l' =>
      cases hget
      exact h _ l hv
    | amount x => cases hget

theorem Unsigned.locked_range {st : LockStore} (h : Unsigned st) {ctx : Ctx} {a : AccAddress}
    {locked : ℤ} (hl : getLockedAmountByAddress ctx st a = .ok locked) :
    0 ≤ locked ∧ locked < intBound := by
  obtain ⟨l, hget, hloop⟩ := (bind_eq_ok _ _ _).mp hl
  have hnn := h.locks hget
  apply forRange_invariant (fun total => 0 ≤ total ∧ total < intBound) _
    ⟨le_refl 0, intBound_pos⟩ hloop
  intro e he u u' hu hstep
  split_ifs at hstep
  · obtain ⟨hrange, rfl⟩ := (intAdd_eq_ok _ _ _).mp hstep
    exact ⟨add_nonneg hu.1 (hnn e he), hrange.2⟩
  · cases hstep
    exact hu

theorem Encodes.unsigned {st : LockStore} {L : Ledger} (h : Encodes st L) : Unsigned st := by
  intro key l hl e he
  rcases h.onlyKeys key _ hl with ⟨a, rfl⟩ | ⟨d, t, a, hd, rfl⟩
  · have hlist := h.byAddress a
    rw [hl] at hlist
    split_ifs at hlist
    cases hlist
    exact ((L a).wellFormed.positive e he).le
  · have hamount := h.byDate d t a hd
    rw [hl] at hamount
    split_ifs at hamount
    cases hamount

/-- What an account has to keep in the bank. -/
def deficit (locked delegated : ℤ) : ℤ := max 0 (locked - delegated)

/-! ### One call -/

section Call

variable {k : Keepers W} {ctx : Ctx} {st : LockStore} {w : W} {fromAddr toAddr : AccAddress}
  {amt : Coins} {bondDenom : Bytes} {locked delegated : ℤ}

theorem sendRestrictionFn_without (hbond : k.bondDenom w = .ok bondDenom)
    (hzero : amt.amountOf bondDenom = 0) :
    sendRestrictionFn k ctx st w fromAddr toAddr amt = .ok toAddr := by
  unfold sendRestrictionFn
  rw [hbond, ok_bind]
  exact if_pos hzero

theorem sendRestrictionFn_unlocked (hbond : k.bondDenom w = .ok bondDenom)
    (hl : getLockedAmountByAddress ctx st fromAddr = .ok 0) :
    sendRestrictionFn k ctx st w fromAddr toAddr amt = .ok toAddr := by
  simp only [sendRestrictionFn, hbond, hl, ok_bind, if_true, ite_self]

/-- With locks the answer takes the delegations. -/
theorem sendRestrictionFn_locked (hbond : k.bondDenom w = .ok bondDenom)
    (hl : getLockedAmountByAddress ctx st fromAddr = .ok locked) (hlocked : locked ≠ 0)
    (hpos : 0 < amt.amountOf bondDenom) {f : Fault Err}
    (hd : getTotalDelegatedAmount k w fromAddr = .error f) :
    sendRestrictionFn k ctx st w fromAddr toAddr amt = .error f := by
  simp only [sendRestrictionFn, hbond, hl, hd, ok_bind, if_neg (ne_of_gt hpos), if_neg hlocked]
  rfl

theorem clamp_eq (x : ℤ) : (if x < 0 then 0 else x) = max 0 x := by
  split_ifs <;> omega

/-- What passes leaves the deficit. No assumption is needed on the balance: where the
arithmetic overflows, nothing passes. -/
theorem sendRestrictionFn_sound (hbond : k.bondDenom w = .ok bondDenom)
    (hl : getLockedAmountByAddress ctx st fromAddr = .ok locked)
    (hd : getTotalDelegatedAmount k w fromAddr = .ok delegated) (hd0 : 0 ≤ delegated)
    (hpos : 0 < amt.amountOf bondDenom) {a : AccAddress}
    (h : sendRestrictionFn k ctx st w fromAddr toAddr amt = .ok a) :
    deficit locked delegated = 0 ∨
      deficit locked delegated ≤ k.getBalance w fromAddr bondDenom - amt.amountOf bondDenom := by
  simp only [sendRestrictionFn, hbond, ok_bind, if_neg (ne_of_gt hpos), hl, hd, clamp_eq] at h
  by_cases hlocked : locked = 0
  · left
    unfold deficit
    omega
  · rw [if_neg hlocked, bind_eq_ok] at h
    obtain ⟨difference, hdiff, h⟩ := h
    obtain ⟨_, rfl⟩ := (intSub_eq_ok _ _ _).mp hdiff
    by_cases hnone : deficit locked delegated = 0
    · exact Or.inl hnone
    · unfold deficit at hnone ⊢
      rw [if_neg hnone, bind_eq_ok] at h
      obtain ⟨rest, hrest, h⟩ := h
      obtain ⟨_, rfl⟩ := (intSub_eq_ok _ _ _).mp hrest
      obtain ⟨_, hcheck, _⟩ := (bind_eq_ok _ _ _).mp h
      rw [failIf_eq_ok] at hcheck
      right
      omega

/-- With amounts that staking and bank can hold, the call returns: without an error, or
with one if the deficit would not be left. -/
theorem sendRestrictionFn_complete (hbond : k.bondDenom w = .ok bondDenom)
    (hl : getLockedAmountByAddress ctx st fromAddr = .ok locked)
    (hl0 : 0 ≤ locked ∧ locked < intBound)
    (hd : getTotalDelegatedAmount k w fromAddr = .ok delegated) (hd0 : 0 ≤ delegated)
    (hpos : 0 < amt.amountOf bondDenom)
    (hbal : 0 ≤ k.getBalance w fromAddr bondDenom ∧ k.getBalance w fromAddr bondDenom < intBound) :
    sendRestrictionFn k ctx st w fromAddr toAddr amt = .ok toAddr ∨
      (∃ e, sendRestrictionFn k ctx st w fromAddr toAddr amt = .error (.err e)) ∧
        deficit locked delegated ≠ 0 ∧
        k.getBalance w fromAddr bondDenom - amt.amountOf bondDenom < deficit locked delegated := by
  have hdlt := getTotalDelegatedAmount_lt hd
  have hsub : intSub locked delegated = .ok (locked - delegated) :=
    (intSub_eq_ok _ _ _).mpr ⟨⟨by omega, by omega⟩, rfl⟩
  have hrest : intSub (k.getBalance w fromAddr bondDenom) (deficit locked delegated) =
      .ok (k.getBalance w fromAddr bondDenom - deficit locked delegated) := by
    unfold deficit
    exact (intSub_eq_ok _ _ _).mpr ⟨⟨by omega, by omega⟩, rfl⟩
  unfold deficit at hrest ⊢
  simp only [sendRestrictionFn, hbond, ok_bind, if_neg (ne_of_gt hpos), hl, hd, hsub, clamp_eq,
    hrest]
  by_cases hlocked : locked = 0
  · exact Or.inl (if_pos hlocked)
  · by_cases hnone : max 0 (locked - delegated) = 0
    · rw [if_neg hlocked, if_pos hnone]
      exact Or.inl rfl
    · rw [if_neg hlocked, if_neg hnone]
      by_cases hfit : max 0 (k.getBalance w fromAddr bondDenom - max 0 (locked - delegated)) <
          amt.amountOf bondDenom
      · refine Or.inr ⟨⟨_, by rw [failIf, if_pos hfit]; rfl⟩, hnone, ?_⟩
        omega
      · rw [failIf_of_not _ hfit, ok_bind]
        exact Or.inl rfl

theorem sendRestrictionFn_eq_ok_iff (hbond : k.bondDenom w = .ok bondDenom)
    (hl : getLockedAmountByAddress ctx st fromAddr = .ok locked)
    (hl0 : 0 ≤ locked ∧ locked < intBound)
    (hd : getTotalDelegatedAmount k w fromAddr = .ok delegated) (hd0 : 0 ≤ delegated)
    (hpos : 0 < amt.amountOf bondDenom)
    (hbal : 0 ≤ k.getBalance w fromAddr bondDenom ∧ k.getBalance w fromAddr bondDenom < intBound) :
    sendRestrictionFn k ctx st w fromAddr toAddr amt = .ok toAddr ↔
      deficit locked delegated = 0 ∨
        deficit locked delegated ≤ k.getBalance w fromAddr bondDenom - amt.amountOf bondDenom := by
  constructor
  · exact sendRestrictionFn_sound hbond hl hd hd0 hpos
  · intro hcond
    rcases sendRestrictionFn_complete hbond hl hl0 hd hd0 hpos hbal with hok | ⟨_, hne, hlt⟩
    · exact hok
    · rcases hcond with hzero | hle
      · exact absurd hzero hne
      · exact absurd hle (not_le.mpr hlt)

theorem deficit_unlocked (h0 : 0 ≤ delegated) : deficit 0 delegated = 0 := by
  unfold deficit
  omega

theorem sendRestrictionFn_leaves {ds : List (Delegation × ℤ)}
    (hbond : k.bondDenom w = .ok bondDenom)
    (hl : getLockedAmountByAddress ctx st fromAddr = .ok locked) (hds : Delegates k w fromAddr ds)
    (hpos : 0 < amt.amountOf bondDenom) {a : AccAddress}
    (h : sendRestrictionFn k ctx st w fromAddr toAddr amt = .ok a) :
    deficit locked (ds.map Prod.snd).sum = 0 ∨ deficit locked (ds.map Prod.snd).sum ≤
      k.getBalance w fromAddr bondDenom - amt.amountOf bondDenom := by
  by_cases hlocked : locked = 0
  · rw [hlocked]
    exact Or.inl (deficit_unlocked hds.total_nonneg)
  · cases hd : getTotalDelegatedAmount k w fromAddr with
    | error f =>
      rw [sendRestrictionFn_locked hbond hl hlocked hpos hd] at h
      cases h
    | ok total =>
      obtain ⟨rfl, _⟩ := (hds.getTotalDelegatedAmount_iff total).mp hd
      exact sendRestrictionFn_sound hbond hl hd hds.total_nonneg hpos h

end Call

theorem amountOf_nonneg {amt : Coins} (h : ∀ coin ∈ amt, 0 < coin.amount) (denom : Bytes) :
    0 ≤ amt.amountOf denom := by
  unfold Coins.amountOf
  cases hf : amt.find? fun c => c.denom = denom with
  | none => exact le_refl 0
  | some coin => exact (h coin (List.mem_of_find?_eq_some hf)).le

/-! ### Sequences of transfers -/

/-- `Coins.IsValid`, as far as amounts and denoms go; the bank refuses other coins. -/
structure ValidCoins (amt : Coins) : Prop where
  positive : ∀ coin ∈ amt, 0 < coin.amount
  denoms : (amt.map Coin.denom).Nodup

structure Transfer where
  fromAddr : AccAddress
  toAddr : AccAddress
  coins : Coins
  valid : ValidCoins coins

theorem sum_eq_amountOf {amt : Coins} (h : (amt.map Coin.denom).Nodup) (denom : Bytes) :
    (amt.map fun coin => if coin.denom = denom then coin.amount else 0).sum = amt.amountOf denom := by
  induction amt with
  | nil => rfl
  | cons coin amt ih =>
    obtain ⟨hnot, hnodup⟩ := List.nodup_cons.mp h
    rw [List.map_cons, List.sum_cons, ih hnodup]
    unfold Coins.amountOf
    by_cases hc : coin.denom = denom
    · have hnone : amt.find? (fun c => c.denom = denom) = none := by
        rw [List.find?_eq_none]
        intro c hmem hden
        rw [hc] at hnot
        exact hnot (List.mem_map.mpr ⟨c, hmem, by simpa using hden⟩)
      simp [hc, hnone]
    · simp [hc]

section Transfers

variable {p : Platform} {ctx : Ctx} {st : LockStore} {w w' : State} {fromAddr toAddr : AccAddress}

theorem update_update_apply (B : AccAddress → Bytes → ℤ) (a a' : AccAddress) (d d' : Bytes) (x : ℤ) :
    Function.update B a (Function.update (B a) d x) a' d' =
      if a' = a ∧ d' = d then x else B a' d' := by
  by_cases ha : a' = a
  · subst ha
    simp [Function.update_apply]
  · simp [ha]

theorem sendCoin_balance {coin : Coin} (h : sendCoin fromAddr toAddr w coin = .ok w')
    (a : AccAddress) (denom : Bytes) :
    w'.balance a denom = w.balance a denom +
      ((if a = toAddr ∧ denom = coin.denom then coin.amount else 0) -
        if a = fromAddr ∧ denom = coin.denom then coin.amount else 0) := by
  simp only [sendCoin, bind_eq_ok] at h
  obtain ⟨_, _, heq⟩ := h
  cases heq
  simp only [update_update_apply]
  by_cases ht : a = toAddr ∧ denom = coin.denom
  · obtain ⟨rfl, rfl⟩ := ht
    by_cases hf : a = fromAddr
    · simp [hf]
    · simp [hf]
  · rw [if_neg ht, if_neg ht]
    by_cases hf : a = fromAddr ∧ denom = coin.denom
    · rw [if_pos hf, if_pos hf, hf.1, hf.2]
      ring
    · rw [if_neg hf, if_neg hf]
      ring

theorem sendCoin_nonneg {coin : Coin} (hpos : 0 < coin.amount)
    (h : sendCoin fromAddr toAddr w coin = .ok w') {a : AccAddress} {denom : Bytes}
    (h0 : 0 ≤ w.balance a denom) : 0 ≤ w'.balance a denom := by
  have hbal := sendCoin_balance h a denom
  simp only [sendCoin, bind_eq_ok, failIf_eq_ok, not_lt] at h
  obtain ⟨_, hfunds, _⟩ := h
  by_cases hf : a = fromAddr ∧ denom = coin.denom
  · rw [← hf.1, ← hf.2] at hfunds
    split_ifs at hbal <;> omega
  · rw [if_neg hf] at hbal
    split_ifs at hbal <;> omega

/-- A transfer that goes through passed the restriction; the sender's balance of a denom
falls by at most what is sent of it, and nobody else's falls. -/
theorem sendCoins_balance {amt : Coins} (hvalid : ValidCoins amt)
    (h : (keepers p).sendCoins ctx st w fromAddr toAddr amt = .ok w') (a : AccAddress)
    (denom : Bytes) :
    (∃ receiver, sendRestrictionFn (readers p) ctx st w fromAddr toAddr amt = .ok receiver) ∧
      (0 ≤ w.balance a denom → 0 ≤ w'.balance a denom) ∧
      w.balance a denom - (if a = fromAddr then amt.amountOf denom else 0) ≤ w'.balance a denom := by
  obtain ⟨receiver, hpass, hloop⟩ := (bind_eq_ok _ _ _).mp h
  refine ⟨⟨receiver, hpass⟩, ?_, ?_⟩
  · intro h0
    exact forRange_invariant (fun u : State => 0 ≤ u.balance a denom)
      (fun coin hc u u' hu hstep => sendCoin_nonneg (hvalid.positive coin hc) hstep hu) h0 hloop
  · have hsum := forRange_sum (fun _ => True) (fun u : State => u.balance a denom)
      (fun coin => (if a = receiver ∧ denom = coin.denom then coin.amount else 0) -
        if a = fromAddr ∧ denom = coin.denom then coin.amount else 0)
      (fun coin _ u u' _ hstep => ⟨trivial, sendCoin_balance hstep a denom⟩) trivial hloop
    have hsent : (if a = fromAddr then amt.amountOf denom else 0) = (amt.map fun coin =>
        if a = fromAddr ∧ denom = coin.denom then coin.amount else 0).sum := by
      rw [← sum_eq_amountOf hvalid.denoms denom]
      by_cases ha : a = fromAddr
      · simp [ha, eq_comm]
      · simp [ha]
    have hreceived : 0 ≤ (amt.map fun coin =>
        ((if a = receiver ∧ denom = coin.denom then coin.amount else 0) -
          if a = fromAddr ∧ denom = coin.denom then coin.amount else 0) +
          if a = fromAddr ∧ denom = coin.denom then coin.amount else 0).sum := by
      apply List.sum_nonneg
      intro x hx
      obtain ⟨coin, hc, rfl⟩ := List.mem_map.mp hx
      have hpos := hvalid.positive coin hc
      rw [sub_add_cancel]
      split_ifs <;> omega
    rw [List.sum_map_add] at hreceived
    rw [hsum, hsent]
    omega

/-- A failed transfer is rolled back. -/
def applyTransfer (p : Platform) (ctx : Ctx) (st : LockStore) (w : State) (t : Transfer) : State :=
  match (keepers p).sendCoins ctx st w t.fromAddr t.toAddr t.coins with
  | .ok w' => w'
  | .error _ => w

/-- A transfer changes balances only. -/
theorem sendCoins_ok {amt : Coins} (h : (keepers p).sendCoins ctx st w fromAddr toAddr amt = .ok w') :
    ∃ balance, w' = { w with balance } := by
  obtain ⟨receiver, _, hloop⟩ := (bind_eq_ok _ _ _).mp h
  apply forRange_invariant (fun u : State => ∃ balance, u = { w with balance }) _ ⟨_, rfl⟩ hloop
  rintro coin _ u u' ⟨balance, rfl⟩ hstep
  simp only [sendCoin, bind_eq_ok] at hstep
  obtain ⟨_, _, heq⟩ := hstep
  cases heq
  exact ⟨_, rfl⟩

/-- The account has its deficit in the bank. -/
def Reserved (w : State) (a : AccAddress) (locked delegated : ℤ) : Prop :=
  deficit locked delegated ≤ w.balance a w.bondDenom

section Account

variable {a : AccAddress} {locked : ℤ} {ds : List (Delegation × ℤ)}

theorem applyTransfer_reserved (hl : getLockedAmountByAddress ctx st a = .ok locked)
    (hds : Delegates (readers p) w a ds) (h : Reserved w a locked (ds.map Prod.snd).sum)
    (t : Transfer) :
    Delegates (readers p) (applyTransfer p ctx st w t) a ds ∧
      Reserved (applyTransfer p ctx st w t) a locked (ds.map Prod.snd).sum := by
  unfold applyTransfer
  split
  next w' hok =>
    obtain ⟨⟨_, hpass⟩, hnn, hle⟩ := sendCoins_balance t.valid hok a w.bondDenom
    obtain ⟨balance, rfl⟩ := sendCoins_ok hok
    refine ⟨⟨hds.page, hds.prices, hds.fits⟩, ?_⟩
    unfold Reserved deficit at h ⊢
    dsimp only at hnn hle ⊢
    by_cases ha : a = t.fromAddr
    · rw [if_pos ha] at hle
      by_cases hzero : t.coins.amountOf w.bondDenom = 0
      · omega
      · have hpos := lt_of_le_of_ne (amountOf_nonneg t.valid.positive w.bondDenom) (Ne.symm hzero)
        rw [ha] at hl hds
        have hleaves := sendRestrictionFn_leaves rfl hl hds hpos hpass
        rw [← ha] at hleaves
        unfold deficit at hleaves
        have hbalance : (readers p).getBalance w a w.bondDenom = w.balance a w.bondDenom := rfl
        omega
    · rw [if_neg ha] at hle
      omega
  next => exact ⟨hds, h⟩

/-- A sequence of single transfers leaves every account its deficit. -/
theorem transfers_reserved (hl : getLockedAmountByAddress ctx st a = .ok locked)
    (hds : Delegates (readers p) w a ds) (h : Reserved w a locked (ds.map Prod.snd).sum)
    (ts : List Transfer) :
    Reserved (ts.foldl (applyTransfer p ctx st) w) a locked (ds.map Prod.snd).sum := by
  induction ts generalizing w with
  | nil => exact h
  | cons t ts ih =>
    obtain ⟨hds', h'⟩ := applyTransfer_reserved hl hds h t
    exact ih hds' h'

end Account
end Transfers

/-- The restriction on a transfer of the bond denom returns, and lets it pass exactly if
the sender has no deficit or the rest of the balance covers it, for senders without locks
and for senders with fewer than a hundred delegations; for the others it does not return.
Without the bond denom every transfer passes, and no sequence of single transfers takes
an account below its deficit. -/
theorem send_restriction_decides (k : Keepers W) {st : LockStore} (hst : Unsigned st) (ctx : Ctx)
    (w : W) (bondDenom : Bytes) (hbond : k.bondDenom w = .ok bondDenom) :
    (∀ fromAddr toAddr amt locked ds,
      getLockedAmountByAddress ctx st fromAddr = .ok locked → Delegates k w fromAddr ds →
      0 ≤ k.getBalance w fromAddr bondDenom → k.getBalance w fromAddr bondDenom < intBound →
      0 < amt.amountOf bondDenom →
      ((sendRestrictionFn k ctx st w fromAddr toAddr amt = .ok toAddr ∨
          ∃ e, sendRestrictionFn k ctx st w fromAddr toAddr amt = .error (.err e)) ∧
        (sendRestrictionFn k ctx st w fromAddr toAddr amt = .ok toAddr ↔
          deficit locked (ds.map Prod.snd).sum = 0 ∨ deficit locked (ds.map Prod.snd).sum ≤
            k.getBalance w fromAddr bondDenom - amt.amountOf bondDenom) ↔
        locked = 0 ∨ ds.length < 100)) ∧
    (∀ fromAddr toAddr amt, amt.amountOf bondDenom = 0 →
      sendRestrictionFn k ctx st w fromAddr toAddr amt = .ok toAddr) ∧
    ∀ (p : Platform) (u : State) (a : AccAddress) (locked : ℤ) (ds : List (Delegation × ℤ))
      (ts : List Transfer), getLockedAmountByAddress ctx st a = .ok locked →
      Delegates (readers p) u a ds → Reserved u a locked (ds.map Prod.snd).sum →
      Reserved (ts.foldl (applyTransfer p ctx st) u) a locked (ds.map Prod.snd).sum := by
  refine ⟨?_, fun _ _ _ => sendRestrictionFn_without hbond, ?_⟩
  · intro fromAddr toAddr amt locked ds hl hds hbal0 hbal hpos
    constructor
    · rintro ⟨hreturns, _⟩
      by_contra hcond
      rw [not_or] at hcond
      have hd := hds.getTotalDelegatedAmount_eq
      rw [if_neg hcond.2] at hd
      rw [sendRestrictionFn_locked hbond hl hcond.1 hpos hd] at hreturns
      rcases hreturns with hok | ⟨_, herr⟩
      · cases hok
      · cases herr
    · rintro (rfl | hlen)
      · have hok : sendRestrictionFn k ctx st w fromAddr toAddr amt = .ok toAddr :=
          sendRestrictionFn_unlocked hbond hl
        exact ⟨Or.inl hok, fun _ => Or.inl (deficit_unlocked hds.total_nonneg), fun _ => hok⟩
      · have hd := (hds.getTotalDelegatedAmount_iff _).mpr ⟨rfl, hlen⟩
        have hl0 := hst.locked_range hl
        refine ⟨?_, sendRestrictionFn_eq_ok_iff hbond hl hl0 hd hds.total_nonneg hpos ⟨hbal0, hbal⟩⟩
        rcases sendRestrictionFn_complete hbond hl hl0 hd hds.total_nonneg hpos ⟨hbal0, hbal⟩
          with hok | ⟨herr, _⟩
        · exact Or.inl hok
        · exact Or.inr herr
  · intro p u a locked ds ts hl hds h
    exact transfers_reserved hl hds h ts

/-! ### A deficit of 50 -/

def halfDelegated : State :=
  { twoValidators with
    validators := Store.empty.set (ascii "A") ⟨ascii "A", 50, 50⟩
    delegations := Store.empty.set (toLex (ascii "d", ascii "A")) 50
    balance := fun _ _ => 100 }

theorem halfDelegated_delegates : Delegates (readers chain) halfDelegated (ascii "d")
    [(⟨valText (ascii "A"), 50⟩, 50)] := by
  refine ⟨by decide +kernel, ?_, by decide +kernel⟩
  intro e he
  rw [List.mem_singleton.mp he]
  exact ⟨ascii "A", ⟨ascii "A", 50, 50⟩, 50, readText_valText (ascii "A"), by decide +kernel,
    by decide +kernel, by norm_num, by norm_num⟩

def thirtyToX : Transfer :=
  ⟨ascii "d", ascii "x", [tsc 30], by decide, by decide⟩

/-- Locked 100, delegated 50, balance 100: 50 may be sent, and of two transfers of 30
only the first goes through. -/
theorem send_restriction_decides_half_delegated :
    ∃ s, deliver (readers chain) newYear Store.empty twoValidators
        (.lock ⟨accText (ascii "d"), ascii "2026-06-01", tsc 100⟩) = .ok s ∧
      sendRestrictionFn (readers chain) newYear s.1 halfDelegated (ascii "d") (ascii "x")
        [tsc 50] = .ok (ascii "x") ∧
      Reserved ([thirtyToX, thirtyToX].foldl (applyTransfer chain newYear s.1) halfDelegated)
        (ascii "d") 100 50 := by
  have h : (deliver (readers chain) newYear Store.empty twoValidators
      (.lock ⟨accText (ascii "d"), ascii "2026-06-01", tsc 100⟩) >>= fun s =>
        getLockedAmountByAddress newYear s.1 (ascii "d")) = .ok 100 := by decide +kernel
  obtain ⟨s, hs, hl⟩ := (bind_eq_ok _ _ _).mp h
  obtain ⟨L, hL, _⟩ := (Reachable.of_lock hs).encodes
  obtain ⟨hone, _, hrun⟩ := send_restriction_decides (readers chain) hL.unsigned newYear
    halfDelegated (ascii "tsc") rfl
  have hreserved : Reserved halfDelegated (ascii "d") 100 50 := by
    unfold Reserved
    decide
  refine ⟨s, hs, ?_, hrun chain halfDelegated _ _ _ _ hl halfDelegated_delegates hreserved⟩
  have hfits := hone (ascii "d") (ascii "x") [tsc 50] 100 _ hl halfDelegated_delegates (by decide)
    (by decide +kernel) (by decide)
  exact (hfits.mpr (Or.inr (by decide))).2.mpr (by decide)

/-- A hundred delegations of one cover the 40 that are locked, and no transfer gets an
answer. -/
theorem transfer_hangs_at_hundred :
    ∃ s, deliver (readers chain) newYear Store.empty twoValidators
        (.lock ⟨accText (ascii "d"), ascii "2026-06-01", tsc 40⟩) = .ok s ∧
      getLockedAmountByAddress newYear s.1 (ascii "d") = .ok 40 ∧
      deficit 40 (delegated (spread 100 (by decide)) (ascii "d")) = 0 ∧
      sendRestrictionFn (readers chain) newYear s.1 (spread 100 (by decide)) (ascii "d")
        (ascii "x") [tsc 1] = .error .hang := by
  have h : (deliver (readers chain) newYear Store.empty twoValidators
      (.lock ⟨accText (ascii "d"), ascii "2026-06-01", tsc 40⟩) >>= fun s =>
        getLockedAmountByAddress newYear s.1 (ascii "d")) = .ok 40 := by decide +kernel
  obtain ⟨s, hs, hl⟩ := (bind_eq_ok _ _ _).mp h
  have hd := (spread_delegates 100 (by decide)).getTotalDelegatedAmount_eq
  rw [List.length_map, List.length_finRange, if_neg (lt_irrefl 100)] at hd
  refine ⟨s, hs, hl, ?_, ?_⟩
  · rw [spread_delegated]
    decide
  · have hbond : (readers chain).bondDenom (spread 100 (by decide)) = .ok (ascii "tsc") := rfl
    have hpos : 0 < Coins.amountOf [tsc 1] (ascii "tsc") := by decide
    exact sendRestrictionFn_locked hbond hl (by decide) hpos hd

end Tsc.Lockup
