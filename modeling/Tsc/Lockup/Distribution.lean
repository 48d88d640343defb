import Tsc.Staking.Accounting
import Tsc.Lockup.MsgServer
import Mathlib.Algebra.BigOperators.Finprod

/-!
# What a multi-send locks, and for whom

Each output of `MultiSendDelegateAndLock` ends in one entry: an amount for an
account until a date, merged into the account's list and added to the queue.
Entering it is a function of the store, of any store, and two entries may be made
in either order. So the final store depends only on which outputs there are, and
what the outputs send is all that is added.
-/

namespace Tsc.Lockup

open Go Sdk Kv Staking

variable {W : Type}

/-! ### Reading a store that may hold anything -/

def Value.locksOr : Option Value → List Lock
  | some (.locks l) => l
  | _ => []

def Value.amountOr : Option Value → ℤ
  | some (.amount x) => x
  | _ => 0

/-- The lock list of an account; empty for one that does not decode. -/
def locksOf (st : LockStore) (a : AccAddress) : List Lock :=
  Value.locksOr (st.get (getLocksByAddressKey a))

/-- The amount an account has locked until a date, over all its locks of that date. -/
def lockedUntil (st : LockStore) (a : AccAddress) (u : Bytes) : ℤ :=
  (((locksOf st a).filter fun e => e.unlockDate = u).map Lock.amount).sum

theorem lockedUntil_eq_weigh (st : LockStore) (a : AccAddress) (u : Bytes) :
    lockedUntil st a u = weighLocks (fun d => if d = u then 1 else 0) (locksOf st a) :=
  (weigh_indicator Lock.unlockDate Lock.amount (fun d => d = u) (locksOf st a)).symm

theorem locksOf_eq {st : LockStore} {a : AccAddress} {l : List Lock}
    (h : getLocksByAddress st a = .ok l) : locksOf st a = l := by
  unfold getLocksByAddress at h
  unfold locksOf
  cases hget : st.get (getLocksByAddressKey a) with
  | none =>
    rw [hget] at h
    cases h
    rfl
  | some v =>
    rw [hget] at h
    cases v with
    | locks l' =>
      cases h
      rfl
    | amount x => cases h

/-! ### Entries -/

structure LockEntry where
  account : AccAddress
  unlockDate : Bytes
  unlockTime : Time
  amount : ℤ

def addToList (d : Bytes) (x : ℤ) (o : Option Value) : Value :=
  .locks (addLocks d x (Value.locksOr o))

def addToAmount (x : ℤ) (o : Option Value) : Value := .amount (Value.amountOr o + x)

/-- The two updates of `Lock`. -/
def enter (st : LockStore) (e : LockEntry) : LockStore :=
  (st.modify (getLocksByAddressKey e.account) (addToList e.unlockDate e.amount)).modify
    (getLockExpirationKey e.unlockTime e.account) (addToAmount e.amount)

theorem addToList_comm (d d' : Bytes) (x y : ℤ) (o : Option Value) :
    addToList d x (some (addToList d' y o)) = addToList d' y (some (addToList d x o)) := by
  simp only [addToList, Value.locksOr, addLocks_comm d d']

theorem addToAmount_comm (x y : ℤ) (o : Option Value) :
    addToAmount x (some (addToAmount y o)) = addToAmount y (some (addToAmount x o)) := by
  simp only [addToAmount, Value.amountOr, add_right_comm]

/-- Two entries may be made in either order, also for one account and one date. -/
theorem enter_comm (st : LockStore) (e f : LockEntry) :
    enter (enter st e) f = enter (enter st f) e := by
  have hapart : ∀ (s : LockStore) (e f : LockEntry),
      (s.modify (getLocksByAddressKey e.account) (addToList e.unlockDate e.amount)).modify
        (getLockExpirationKey f.unlockTime f.account) (addToAmount f.amount) =
      (s.modify (getLockExpirationKey f.unlockTime f.account) (addToAmount f.amount)).modify
        (getLocksByAddressKey e.account) (addToList e.unlockDate e.amount) := by
    intro s e f
    apply Store.modify_comm
    intro h
    exact absurd h (addressKey_ne_dateKey e.account f.account f.unlockTime)
  unfold enter
  rw [← hapart _ f e, Store.modify_comm _ fun _ => addToList_comm _ _ _ _,
    Store.modify_comm _ fun _ => addToAmount_comm _ _, hapart _ e f]

theorem locksOf_enter (st : LockStore) (e : LockEntry) (a : AccAddress) :
    locksOf (enter st e) a =
      if a = e.account then addLocks e.unlockDate e.amount (locksOf st a) else locksOf st a := by
  unfold locksOf enter
  rw [Store.get_modify, if_neg (addressKey_ne_dateKey a e.account e.unlockTime), Store.get_modify]
  by_cases ha : a = e.account
  · rw [if_pos ha, ha, if_pos rfl]
    rfl
  · rw [if_neg ha, if_neg fun h => ha (getLocksByAddressKey_injective h)]

theorem lockedUntil_enter (st : LockStore) (e : LockEntry) (a : AccAddress) (u : Bytes) :
    lockedUntil (enter st e) a u =
      lockedUntil st a u + if a = e.account ∧ u = e.unlockDate then e.amount else 0 := by
  rw [lockedUntil_eq_weigh, lockedUntil_eq_weigh, locksOf_enter]
  by_cases ha : a = e.account
  · rw [if_pos ha, weighLocks_addLocks]
    by_cases hu : u = e.unlockDate
    · simp [ha, hu]
    · simp [hu, Ne.symm hu]
  · simp [ha]

/-! ### Messages -/

theorem mergeLock_eq {st st₁ : LockStore} {a : AccAddress} {d : Bytes} {x : ℤ}
    (h : mergeLock st a d x = .ok st₁) :
    st₁ = st.modify (getLocksByAddressKey a) (addToList d x) := by
  obtain ⟨l, hget, rfl⟩ := mergeLock_ok h
  apply Store.ext_get
  intro key
  rw [Store.get_modify]
  by_cases hkey : key = getLocksByAddressKey a
  · rw [if_pos hkey, hkey, setLocksByAddress_get_self, if_neg (addLocks_ne_nil d x l)]
    unfold addToList
    rw [← locksOf_eq hget]
    rfl
  · rw [if_neg hkey, setLocksByAddress_get _ _ _ _ hkey]

theorem addToExpirationQueue_eq {st st' : LockStore} {t : Time} {a : AccAddress} {x : ℤ}
    (h : addToExpirationQueue st t a x = .ok st') :
    st' = st.modify (getLockExpirationKey t a) (addToAmount x) := by
  simp only [addToExpirationQueue, bind_eq_ok, intAdd_eq_ok] at h
  obtain ⟨current, hcurrent, y, ⟨_, rfl⟩, h⟩ := h
  cases h
  unfold Store.modify addToAmount
  cases hget : st.get (getLockExpirationKey t a) with
  | none =>
    rw [hget] at hcurrent
    cases hcurrent
    rfl
  | some v =>
    rw [hget] at hcurrent
    cases v with
    | locks l => cases hcurrent
    | amount z =>
      cases hcurrent
      rfl

/-- The account an output pays, if its address decodes. -/
def MultiSendDelegateAndLockOutput.recipient (k : Keepers W)
    (output : MultiSendDelegateAndLockOutput) : Option AccAddress :=
  (k.accAddressFromBech32 output.toAddress).toOption

def amountOf : Option MultiSendDelegateAndLockOutput → ℤ
  | none => 0
  | some output => output.amount.amount

def amountTo (k : Keepers W) (a : AccAddress) (u : Bytes) :
    Option MultiSendDelegateAndLockOutput → ℤ
  | none => 0
  | some output =>
    if output.recipient k = some a ∧ output.unlockDate = u then output.amount.amount else 0

/-- What the outputs send to account `a`, to be locked until date `u`. -/
def sentTo (k : Keepers W) (a : AccAddress) (u : Bytes)
    (outputs : List (Option MultiSendDelegateAndLockOutput)) : ℤ :=
  (outputs.map (amountTo k a u)).sum

/-- The entry an output ends in, if its address and its date can be read. -/
def entryOf (k : Keepers W) : Option MultiSendDelegateAndLockOutput → Option LockEntry
  | none => none
  | some output =>
    match output.recipient k, parseDateOnly output.unlockDate with
    | some a, some t => some ⟨a, output.unlockDate, t, output.amount.amount⟩
    | _, _ => none

section Messages

variable {k : Keepers W} {ctx : Ctx} {st : LockStore} {w : W} {fromAddress : Bytes}
  {s s' : LockStore × W} {output? : Option MultiSendDelegateAndLockOutput}
  {outputs : List (Option MultiSendDelegateAndLockOutput)}

theorem lock_enter {st' : LockStore} {msg : MsgLock} (h : lock k ctx st w msg = .ok st') :
    ∃ a t, k.accAddressFromBech32 msg.address = .ok a ∧ parseDateOnly msg.unlockDate = some t ∧
      st' = enter st ⟨a, msg.unlockDate, t, msg.amount.amount⟩ := by
  obtain ⟨a, t, st₁, ha, _, ht, _, _, hmerge, hqueue⟩ := lock_ok k h
  refine ⟨a, t, ha, ht, ?_⟩
  rw [addToExpirationQueue_eq hqueue, mergeLock_eq hmerge]
  rfl

/-- One round of the loop makes the entry of its output. -/
theorem sendOutput_enter (h : sendOutput k ctx fromAddress s output? = .ok s') :
    ∃ output a t, output? = some output ∧ output.recipient k = some a ∧
      parseDateOnly output.unlockDate = some t ∧
      s'.1 = enter s.1 ⟨a, output.unlockDate, t, output.amount.amount⟩ := by
  obtain ⟨output, ho, hsend⟩ := (bind_eq_ok _ _ _).mp h
  obtain ⟨a, t, ha, ht, hst⟩ := lock_enter (sendDelegateAndLock_ok k hsend)
  exact ⟨output, a, t, (ofOption_eq_ok _ _ _).mp ho, congrArg Except.toOption ha, ht, hst⟩

theorem sendOutput_lockedUntil (h : sendOutput k ctx fromAddress s output? = .ok s')
    (a : AccAddress) (u : Bytes) :
    lockedUntil s'.1 a u = lockedUntil s.1 a u + amountTo k a u output? := by
  obtain ⟨output, b, t, rfl, hb, _, hst⟩ := sendOutput_enter h
  rw [hst, lockedUntil_enter, amountTo, hb]
  simp only [Option.some.injEq, eq_comm]

theorem outputs_lockedUntil (h : forRange (sendOutput k ctx fromAddress) s outputs = .ok s')
    (a : AccAddress) (u : Bytes) :
    lockedUntil s'.1 a u = lockedUntil s.1 a u + sentTo k a u outputs := by
  apply forRange_sum (fun _ => True) (fun s : LockStore × W => lockedUntil s.1 a u) (amountTo k a u)
    _ trivial h
  intro output? _ s₁ s₂ _ hstep
  exact ⟨trivial, sendOutput_lockedUntil hstep a u⟩

/-- The final store, as the entries of the outputs made one after the other. -/
theorem outputs_enter (h : forRange (sendOutput k ctx fromAddress) s outputs = .ok s') :
    s'.1 = (outputs.filterMap (entryOf k)).foldl enter s.1 := by
  induction outputs generalizing s with
  | nil =>
    cases h
    rfl
  | cons output? outputs ih =>
    rw [forRange_cons, bind_eq_ok] at h
    obtain ⟨s₁, hone, hrest⟩ := h
    obtain ⟨output, a, t, rfl, ha, ht, hst⟩ := sendOutput_enter hone
    have he : entryOf k (some output) = some ⟨a, output.unlockDate, t, output.amount.amount⟩ := by
      simp only [entryOf, ha, ht]
    rw [ih hrest, hst, List.filterMap_cons_some he, List.foldl_cons]

theorem outputs_perm {outputs' : List (Option MultiSendDelegateAndLockOutput)}
    {s₁ s₂ : LockStore × W} (hperm : outputs'.Perm outputs) (hs : s₁.1 = s.1)
    (h : forRange (sendOutput k ctx fromAddress) s outputs = .ok s')
    (h' : forRange (sendOutput k ctx fromAddress) s₁ outputs' = .ok s₂) : s₂.1 = s'.1 := by
  rw [outputs_enter h, outputs_enter h', hs]
  apply (hperm.filterMap (entryOf k)).foldl_eq'
  intro e _ f _ st
  exact enter_comm st e f

/-! ### The sum of the outputs -/

theorem addOutput_total {total : ℤ} (h : forRange addOutput 0 outputs = .ok total) :
    total = (outputs.map amountOf).sum := by
  have hsum := forRange_sum (fun _ => True) id amountOf
    (fun output? _ t t' _ hstep => ⟨trivial, ?_⟩) trivial h
  · simpa using hsum
  · simp only [addOutput, deref, bind_eq_ok, ofOption_eq_ok, intAdd_eq_ok] at hstep
    obtain ⟨output, rfl, _, _, _, ht⟩ := hstep
    exact ht

theorem finsum_amountTo {output : MultiSendDelegateAndLockOutput} {a : AccAddress}
    (h : output.recipient k = some a) :
    (Function.support fun p : AccAddress × Bytes => amountTo k p.1 p.2 (some output)).Finite ∧
      ∑ᶠ p : AccAddress × Bytes, amountTo k p.1 p.2 (some output) = output.amount.amount := by
  have hzero : ∀ p : AccAddress × Bytes, p ≠ (a, output.unlockDate) →
      amountTo k p.1 p.2 (some output) = 0 := by
    intro p hp
    rw [amountTo, h, if_neg]
    rintro ⟨ha, hu⟩
    exact hp (Prod.ext (Option.some.inj ha).symm hu.symm)
  constructor
  · apply (Set.finite_singleton (a, output.unlockDate)).subset
    intro p hp
    by_contra hne
    exact hp (hzero p hne)
  · rw [finsum_eq_single _ _ hzero, amountTo, h, if_pos ⟨rfl, rfl⟩]

/-- Over all accounts and dates the outputs send what they add up to. -/
theorem finsum_sentTo
    (h : ∀ output? ∈ outputs, ∃ output a, output? = some output ∧ output.recipient k = some a) :
    (Function.support fun p : AccAddress × Bytes => sentTo k p.1 p.2 outputs).Finite ∧
      ∑ᶠ p : AccAddress × Bytes, sentTo k p.1 p.2 outputs = (outputs.map amountOf).sum := by
  induction outputs with
  | nil => simp [sentTo]
  | cons output? outputs ih =>
    obtain ⟨⟨output, a, rfl, ha⟩, htail⟩ := List.forall_mem_cons.mp h
    obtain ⟨hfin, hsum⟩ := ih htail
    obtain ⟨hfin₁, hsum₁⟩ := finsum_amountTo ha
    simp only [sentTo, List.map_cons, List.sum_cons] at hfin hsum ⊢
    refine ⟨(hfin₁.union hfin).subset (Function.support_add _ _), ?_⟩
    rw [finsum_add_distrib hfin₁ hfin, hsum₁, hsum]
    rfl

/-- If it succeeds, a multi-send adds to what each account has locked until each
date just what its outputs send there, in all the declared total, and in any order of
the outputs leaves the same store. -/
theorem multi_send_distributes (k : Keepers W) (ctx : Ctx) (st : LockStore) (w : W)
    (msg : MsgMultiSendDelegateAndLock) (s' : LockStore × W)
    (h : multiSendDelegateAndLock k ctx st w msg = .ok s') :
    (∀ a u, lockedUntil s'.1 a u = lockedUntil st a u + sentTo k a u msg.outputs) ∧
      ∑ᶠ p : AccAddress × Bytes, (lockedUntil s'.1 p.1 p.2 - lockedUntil st p.1 p.2) =
        msg.totalAmount.amount ∧
      ∀ outputs s'', outputs.Perm msg.outputs →
        multiSendDelegateAndLock k ctx st w { msg with outputs } = .ok s'' → s''.1 = s'.1 := by
  have hloop := multiSendDelegateAndLock_ok k h
  have hgrowth := outputs_lockedUntil hloop
  refine ⟨hgrowth, ?_, ?_⟩
  · simp only [multiSendDelegateAndLock, bind_eq_ok, failIf_eq_ok, not_not] at h
    obtain ⟨_, _, total, htotal, _, hequal, _⟩ := h
    have hread : ∀ output? ∈ msg.outputs,
        ∃ output a, output? = some output ∧ output.recipient k = some a := by
      intro output? ho
      obtain ⟨_, _, hstep⟩ := forRange_mem_ok hloop ho
      obtain ⟨output, a, _, hsome, ha, _⟩ := sendOutput_enter hstep
      exact ⟨output, a, hsome, ha⟩
    have hdiff : ∀ p : AccAddress × Bytes, lockedUntil s'.1 p.1 p.2 - lockedUntil st p.1 p.2 =
        sentTo k p.1 p.2 msg.outputs := by
      intro p
      rw [hgrowth]
      ring
    rw [finsum_congr hdiff, (finsum_sentTo hread).2, ← addOutput_total htotal, hequal]
  · intro outputs s'' hperm h''
    exact outputs_perm hperm rfl hloop (multiSendDelegateAndLock_ok k h'')

end Messages

def fundedSender : State :=
  { twoValidators with balance := fun a _ => if a = ascii "s" then 1000 else 0 }

/-- Two outputs for one account and date, with different validators. -/
def twoPayments : MsgMultiSendDelegateAndLock :=
  ⟨accText (ascii "s"), tsc 30, [
    some ⟨accText (ascii "d"), valText (ascii "A"), ascii "2026-06-01", tsc 10⟩,
    some ⟨accText (ascii "d"), valText (ascii "B"), ascii "2026-06-01", tsc 20⟩]⟩

theorem multi_send_distributes_two_payments :
    ∃ s' s'', multiSendDelegateAndLock (keepers chain) newYear Store.empty fundedSender
        twoPayments = .ok s' ∧
      multiSendDelegateAndLock (keepers chain) newYear Store.empty fundedSender
        { twoPayments with outputs := twoPayments.outputs.reverse } = .ok s'' ∧
      lockedUntil s'.1 (ascii "d") (ascii "2026-06-01") = 30 ∧ s''.1 = s'.1 := by
  have hok : (multiSendDelegateAndLock (keepers chain) newYear Store.empty fundedSender
    twoPayments).isOk = true := by decide +kernel
  have hok' : (multiSendDelegateAndLock (keepers chain) newYear Store.empty fundedSender
    { twoPayments with outputs := twoPayments.outputs.reverse }).isOk = true := by decide +kernel
  obtain ⟨s', hs'⟩ := exists_of_isOk hok
  obtain ⟨s'', hs''⟩ := exists_of_isOk hok'
  obtain ⟨hgrowth, _, hperm⟩ := multi_send_distributes _ _ _ _ _ _ hs'
  refine ⟨s', s'', hs', hs'', ?_, hperm _ _ (List.reverse_perm _) hs''⟩
  rw [hgrowth]
  decide +kernel

end Tsc.Lockup
