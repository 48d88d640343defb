import Tsc.Kv.Footprint
import Tsc.Lockup.Invariants

/-!
# Accounts do not interfere

`Lock` and `Extend` read and write only the keys of their own account: its list and its
entries of the expiration queue. The transactions of a block are worked off in the
proposer's order, a failed one leaves the store as it is. Whatever the order, each account
gets the outcomes and the locks it would get alone, and only the order among its own
messages matters. All of this holds in every store, well-formed or not.
-/

namespace Tsc.Lockup

open Go Sdk Kv Staking

/-! ### The keys of an account -/

def accountKeys (a : AccAddress) : Set Bytes :=
  {key | key = getLocksByAddressKey a ∨ ∃ t, key = getLockExpirationKey t a}

theorem listKey_mem (a : AccAddress) : getLocksByAddressKey a ∈ accountKeys a := Or.inl rfl

theorem queueKey_mem (t : Time) (a : AccAddress) : getLockExpirationKey t a ∈ accountKeys a :=
  Or.inr ⟨t, rfl⟩

theorem getLockExpirationKey_account {t u : Time} {a b : AccAddress}
    (h : getLockExpirationKey t a = getLockExpirationKey u b) : a = b := by
  rw [← getLockExpirationKey_addr t a, h, getLockExpirationKey_addr]

theorem accountKeys_disjoint {a b : AccAddress} (h : a ≠ b) (key : Bytes) (ha : key ∈ accountKeys a) :
    key ∉ accountKeys b := by
  intro hb
  rcases ha with rfl | ⟨t, rfl⟩
  · rcases hb with heq | ⟨u, heq⟩
    · exact h (getLocksByAddressKey_injective heq)
    · exact addressKey_ne_dateKey a b u heq
  · rcases hb with heq | ⟨u, heq⟩
    · exact addressKey_ne_dateKey b a t heq.symm
    · exact h (getLockExpirationKey_account heq)

/-! ### Footprints of the calls -/

section Calls

variable {a : AccAddress}

theorem getLocksByAddress_reads {s s' : LockStore} (h : AgreeOn (accountKeys a) s s') :
    getLocksByAddress s a = getLocksByAddress s' a := by
  unfold getLocksByAddress
  rw [h _ (listKey_mem a)]

theorem getLockByAddressAndDate_reads (d : Bytes) {s s' : LockStore}
    (h : AgreeOn (accountKeys a) s s') :
    getLockByAddressAndDate s a d = getLockByAddressAndDate s' a d := by
  unfold getLockByAddressAndDate
  rw [getLocksByAddress_reads h]

theorem getLockedAmountByAddress_reads (ctx : Ctx) {s s' : LockStore}
    (h : AgreeOn (accountKeys a) s s') :
    getLockedAmountByAddress ctx s a = getLockedAmountByAddress ctx s' a := by
  unfold getLockedAmountByAddress
  rw [getLocksByAddress_reads h]

theorem setLocksByAddress_footprint (l : List Lock) :
    Footprint (accountKeys a) fun st : LockStore => (.ok (setLocksByAddress st a l) : Out LockStore) := by
  unfold setLocksByAddress
  dsimp only
  by_cases hl : l.length = 0
  · simp only [if_pos hl]
    exact footprint_delete (listKey_mem a)
  · simp only [if_neg hl]
    exact footprint_set (listKey_mem a) _

theorem updateLock_footprint (i : ℤ) (e : Lock) :
    Footprint (accountKeys a) fun st => updateLockByAddressAndIndex st a i e := by
  unfold updateLockByAddressAndIndex
  refine footprint_read_bind (fun _ _ => getLocksByAddress_reads) fun locks => ?_
  exact footprint_after fun _ _ => setLocksByAddress_footprint _

theorem deleteLock_footprint (i : ℤ) :
    Footprint (accountKeys a) fun st => deleteLockByAddressAndIndex st a i := by
  unfold deleteLockByAddressAndIndex
  refine footprint_read_bind (fun _ _ => getLocksByAddress_reads) fun locks => ?_
  exact footprint_after fun _ _ => setLocksByAddress_footprint _

theorem setLockByAddress_footprint (e : Lock) :
    Footprint (accountKeys a) fun st => setLockByAddress st a e := by
  refine footprint_read (fun s s' h => h _ (listKey_mem a)) fun bz? => ?_
  cases bz? with
  | none =>
    refine ⟨_, footprint_set (listKey_mem a) (Value.locks (insertBefore Lock.unlockDate e [])), ?_⟩
    intro st hst
    simp only [setLockByAddress, hst, ok_bind]
  | some bz =>
    refine ⟨_, footprint_after (x := bz.unmarshalLocks) fun l _ => footprint_set (listKey_mem a)
      (Value.locks (insertBefore Lock.unlockDate e l)), ?_⟩
    intro st hst
    simp only [setLockByAddress, hst]

theorem mergeLock_footprint (d : Bytes) (x : ℤ) :
    Footprint (accountKeys a) fun st => mergeLock st a d x := by
  refine footprint_read (fun _ _ => getLockByAddressAndDate_reads d) fun found => ?_
  cases found with
  | none =>
    refine ⟨_, setLockByAddress_footprint ⟨d, x⟩, ?_⟩
    intro st hst
    simp only [mergeLock, hst]
  | some p =>
    refine ⟨_, footprint_after (x := intAdd p.1.amount x) fun y _ =>
      updateLock_footprint p.2 ⟨p.1.unlockDate, y⟩, ?_⟩
    intro st hst
    simp only [mergeLock, hst]

theorem addToExpirationQueue_footprint (t : Time) (x : ℤ) :
    Footprint (accountKeys a) fun st => addToExpirationQueue st t a x := by
  unfold addToExpirationQueue
  dsimp only
  refine footprint_read_bind (fun s s' h => ?_) fun current => ?_
  · rw [h _ (queueKey_mem t a)]
  · exact footprint_after fun _ _ => footprint_set (queueKey_mem t a) _

theorem removeFromExpirationQueue_footprint (t : Time) (x : ℤ) :
    Footprint (accountKeys a) fun st => removeFromExpirationQueue st t a x := by
  refine footprint_read (fun s s' h => h _ (queueKey_mem t a)) fun bz? => ?_
  cases bz? with
  | none =>
    refine ⟨_, footprint_ok, ?_⟩
    intro st hst
    simp only [removeFromExpirationQueue, hst]
  | some bz =>
    have hwrite : ∀ rest : ℤ, Footprint (accountKeys a) fun st : LockStore =>
        (if rest = 0 then .ok (st.delete (getLockExpirationKey t a))
          else .ok (st.set (getLockExpirationKey t a) (.amount rest)) : Out LockStore) := by
      intro rest
      by_cases h0 : rest = 0
      · simp only [if_pos h0]
        exact footprint_delete (queueKey_mem t a)
      · simp only [if_neg h0]
        exact footprint_set (queueKey_mem t a) _
    refine ⟨_, footprint_after (x := bz.unmarshalInt) fun current _ =>
      footprint_after (x := failIf (current < x) (fail .errInvalidAmount
        "cannot remove %s from expiration queue, only %s available" [.int x, .int current]))
      fun _ _ => footprint_after (x := intSub current x) fun rest _ => hwrite rest, ?_⟩
    intro st hst
    simp only [removeFromExpirationQueue, hst]

theorem takeLock_footprint (d : Bytes) (x : ℤ) :
    Footprint (accountKeys a) fun st => takeLock st a d x := by
  refine footprint_read (fun _ _ => getLockByAddressAndDate_reads d) fun found => ?_
  cases found with
  | none =>
    refine ⟨_, footprint_error (fail .errLockupNotFound "no lockup found for from date (%s)"
      [.str d]), ?_⟩
    intro st hst
    simp only [takeLock, hst]
  | some p =>
    by_cases hlt : p.1.amount < x
    · refine ⟨_, footprint_error (fail .errInvalidRequest
        "extension amount exceeds existing lock amount date (%s)" [.str d]), ?_⟩
      intro st hst
      simp only [takeLock, hst, if_pos hlt]
    · by_cases heq : p.1.amount = x
      · refine ⟨_, deleteLock_footprint p.2, ?_⟩
        intro st hst
        simp only [takeLock, hst, if_neg hlt, if_pos heq]
      · refine ⟨_, footprint_after (x := intSub p.1.amount x) fun rest _ =>
          updateLock_footprint p.2 ⟨p.1.unlockDate, rest⟩, ?_⟩
        intro st hst
        simp only [takeLock, hst, if_neg hlt, if_neg heq]

end Calls

/-! ### Footprints of the messages -/

section Messages

variable {W : Type} {k : Keepers W} {ctx : Ctx} {w : W}

/-- The messages an account sends about its own locks. -/
inductive OwnMessage where
  | lock (msg : MsgLock)
  | extend (msg : MsgExtend)

def OwnMessage.address : OwnMessage → Bytes
  | .lock msg => msg.address
  | .extend msg => msg.address

def OwnMessage.handle (k : Keepers W) (ctx : Ctx) (w : W) : OwnMessage → LockStore → Out LockStore
  | .lock msg => fun st => Lockup.lock k ctx st w msg
  | .extend msg => fun st => Lockup.extend k ctx st w msg

/-- The account a message is about, if its address decodes. -/
def OwnMessage.account (k : Keepers W) (msg : OwnMessage) : Option AccAddress :=
  (k.accAddressFromBech32 msg.address).toOption

def keysOf : Option AccAddress → Set Bytes
  | none => ∅
  | some a => accountKeys a

theorem keysOf_disjoint (x y : Option AccAddress) (h : x ≠ y) (key : Bytes) (hx : key ∈ keysOf x) :
    key ∉ keysOf y := by
  cases x with
  | none => exact absurd hx (Set.notMem_empty key)
  | some a =>
    cases y with
    | none => exact Set.notMem_empty key
    | some b => exact accountKeys_disjoint (fun heq => h (congrArg some heq)) key hx

theorem OwnMessage.keysOf_account (msg : OwnMessage) {a : AccAddress}
    (h : k.accAddressFromBech32 msg.address = .ok a) : keysOf (msg.account k) = accountKeys a := by
  unfold OwnMessage.account
  rw [h]
  rfl

theorem lock_footprint (msg : MsgLock) :
    Footprint (keysOf ((OwnMessage.lock msg).account k)) fun st => lock k ctx st w msg := by
  unfold lock
  refine footprint_after fun _ _ => footprint_after fun _ _ => footprint_after fun a ha => ?_
  rw [OwnMessage.keysOf_account (.lock msg) ((wrapErr_eq_ok _ _ _ _).mp ha)]
  refine footprint_after fun _ _ => footprint_after fun t _ => ?_
  refine footprint_after fun _ _ => footprint_after fun _ _ => ?_
  refine footprint_read_bind (fun _ _ => getLockedAmountByAddress_reads ctx) fun locked => ?_
  refine footprint_after fun _ _ => footprint_after fun _ _ => footprint_after fun _ _ => ?_
  exact (mergeLock_footprint _ _).bind (addToExpirationQueue_footprint _ _)

theorem extendOne_footprint (a : AccAddress) (e : Option Extension) :
    Footprint (accountKeys a) fun st => extendOne k ctx w a st e := by
  unfold extendOne
  refine footprint_after fun p _ => ?_
  exact (takeLock_footprint _ _).bind <| (mergeLock_footprint _ _).bind <|
    (removeFromExpirationQueue_footprint _ _).bind (addToExpirationQueue_footprint _ _)

theorem extend_footprint (msg : MsgExtend) :
    Footprint (keysOf ((OwnMessage.extend msg).account k)) fun st => extend k ctx st w msg := by
  unfold extend
  refine footprint_after fun a ha => ?_
  rw [OwnMessage.keysOf_account (.extend msg) ((wrapErr_eq_ok _ _ _ _).mp ha)]
  exact footprint_after fun _ _ => footprint_forRange fun e _ => extendOne_footprint a e

theorem handle_footprint (k : Keepers W) (ctx : Ctx) (w : W) (msg : OwnMessage) :
    Footprint (keysOf (msg.account k)) (msg.handle k ctx w) := by
  cases msg with
  | lock msg => exact lock_footprint msg
  | extend msg => exact extend_footprint msg

end Messages

/-! ### Blocks -/

section Blocks

variable {W : Type}

/-- The transactions of a block in their order, with what became of each. -/
def runBlock (k : Keepers W) (ctx : Ctx) (w : W) (st : LockStore) (msgs : List OwnMessage) :
    LockStore × List (OwnMessage × Out Unit) :=
  workOff (fun msg => msg.handle k ctx w) st msgs

/-- In a block of locks and extensions by any accounts, from any store, each account's
messages have the outcomes, and leave it the locks, that they would have alone. -/
theorem accounts_isolated (k : Keepers W) (ctx : Ctx) (w : W) (st : LockStore)
    (msgs : List OwnMessage) (a : AccAddress) :
    let own := msgs.filter fun msg => msg.account k = some a
    ((runBlock k ctx w st msgs).2.filter fun p => p.1.account k = some a) =
        (runBlock k ctx w st own).2 ∧
      getLocksByAddress (runBlock k ctx w st msgs).1 a =
        getLocksByAddress (runBlock k ctx w st own).1 a ∧
      ∀ t, (runBlock k ctx w st msgs).1.get (getLockExpirationKey t a) =
        (runBlock k ctx w st own).1.get (getLockExpirationKey t a) := by
  have hagree : AgreeOn (keysOf (some a)) st st := fun _ _ => rfl
  obtain ⟨hstore, hlog⟩ :=
    workOff_ofKey (handle_footprint k ctx w) keysOf_disjoint (some a) msgs hagree
  exact ⟨hlog, getLocksByAddress_reads hstore, fun t => hstore _ (queueKey_mem t a)⟩

/-- Two blocks with the same messages in the same order for every account lead to the same
store; messages whose address does not decode make no difference. -/
theorem block_order_irrelevant (k : Keepers W) (ctx : Ctx) (w : W) (st : LockStore)
    {msgs msgs' : List OwnMessage}
    (h : ∀ a, (msgs'.filter fun msg => msg.account k = some a) =
      msgs.filter fun msg => msg.account k = some a) :
    (runBlock k ctx w st msgs').1 = (runBlock k ctx w st msgs).1 := by
  refine workOff_eq_of_ofKey (handle_footprint k ctx w) keysOf_disjoint ?_ st
  intro x hx
  cases x with
  | none => exact absurd hx Set.not_nonempty_empty
  | some a => exact h a

end Blocks

/-- Forty each, of two accounts; the second has no delegations left over for more. -/
def dLocks : OwnMessage := .lock lockUntilJune

def eLocks : OwnMessage := .lock ⟨accText (ascii "e"), ascii "2026-06-01", tsc 40⟩

def dExtends : OwnMessage := .extend extendToJuly

/-- No text of an address. -/
def nobodyLocks : OwnMessage := .lock ⟨ascii "nobody", ascii "2026-06-01", tsc 40⟩

theorem block_order_irrelevant_two :
    (runBlock (readers chain) newYear twoValidators Store.empty
        [eLocks, dLocks, nobodyLocks, dExtends, eLocks]).1 =
      (runBlock (readers chain) newYear twoValidators Store.empty
        [dLocks, dExtends, eLocks, eLocks]).1 := by
  apply block_order_irrelevant
  intro a
  have hd : dLocks.account (readers chain) = some (ascii "d") :=
    congrArg Except.toOption (readText_accText (ascii "d"))
  have hd' : dExtends.account (readers chain) = some (ascii "d") :=
    congrArg Except.toOption (readText_accText (ascii "d"))
  have he : eLocks.account (readers chain) = some (ascii "e") :=
    congrArg Except.toOption (readText_accText (ascii "e"))
  have hnobody : nobodyLocks.account (readers chain) = none := by decide +kernel
  by_cases ha : a = ascii "d"
  · have hne : ascii "e" ≠ a := by rw [ha]; decide
    simp only [List.filter_cons, hd, hd', he, hnobody, Option.some.injEq, ha.symm, hne,
      reduceCtorEq, decide_true, decide_false, if_true, Bool.false_eq_true, if_false,
      List.filter_nil]
  · have hne : ascii "d" ≠ a := fun h => ha h.symm
    simp only [List.filter_cons, hd, hd', he, hnobody, Option.some.injEq, hne, reduceCtorEq,
      decide_false, Bool.false_eq_true, if_false, List.filter_nil]

end Tsc.Lockup
