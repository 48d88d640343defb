import Tsc.Lockup.DateStore

/-!
# The two scans of the expiration queue (`x/lockup/keeper/locks_by_date_store.go:103-192`)

Both scans cut the queue at the second after the given time: `IterateActiveLocks`
begins there and runs to the end of the module's store, past the queue,
`IterateAndDeleteExpiredLocks` ends there. The keys of the address index sort before
the queue; the key of the total sorts behind it and is too short for a queue key.
-/

namespace Tsc.Lockup

open Go Sdk Kv

/-! ### What the store holds -/

/-- Times that a key of the queue gives back and that keys are ordered by: whole
seconds from 1970 on, as unlock dates are. -/
def Queueable (t : Time) : Prop := WholeSeconds t ∧ FromEpoch t

instance (t : Time) : Decidable (Queueable t) := inferInstanceAs (Decidable (_ ∧ _))

structure QueueEntry where
  addr : AccAddress
  unlockTime : Time
  amount : ℤ
  queueable : Queueable unlockTime

namespace QueueEntry

def key (e : QueueEntry) : Bytes := getLockExpirationKey e.unlockTime e.addr

def StoredIn (e : QueueEntry) (st : LockStore) : Prop := st.get e.key = some (.amount e.amount)

theorem ext_key {e f : QueueEntry} (hkey : e.key = f.key) (hamount : e.amount = f.amount) :
    e = f := by
  obtain ⟨ht, ha⟩ := e.queueable.1.key_injective f.queueable.1 hkey
  cases e
  cases f
  cases ht
  cases ha
  cases hamount
  rfl

end QueueEntry

/-- Keys of the module's store outside the queue. -/
def OtherKey (key : Bytes) : Prop := (∃ a, key = getLocksByAddressKey a) ∨ key = totalLockedKey

/-- The stores that calls on the queue with times from 1970 on lead to, with any writes
to the address index and the total in between. -/
inductive Written : LockStore → Prop
  | empty : Written .empty
  | add {st st' : LockStore} {t : Time} {a : AccAddress} {x : ℤ} : Written st → Queueable t →
      addToExpirationQueue st t a x = .ok st' → Written st'
  | remove {st st' : LockStore} {t : Time} {a : AccAddress} {x : ℤ} : Written st → Queueable t →
      removeFromExpirationQueue st t a x = .ok st' → Written st'
  | set {st : LockStore} {key : Bytes} (v : Value) : Written st → OtherKey key →
      Written (st.set key v)
  | delete {st : LockStore} {key : Bytes} : Written st → OtherKey key → Written (st.delete key)

def QueueStore (st : LockStore) : Prop :=
  ∀ key v, st.get key = some v →
    OtherKey key ∨ ∃ e : QueueEntry, key = e.key ∧ v = .amount e.amount

namespace QueueStore

variable {st st' : LockStore} {t : Time} {a : AccAddress} {x : ℤ}

theorem delete (h : QueueStore st) (key : Bytes) : QueueStore (st.delete key) := by
  intro key' v hget
  rw [Store.get_delete] at hget
  split_ifs at hget
  exact h key' v hget

theorem setEntry (h : QueueStore st) (ht : Queueable t) (a : AccAddress) (x : ℤ) :
    QueueStore (st.set (getLockExpirationKey t a) (.amount x)) :=
  Store.forall_get_set (Or.inr ⟨⟨a, t, x, ht⟩, rfl, rfl⟩) h

theorem add (h : QueueStore st) (ht : Queueable t)
    (hadd : addToExpirationQueue st t a x = .ok st') : QueueStore st' := by
  unfold addToExpirationQueue at hadd
  obtain ⟨_, -, hadd⟩ := (bind_eq_ok _ _ _).mp hadd
  obtain ⟨y, -, hadd⟩ := (bind_eq_ok _ _ _).mp hadd
  cases hadd
  exact h.setEntry ht a y

theorem remove (h : QueueStore st) (ht : Queueable t)
    (hremove : removeFromExpirationQueue st t a x = .ok st') : QueueStore st' := by
  unfold removeFromExpirationQueue at hremove
  dsimp only at hremove
  split at hremove
  · cases hremove
    exact h
  · obtain ⟨_, -, hremove⟩ := (bind_eq_ok _ _ _).mp hremove
    obtain ⟨_, -, hremove⟩ := (bind_eq_ok _ _ _).mp hremove
    obtain ⟨y, -, hremove⟩ := (bind_eq_ok _ _ _).mp hremove
    split_ifs at hremove
    · cases hremove
      exact h.delete _
    · cases hremove
      exact h.setEntry ht a y

end QueueStore

theorem Written.queueStore {st : LockStore} (h : Written st) : QueueStore st := by
  induction h with
  | empty =>
    intro key v hget
    cases hget
  | add _ ht hadd ih => exact ih.add ht hadd
  | remove _ ht hremove ih => exact ih.remove ht hremove
  | set v _ hkey ih => exact Store.forall_get_set (Or.inl hkey) ih
  | delete _ _ ih => exact ih.delete _

/-! ### Entries of a key range -/

/-- What the scans make of a stored key and value. -/
def readEntry (p : Bytes × Value) : Option QueueEntry :=
  let unlockTime := Time.ofUnix (wrap64 (beVal ((p.1.drop locksByDateKey.length).take 8)))
  if p.1.length < locksByDateKey.length + 8 then none
  else match p.2 with
    | .amount x =>
      if h : Queueable unlockTime then
        some ⟨p.1.drop (locksByDateKey.length + 8), unlockTime, x, h⟩
      else none
    | .locks _ => none

theorem readEntry_entry (e : QueueEntry) : readEntry (e.key, .amount e.amount) = some e := by
  have htime : Time.ofUnix (wrap64 (beVal ((e.key.drop locksByDateKey.length).take 8))) =
      e.unlockTime := by
    unfold QueueEntry.key
    rw [getLockExpirationKey_time, e.queueable.1.readBack]
  have hlen : ¬ e.key.length < locksByDateKey.length + 8 := getLockExpirationKey_length _ _
  have haddr : e.key.drop (locksByDateKey.length + 8) = e.addr := getLockExpirationKey_addr _ _
  simp only [readEntry, if_neg hlen, htime, haddr, dif_pos e.queueable]

theorem readEntry_totalLockedKey (v : Value) : readEntry (totalLockedKey, v) = none := by
  have hlen : totalLockedKey.length < locksByDateKey.length + 8 := by decide
  simp only [readEntry, if_pos hlen]

/-- The entries of the queue with keys from `start` on and before `stop`. -/
def entriesIn (st : LockStore) (start : Bytes) (stop : Option Bytes) : List QueueEntry :=
  (st.iterator start stop).filterMap readEntry

section Range

variable {st : LockStore} (h : QueueStore st) {start : Bytes} (hstart : locksByDateKey ≤ start)
  {stop : Option Bytes}
include h hstart

theorem QueueStore.mem_iterator {p : Bytes × Value} (hp : p ∈ st.iterator start stop) :
    p.1 = totalLockedKey ∨ ∃ e : QueueEntry, p = (e.key, .amount e.amount) := by
  obtain ⟨hget, hle, -⟩ := (st.mem_iterator start stop p.1 p.2).mp hp
  rcases h p.1 p.2 hget with (⟨a, hkey⟩ | hkey) | ⟨e, hkey, hv⟩
  · rw [hkey] at hle
    exact absurd (addressKey_lt_locksByDateKey a) (not_lt.mpr (hstart.trans hle))
  · exact Or.inl hkey
  · exact Or.inr ⟨e, Prod.ext hkey hv⟩

theorem QueueStore.eq_of_readEntry {p : Bytes × Value} (hp : p ∈ st.iterator start stop)
    {e : QueueEntry} (he : readEntry p = some e) : p = (e.key, .amount e.amount) := by
  rcases h.mem_iterator hstart hp with hkey | ⟨f, rfl⟩
  · obtain ⟨key, v⟩ := p
    dsimp only at hkey
    rw [hkey, readEntry_totalLockedKey] at he
    cases he
  · rw [readEntry_entry] at he
    cases he
    rfl

theorem QueueStore.mem_entriesIn (e : QueueEntry) :
    e ∈ entriesIn st start stop ↔ e.StoredIn st ∧ start ≤ e.key ∧ ∀ key ∈ stop, e.key < key := by
  unfold entriesIn QueueEntry.StoredIn
  rw [← Store.mem_iterator, List.mem_filterMap]
  constructor
  · rintro ⟨p, hp, he⟩
    rwa [h.eq_of_readEntry hstart hp he] at hp
  · intro hp
    exact ⟨_, hp, readEntry_entry e⟩

theorem QueueStore.entriesIn_ascending :
    Ascending QueueEntry.key (entriesIn st start stop) := by
  unfold entriesIn Ascending
  rw [List.pairwise_filterMap]
  refine List.Pairwise.imp_of_mem ?_ (st.iterator_ascending start stop)
  intro p q hp hq hlt e he f hf
  rwa [h.eq_of_readEntry hstart hp he, h.eq_of_readEntry hstart hq hf] at hlt

end Range

/-! ### The scans -/

/-- The key of the second after `t`. -/
def cutKey (t : Time) : Bytes := locksByDateKey ++ timeBytes (t.unix + 1)

theorem locksByDateKey_le_cutKey (t : Time) : locksByDateKey ≤ cutKey t := locksByDateKey_le _

theorem QueueEntry.key_lt_cutKey_iff (e : QueueEntry) {cutoff : Time} (hcut : FromEpoch cutoff) :
    e.key < cutKey cutoff ↔ ¬ e.unlockTime.After cutoff := by
  have hafter : e.unlockTime.After cutoff ↔ cutoff.unix < e.unlockTime.unix := by
    have hwhole := congrArg Time.nanos e.queueable.1.whole
    unfold Time.ofUnix at hwhole
    unfold Time.After
    unfold Time.unix nanosPerSecond at hwhole ⊢
    dsimp only at hwhole
    omega
  obtain ⟨h0, hle⟩ := hcut
  unfold QueueEntry.key cutKey
  rw [e.queueable.2.key_lt_iff _ ⟨by omega, by omega⟩, hafter]
  omega

def visit {σ : Type} (cb : σ → AccAddress → Time → ℤ → Out σ) (s : σ) (e : QueueEntry) : Out σ :=
  cb s e.addr e.unlockTime e.amount

section Visit

variable {σ : Type} (cb : σ → AccAddress → Time → ℤ → Out σ)

theorem visitActiveLock_entry (s : σ) (e : QueueEntry) :
    visitActiveLock cb s (e.key, .amount e.amount) = visit cb s e := by
  have hlen : ¬ e.key.length < locksByDateKey.length + 8 := getLockExpirationKey_length _ _
  have hback := e.queueable.1.readBack
  unfold Time.ofUnix at hback
  simp only [visitActiveLock, if_neg hlen, Value.unmarshalInt, ok_bind, visit]
  unfold QueueEntry.key
  rw [getLockExpirationKey_time, getLockExpirationKey_addr, hback]

theorem visitExpiredLock_entry (s : LockStore × σ) (e : QueueEntry) :
    visitExpiredLock cb s (e.key, .amount e.amount) =
      visit cb s.2 e >>= fun s' => .ok (s.1.delete e.key, s') := by
  have hlen : ¬ e.key.length < locksByDateKey.length + 8 := getLockExpirationKey_length _ _
  have hback := e.queueable.1.readBack
  unfold Time.ofUnix at hback
  simp only [visitExpiredLock, failIf_of_not _ hlen, Value.unmarshalInt, ok_bind, visit]
  unfold QueueEntry.key
  rw [getLockExpirationKey_time, getLockExpirationKey_addr, hback]

end Visit

theorem cutKey_lt_totalLockedKey (t : Time) : cutKey t < totalLockedKey :=
  List.Lex.rel (show (108 : Byte) < 116 by decide)

section Scan

variable {st : LockStore} (h : QueueStore st) (cutoff : Time) {σ : Type}
  (cb : σ → AccAddress → Time → ℤ → Out σ) (s : σ)
include h

theorem QueueStore.iterateActiveLocks_eq :
    iterateActiveLocks st cutoff cb s =
      forRange (visit cb) s (entriesIn st (cutKey cutoff) none) := by
  unfold iterateActiveLocks
  rw [timeBytes_wrap64]
  refine forRange_filterMap ?_ s
  intro p hp s
  rcases h.mem_iterator (locksByDateKey_le_cutKey cutoff) hp with hkey | ⟨e, rfl⟩
  · obtain ⟨key, v⟩ := p
    dsimp only at hkey
    subst hkey
    have hlen : totalLockedKey.length < locksByDateKey.length + 8 := by decide
    rw [readEntry_totalLockedKey]
    simp only [visitActiveLock, if_pos hlen, Option.elim_none]
  · rw [readEntry_entry, visitActiveLock_entry]
    rfl

/-- The entries before the cut, deleted one by one. -/
def deleteEntries (st : LockStore) (l : List QueueEntry) : LockStore :=
  l.foldl (fun st e => st.delete e.key) st

theorem QueueStore.iterateAndDeleteExpiredLocks_eq :
    iterateAndDeleteExpiredLocks st cutoff cb s =
      forRange (visit cb) s (entriesIn st locksByDateKey (some (cutKey cutoff))) >>= fun s' =>
        .ok (deleteEntries st (entriesIn st locksByDateKey (some (cutKey cutoff))), s') := by
  unfold iterateAndDeleteExpiredLocks
  rw [timeBytes_wrap64]
  refine Eq.trans (forRange_filterMap ?_ (st, s)) (forRange_prod st s)
  intro p hp s
  rcases h.mem_iterator le_rfl hp with hkey | ⟨e, rfl⟩
  · have hlt := ((st.mem_iterator _ _ p.1 p.2).mp hp).2.2 _ rfl
    rw [hkey] at hlt
    exact absurd hlt (not_lt.mpr (cutKey_lt_totalLockedKey cutoff).le)
  · rw [readEntry_entry, visitExpiredLock_entry]
    rfl

end Scan

theorem get_deleteEntries (st : LockStore) (l : List QueueEntry) (key : Bytes) :
    (deleteEntries st l).get key = if ∃ e ∈ l, e.key = key then none else st.get key := by
  have hfold : deleteEntries st l = (l.map QueueEntry.key).foldl Store.delete st := by
    unfold deleteEntries
    rw [List.foldl_map]
  rw [hfold, Store.get_foldl_delete]
  simp only [List.mem_map]

/-! ### The split -/

/-- The list has the stored entries with `P` of their time, each once and by time. -/
structure Lists (st : LockStore) (P : Time → Prop) (l : List QueueEntry) : Prop where
  mem_iff : ∀ e, e ∈ l ↔ e.StoredIn st ∧ P e.unlockTime
  once : l.Nodup
  ordered : l.Pairwise fun e f => e.unlockTime.nanos ≤ f.unlockTime.nanos

theorem nanos_le_of_key_lt {e f : QueueEntry} (h : e.key < f.key) :
    e.unlockTime.nanos ≤ f.unlockTime.nanos := by
  have hmono : e.unlockTime.unix ≤ f.unlockTime.unix →
      e.unlockTime.nanos ≤ f.unlockTime.nanos := by
    intro hle
    rw [← e.queueable.1.whole, ← f.queueable.1.whole]
    unfold Time.ofUnix nanosPerSecond
    dsimp only
    omega
  rcases (e.queueable.2.key_lt_key_iff _ _ f.queueable.2).mp h with hlt | ⟨hbytes, -⟩
  · exact hmono hlt.le
  · have hback := e.queueable.1.readBack
    rw [hbytes, f.queueable.1.readBack] at hback
    rw [hback]

theorem QueueStore.lists {st : LockStore} (h : QueueStore st) {start : Bytes}
    (hstart : locksByDateKey ≤ start) {stop : Option Bytes} {P : Time → Prop}
    (hP : ∀ e : QueueEntry, (start ≤ e.key ∧ ∀ key ∈ stop, e.key < key) ↔ P e.unlockTime) :
    Lists st P (entriesIn st start stop) where
  mem_iff e := by rw [h.mem_entriesIn hstart, hP]
  once := (h.entriesIn_ascending hstart).nodup
  ordered := (h.entriesIn_ascending hstart).imp nanos_le_of_key_lt

theorem QueueStore.lists_active {st : LockStore} (h : QueueStore st) {cutoff : Time}
    (hcut : FromEpoch cutoff) :
    Lists st (fun t => t.After cutoff) (entriesIn st (cutKey cutoff) none) := by
  apply h.lists (locksByDateKey_le_cutKey cutoff)
  intro e
  rw [← not_lt, e.key_lt_cutKey_iff hcut]
  simp

theorem QueueStore.lists_expired {st : LockStore} (h : QueueStore st) {cutoff : Time}
    (hcut : FromEpoch cutoff) :
    Lists st (fun t => ¬ t.After cutoff) (entriesIn st locksByDateKey (some (cutKey cutoff))) := by
  apply h.lists le_rfl
  intro e
  have hstart : locksByDateKey ≤ e.key := locksByDateKey_le_key _ _
  simp [hstart, e.key_lt_cutKey_iff hcut]

section Delete

variable {st : LockStore} {P : Time → Prop} {l : List QueueEntry} (hl : Lists st P l)
include hl

theorem Lists.storedIn_deleteEntries (e : QueueEntry) :
    e.StoredIn (deleteEntries st l) ↔ e.StoredIn st ∧ ¬ P e.unlockTime := by
  unfold QueueEntry.StoredIn
  rw [get_deleteEntries]
  split_ifs with hdeleted
  · -- an entry under the key of a deleted one is that one
    obtain ⟨f, hf, hkey⟩ := hdeleted
    obtain ⟨hstored, hP⟩ := (hl.mem_iff f).mp hf
    refine iff_of_false (by simp) ?_
    rintro ⟨hget, hnot⟩
    unfold QueueEntry.StoredIn at hstored
    rw [hkey, hget] at hstored
    have hamount : e.amount = f.amount := by simpa using hstored
    exact hnot (QueueEntry.ext_key hkey.symm hamount ▸ hP)
  · constructor
    · intro hget
      exact ⟨hget, fun hP => hdeleted ⟨e, (hl.mem_iff e).mpr ⟨hget, hP⟩, rfl⟩⟩
    · exact And.left

omit hl in
theorem get_deleteEntries_of_ne {key : Bytes} (hkey : ∀ e : QueueEntry, key ≠ e.key) :
    (deleteEntries st l).get key = st.get key := by
  rw [get_deleteEntries, if_neg]
  rintro ⟨e, -, he⟩
  exact hkey e he.symm

end Delete

/-- The scans visit the entries after the cutoff and those at or before it; the second
leaves a store without the entries it visited. Both are loops of the callback over the
entries, whether it fails or not. -/
theorem scans_split_queue {st : LockStore} (h : Written st) {cutoff : Time}
    (hcut : FromEpoch cutoff) :
    ∃ active expired st',
      Lists st (fun t => t.After cutoff) active ∧
      Lists st (fun t => ¬ t.After cutoff) expired ∧
      (∀ e : QueueEntry, e.StoredIn st' ↔ e.StoredIn st ∧ e.unlockTime.After cutoff) ∧
      (∀ key, (∀ e : QueueEntry, key ≠ e.key) → st'.get key = st.get key) ∧
      ∀ (σ : Type) (cb : σ → AccAddress → Time → ℤ → Out σ) (s : σ),
        iterateActiveLocks st cutoff cb s = forRange (visit cb) s active ∧
        iterateAndDeleteExpiredLocks st cutoff cb s =
          (forRange (visit cb) s expired >>= fun s' => .ok (st', s')) ∧
        ((∀ s a t x, ∃ s', cb s a t x = .ok s') →
          ∃ s', iterateAndDeleteExpiredLocks st cutoff cb s = .ok (st', s')) := by
  have hst := h.queueStore
  have hexpired := hst.lists_expired hcut
  refine ⟨_, _, deleteEntries st (entriesIn st locksByDateKey (some (cutKey cutoff))),
    hst.lists_active hcut, hexpired, ?_, fun key hkey => get_deleteEntries_of_ne hkey, ?_⟩
  · intro e
    rw [hexpired.storedIn_deleteEntries, not_not]
  · intro σ cb s
    have hdelete := hst.iterateAndDeleteExpiredLocks_eq cutoff cb s
    refine ⟨hst.iterateActiveLocks_eq cutoff cb s, hdelete, ?_⟩
    intro hcb
    have hvisit : ∀ s, ∀ e ∈ entriesIn st locksByDateKey (some (cutKey cutoff)),
        ∃ s', visit cb s e = .ok s' := fun s e _ => hcb s e.addr e.unlockTime e.amount
    obtain ⟨s', hs'⟩ := forRange_returns hvisit s
    exact ⟨s', by rw [hdelete, hs', ok_bind]⟩

theorem addToExpirationQueue_absent {st : LockStore} {t : Time} {a : AccAddress} {x : ℤ}
    (hget : st.get (getLockExpirationKey t a) = none) (hx : InRange x) :
    addToExpirationQueue st t a x = .ok (st.set (getLockExpirationKey t a) (.amount x)) := by
  have hadd : intAdd 0 x = .ok x := by
    rw [intAdd_eq_ok, zero_add]
    exact ⟨hx, rfl⟩
  simp only [addToExpirationQueue, hget, ok_bind, hadd]

/-- A total, an address key, and a lock on each side of day 20001. -/
def twoQueued : LockStore :=
  ((((.empty : LockStore).set totalLockedKey (.amount 7)).set
    (getLocksByAddressKey [1]) (.locks [])).set
    (getLockExpirationKey (Time.ofDay 20000) [1]) (.amount 3)).set
    (getLockExpirationKey (Time.ofDay 20002) [2]) (.amount 4)

theorem twoQueued_written : Written twoQueued := by
  refine .add (.add (.set _ (.set _ .empty (Or.inr rfl)) (Or.inl ⟨[1], rfl⟩)) ?_
    (addToExpirationQueue_absent ?_ ?_)) ?_ (addToExpirationQueue_absent ?_ ?_)
  all_goals decide +kernel

theorem scans_split_queue_sample :
    ∃ active expired, Lists twoQueued (fun t => t.After (Time.ofDay 20001)) active ∧
      Lists twoQueued (fun t => ¬ t.After (Time.ofDay 20001)) expired ∧
      ∃ st' n, iterateAndDeleteExpiredLocks twoQueued (Time.ofDay 20001)
        (fun n _ _ amount => .ok (n + amount)) 0 = .ok (st', n) := by
  obtain ⟨active, expired, st', hactive, hexpired, -, -, hscans⟩ :=
    scans_split_queue twoQueued_written (show FromEpoch (Time.ofDay 20001) by decide)
  obtain ⟨n, hn⟩ := (hscans ℤ (fun n _ _ amount => .ok (n + amount)) 0).2.2
    fun s a t x => ⟨s + x, rfl⟩
  exact ⟨active, expired, hactive, hexpired, st', n, hn⟩

end Tsc.Lockup
