import Tsc.Kv.Paging
import Tsc.Lockup.TotalLocked

/-!
# The active locks, page by page (`x/lockup/keeper/query_server.go:29-117,316-329`)

`ActiveLocks` walks the expiration queue from the page key on, skips the entries
that have expired and stops at the entry after the last one that fits the page.
Date and account of a lock are read back from the entry's key.
-/

namespace Tsc.Lockup

open Go Sdk Kv Staking

variable {W : Type}

/-- `query.PageRequest`, as far as the query reads it; a nil key is `[]`. -/
structure PageRequest where
  key : Bytes
  limit : ℕ

structure QueryActiveLocksRequest where
  pagination : Option PageRequest

structure ActiveLockResource where
  address : Bytes
  unlockDate : Bytes
  amount : Coin

structure QueryActiveLocksResponse where
  locks : List ActiveLockResource
  nextKey : Option Bytes

/-- The loop of `prefixEndBytes`, from the last byte to the first; a byte that
becomes 0 stays in the result. -/
def prefixEndLoop : Bytes → Option Bytes
  | [] => none
  | b :: bs => if b + 1 ≠ 0 then some ((b + 1) :: bs) else (prefixEndLoop bs).map (0 :: ·)

def prefixEndBytes (bz : Bytes) : Option Bytes := (prefixEndLoop bz.reverse).map List.reverse

def keyUnlockDate (key : Bytes) : Bytes :=
  formatDateOnly (Time.ofUnix (wrap64 (beVal ((key.drop locksByDateKey.length).take 8))))

def keyAddress (key : Bytes) : AccAddress := key.drop (locksByDateKey.length + 8)

section Query

variable (k : Keepers W) (accString : AccAddress → Bytes) (validDenom : Bytes → Bool)

/-- One round of the loop, past the test of the limit; `none` is `continue`. -/
def activeLock (ctx : Ctx) (w : W) (e : Bytes × Value) : Out (Option ActiveLockResource) :=
  if e.1.length < locksByDateKey.length + 8 then .ok none
  else if ¬ isLocked ctx.blockDay (keyUnlockDate e.1) then .ok none
  else do
    let amount ← orFail (fail .statusInternal "failed to unmarshal amount" []) e.2.unmarshalInt
    let bondDenom ← wrapErr .statusInternal "%s" (k.bondDenom w)
    let coin ← newCoin validDenom bondDenom amount
    .ok (some ⟨accString (keyAddress e.1), keyUnlockDate e.1, coin⟩)

def activeLocksLoop (ctx : Ctx) (w : W) (limit : ℕ) :
    List ActiveLockResource → ℕ → List (Bytes × Value) → Out QueryActiveLocksResponse
  | locks, _, [] => .ok ⟨locks, none⟩
  | locks, count, e :: rest =>
    if limit ≤ count then .ok ⟨locks, some e.1⟩
    else activeLock k accString validDenom ctx w e >>= fun
      | none => activeLocksLoop ctx w limit locks count rest
      | some lock => activeLocksLoop ctx w limit (locks ++ [lock]) (count + 1) rest

def activeLocks (ctx : Ctx) (st : LockStore) (w : W) (req : Option QueryActiveLocksRequest) :
    Out QueryActiveLocksResponse := do
  let req ← ofOption (fail .statusInvalidArgument "invalid request" []) req
  let startKey := match req.pagination with
    | some p => if p.key ≠ [] then p.key else locksByDateKey
    | none => locksByDateKey
  let limit := match req.pagination with
    | some p => if p.limit ≠ 0 then p.limit else 100
    | none => 100
  activeLocksLoop k accString validDenom ctx w limit [] 0
    (st.iterator startKey (prefixEndBytes locksByDateKey))

/-- A request for a page; a client puts the `NextKey` of an answer in its next one. -/
def activeLocksPage (ctx : Ctx) (st : LockStore) (w : W) (limit : ℕ) (key : Option Bytes) :
    Out (List ActiveLockResource × Option Bytes) := do
  let res ← activeLocks k accString validDenom ctx st w (some ⟨some ⟨key.getD [], limit⟩⟩)
  .ok (res.locks, res.nextKey)

end Query

/-! ### What a key says -/

theorem keyUnlockDate_eq {d : Bytes} {u : Time} (hd : parseDateOnly d = some u) (a : AccAddress) :
    keyUnlockDate (getLockExpirationKey u a) = d := by
  unfold keyUnlockDate
  rw [getLockExpirationKey_time, (WholeSeconds.of_parse hd).readBack, formatDateOnly_of_parse hd]

theorem keyAddress_eq (u : Time) (a : AccAddress) : keyAddress (getLockExpirationKey u a) = a :=
  getLockExpirationKey_addr u a

/-- Among dates from 1970 on, keys are ordered by date, then by account. -/
theorem getLockExpirationKey_lt {d d' : Bytes} {u u' : Time} {a a' : AccAddress}
    (hd : parseDateOnly d = some u) (hd' : parseDateOnly d' = some u') (hu : 0 ≤ u.dayNumber)
    (hu' : 0 ≤ u'.dayNumber) (h : getLockExpirationKey u a < getLockExpirationKey u' a') :
    u.dayNumber < u'.dayNumber ∨ d = d' ∧ a < a' := by
  have ht := unix_of_parse hd
  have ht' := unix_of_parse hd'
  rcases ((FromEpoch.of_parse hd hu).key_lt_key_iff a a' (.of_parse hd' hu')).mp h with
    h | ⟨hbytes, ha⟩
  · exact Or.inl (by omega)
  · have hkey : getLockExpirationKey u [] = getLockExpirationKey u' [] := by
      unfold getLockExpirationKey
      rw [hbytes]
    exact Or.inr ⟨(getLockExpirationKey_injective hd hd' hkey).1, ha⟩

/-! ### What the query walks over -/

def Queued (L : Ledger) (e : Bytes × Value) : Prop :=
  ∃ a d u, parseDateOnly d = some u ∧ 0 < amountOn d (L a).locks ∧
    e = (getLockExpirationKey u a, .amount (amountOn d (L a).locks))

theorem prefixEndBytes_locksByDateKey :
    prefixEndBytes locksByDateKey = some (ascii "locks_by_datf") := by decide

theorem getLockExpirationKey_lt_end (u : Time) (a : AccAddress) :
    getLockExpirationKey u a < ascii "locks_by_datf" := by
  have hsplit : getLockExpirationKey u a =
      ascii "locks_by_dat" ++ (101 :: (timeBytes u.unix ++ a)) := by
    unfold getLockExpirationKey
    rw [List.append_assoc]
    rfl
  have hend : ascii "locks_by_datf" = ascii "locks_by_dat" ++ [102] := rfl
  rw [hsplit, hend, append_left_lt_iff]
  exact List.Lex.rel (by decide)

theorem Encodes.mem_queue {st : LockStore} {L : Ledger} (h : Encodes st L) {start : Bytes}
    (hstart : locksByDateKey ≤ start) (e : Bytes × Value) :
    e ∈ st.iterator start (prefixEndBytes locksByDateKey) ↔ Queued L e ∧ start ≤ e.1 := by
  obtain ⟨key, v⟩ := e
  rw [Store.mem_iterator, prefixEndBytes_locksByDateKey]
  constructor
  · intro hmem
    obtain ⟨hget, hle, _⟩ := hmem
    refine ⟨?_, hle⟩
    rcases h.onlyKeys key v hget with ⟨a, hkey⟩ | ⟨d, u, a, hd, hkey⟩
    · -- a key of the address index sorts before the queue
      rw [hkey] at hle
      exact absurd (addressKey_lt_locksByDateKey a) (not_lt.mpr (hstart.trans hle))
    · have hnn := amountOn_nonneg (L a).wellFormed d
      rw [hkey, h.byDate d u a hd] at hget
      unfold Ledger.amounts at hget
      split_ifs at hget with h0
      cases hget
      exact ⟨a, d, u, hd, by omega, by rw [hkey]⟩
  · intro hqueued
    obtain ⟨⟨a, d, u, hd, hpos, he⟩, hle⟩ := hqueued
    cases he
    have hget := h.byDate d u a hd
    unfold Ledger.amounts at hget
    rw [if_neg (by omega)] at hget
    refine ⟨hget, hle, ?_⟩
    intro t ht
    cases ht
    exact getLockExpirationKey_lt_end u a

/-! ### One page -/

def entryLock (e : Bytes × Value) : AccAddress × Lock :=
  (keyAddress e.1, ⟨keyUnlockDate e.1, e.2.queued⟩)

def Queued.Active (ctx : Ctx) (e : Bytes × Value) : Prop :=
  isLocked ctx.blockDay (entryLock e).2.unlockDate

instance (ctx : Ctx) (e : Bytes × Value) : Decidable (Queued.Active ctx e) := by
  unfold Queued.Active; infer_instance

def resource (accString : AccAddress → Bytes) (denom : Bytes) (p : AccAddress × Lock) :
    ActiveLockResource := ⟨accString p.1, p.2.unlockDate, ⟨denom, p.2.amount⟩⟩

def shown (accString : AccAddress → Bytes) (denom : Bytes) (ctx : Ctx) (e : Bytes × Value) :
    Option ActiveLockResource :=
  if Queued.Active ctx e then some (resource accString denom (entryLock e)) else none

section Page

variable {k : Keepers W} {accString : AccAddress → Bytes} {validDenom : Bytes → Bool} {ctx : Ctx}
  {w : W} {denom : Bytes} {L : Ledger}

theorem entryLock_eq {d : Bytes} {u : Time} (hd : parseDateOnly d = some u) (a : AccAddress)
    (x : ℤ) : entryLock (getLockExpirationKey u a, .amount x) = (a, ⟨d, x⟩) := by
  unfold entryLock
  dsimp only [Value.queued]
  rw [keyAddress_eq, keyUnlockDate_eq hd]

theorem activeLock_eq (hdenom : k.bondDenom w = .ok denom) (hvalid : validDenom denom = true)
    {e : Bytes × Value} (he : Queued L e) :
    activeLock k accString validDenom ctx w e = .ok (shown accString denom ctx e) := by
  obtain ⟨a, d, u, hd, hpos, rfl⟩ := he
  have hcoin := newCoin_ok hvalid hpos.le
  have hdate := keyUnlockDate_eq hd a
  have hlen := getLockExpirationKey_length u a
  simp only [activeLock, if_neg hlen, shown, Queued.Active, entryLock_eq hd, hdate, keyAddress_eq]
  by_cases hlocked : isLocked ctx.blockDay d
  · simp only [if_neg (not_not.mpr hlocked), if_pos hlocked, Value.unmarshalInt, orFail, hdenom,
      wrapErr, hcoin, ok_bind, resource]
  · simp only [if_pos hlocked, if_neg hlocked]

theorem activeLocksLoop_eq (limit : ℕ) {f : Bytes × Value → Option ActiveLockResource}
    {l : List (Bytes × Value)} (hf : ∀ e ∈ l, activeLock k accString validDenom ctx w e = .ok (f e))
    (locks : List ActiveLockResource) (count : ℕ) :
    ∃ l₁ l₂, l = l₁ ++ l₂ ∧
      activeLocksLoop k accString validDenom ctx w limit locks count l =
        .ok ⟨locks ++ l₁.filterMap f, l₂.head?.map Prod.fst⟩ ∧
      (l₂ ≠ [] → limit ≤ count + (l₁.filterMap f).length) := by
  induction l generalizing locks count with
  | nil => exact ⟨[], [], rfl, by simp [activeLocksLoop], fun h => absurd rfl h⟩
  | cons e rest ih =>
    by_cases hlimit : limit ≤ count
    · refine ⟨[], e :: rest, rfl, ?_, fun _ => by simpa using hlimit⟩
      simp [activeLocksLoop, hlimit]
    · have he := hf e (List.mem_cons_self ..)
      have hrest : ∀ x ∈ rest, activeLock k accString validDenom ctx w x = .ok (f x) :=
        fun x hx => hf x (List.mem_cons_of_mem _ hx)
      cases hfe : f e with
      | none =>
        obtain ⟨l₁, l₂, hsplit, hloop, hstop⟩ := ih hrest locks count
        refine ⟨e :: l₁, l₂, by rw [hsplit, List.cons_append], ?_, ?_⟩
        · rw [activeLocksLoop, if_neg hlimit, he, hfe, ok_bind, List.filterMap_cons_none hfe]
          exact hloop
        · rw [List.filterMap_cons_none hfe]
          exact hstop
      | some lock =>
        obtain ⟨l₁, l₂, hsplit, hloop, hstop⟩ := ih hrest (locks ++ [lock]) (count + 1)
        refine ⟨e :: l₁, l₂, by rw [hsplit, List.cons_append], ?_, ?_⟩
        · rw [activeLocksLoop, if_neg hlimit, he, hfe, ok_bind, List.filterMap_cons_some hfe]
          simpa using hloop
        · intro hne
          have hcount := hstop hne
          rw [List.filterMap_cons_some hfe, List.length_cons]
          omega

theorem activeLocksPage_eq {st : LockStore} (h : Encodes st L)
    (hdenom : k.bondDenom w = .ok denom) (hvalid : validDenom denom = true) {limit : ℕ}
    (hlimit : 1 ≤ limit) (key : Option Bytes) (hkey : locksByDateKey ≤ key.getD locksByDateKey) :
    ∃ l₁ l₂, st.iterator (key.getD locksByDateKey) (prefixEndBytes locksByDateKey) = l₁ ++ l₂ ∧
      activeLocksPage k accString validDenom ctx st w limit key =
        .ok (l₁.filterMap (shown accString denom ctx), l₂.head?.map Prod.fst) ∧
      (l₂ ≠ [] → l₁ ≠ []) := by
  have hvisit : ∀ e ∈ st.iterator (key.getD locksByDateKey) (prefixEndBytes locksByDateKey),
      activeLock k accString validDenom ctx w e = .ok (shown accString denom ctx e) := by
    intro e he
    exact activeLock_eq hdenom hvalid ((h.mem_queue hkey e).mp he).1
  -- a key at or after `locks_by_date` is not empty, so the query starts at it
  have hstart : (if key.getD [] ≠ [] then key.getD [] else locksByDateKey) =
      key.getD locksByDateKey := by
    cases key with
    | none => rfl
    | some x =>
      have hne : x ≠ [] := by
        intro hx
        rw [hx] at hkey
        exact absurd hkey (by decide)
      rw [Option.getD_some, Option.getD_some, if_pos hne]
  obtain ⟨l₁, l₂, hsplit, hloop, hstop⟩ := activeLocksLoop_eq limit hvisit [] 0
  refine ⟨l₁, l₂, hsplit, ?_, ?_⟩
  · simp only [activeLocksPage, activeLocks, ofOption, ok_bind, hstart, ne_eq,
      show limit ≠ 0 by omega, not_false_eq_true, if_true, hloop, List.nil_append]
  · intro hne hnil
    have hcount := hstop hne
    rw [hnil] at hcount
    simp at hcount
    omega

end Page

/-! ### All pages -/

theorem filterMap_shown (accString : AccAddress → Bytes) (denom : Bytes) (ctx : Ctx)
    (l : List (Bytes × Value)) :
    l.filterMap (shown accString denom ctx) =
      ((l.filter fun e => Queued.Active ctx e).map entryLock).map (resource accString denom) := by
  rw [List.map_map, ← List.filterMap_eq_map, List.filterMap_filter]
  apply List.filterMap_congr
  intro e _
  simp only [shown, decide_eq_true_eq, Function.comp_apply]

/-- The active locks in the order of the queue. -/
def activeList (ctx : Ctx) (st : LockStore) : List (AccAddress × Lock) :=
  ((st.iterator locksByDateKey (prefixEndBytes locksByDateKey)).filter
    fun e => Queued.Active ctx e).map entryLock

section List

variable {st : LockStore} {L : Ledger} (h : Encodes st L) (ctx : Ctx)
include h

theorem Encodes.active_entry {e : Bytes × Value}
    (he : e ∈ (st.iterator locksByDateKey (prefixEndBytes locksByDateKey)).filter
      fun e => Queued.Active ctx e) :
    ∃ a d u, parseDateOnly d = some u ∧ ctx.blockTime.day < u.dayNumber ∧
      0 < amountOn d (L a).locks ∧
      e = (getLockExpirationKey u a, .amount (amountOn d (L a).locks)) := by
  obtain ⟨hmem, hactive⟩ := List.mem_filter.mp he
  obtain ⟨a, d, u, hd, hpos, rfl⟩ := ((h.mem_queue (le_refl _) e).mp hmem).1
  have hlocked : isLocked ctx.blockDay d := by
    simpa [Queued.Active, entryLock_eq hd] using hactive
  rw [isLocked_iff ctx hd, dayOf_eq hd] at hlocked
  exact ⟨a, d, u, hd, hlocked, hpos, rfl⟩

theorem Encodes.activeList_ordered (hday : 0 ≤ ctx.blockTime.day) :
    (activeList ctx st).Pairwise fun p q => dayOf p.2.unlockDate < dayOf q.2.unlockDate ∨
      p.2.unlockDate = q.2.unlockDate ∧ p.1 < q.1 := by
  unfold activeList
  rw [List.pairwise_map]
  apply List.Pairwise.imp_of_mem _ ((st.iterator_ascending _ _).filter Prod.fst _)
  intro e f he hf hlt
  obtain ⟨a, d, u, hd, hu, _, rfl⟩ := h.active_entry ctx he
  obtain ⟨b, d', u', hd', hu', _, rfl⟩ := h.active_entry ctx hf
  rw [entryLock_eq hd, entryLock_eq hd', dayOf_eq hd, dayOf_eq hd']
  exact getLockExpirationKey_lt hd hd' (by omega) (by omega) hlt

theorem Encodes.mem_activeList (a : AccAddress) (e : Lock) :
    (a, e) ∈ activeList ctx st ↔ e ∈ (L a).locks ∧ isLocked ctx.blockDay e.unlockDate := by
  have hwf := (L a).wellFormed
  unfold activeList
  rw [List.mem_map]
  constructor
  · intro hmem
    obtain ⟨x, hx, hxe⟩ := hmem
    obtain ⟨b, d, u, hd, hu, hpos, rfl⟩ := h.active_entry ctx hx
    rw [entryLock_eq hd] at hxe
    cases hxe
    refine ⟨(hwf.mem_iff _).mpr ⟨hpos, rfl⟩, ?_⟩
    rw [isLocked_iff ctx hd, dayOf_eq hd]
    exact hu
  · intro hmem
    obtain ⟨he, hlocked⟩ := hmem
    obtain ⟨u, hd⟩ := hwf.parses e he
    obtain ⟨hpos, hamount⟩ := (hwf.mem_iff e).mp he
    have hlock := entryLock_eq hd a e.amount
    refine ⟨(getLockExpirationKey u a, .amount e.amount), List.mem_filter.mpr ⟨?_, ?_⟩, hlock⟩
    · rw [h.mem_queue (le_refl _)]
      exact ⟨⟨a, e.unlockDate, u, hd, by rw [hamount]; exact hpos, by rw [hamount]⟩,
        locksByDateKey_le_key u a⟩
    · simpa [Queued.Active, hlock] using hlocked

end List

/-- At every block time from 1970 on and for every limit, the pages of a reachable
state come to an end and list the active locks, by date and then by account. -/
theorem active_locks_paging (k : Keepers W) (accString : AccAddress → Bytes)
    (validDenom : Bytes → Bool) {t₀ t : BlockTime} {st : LockStore} (h : Reachable k t₀ t st)
    (ctx : Ctx) (h1970 : 0 ≤ ctx.blockTime.time.nanos) (w : W) {denom : Bytes}
    (hdenom : k.bondDenom w = .ok denom) (hvalid : validDenom denom = true) {limit : ℕ}
    (hlimit : 1 ≤ limit) :
    ∃ listed : List (AccAddress × Lock),
      Pages (activeLocksPage k accString validDenom ctx st w limit) none
        (listed.map (resource accString denom)) ∧
      (listed.Pairwise fun p q => dayOf p.2.unlockDate < dayOf q.2.unlockDate ∨
        p.2.unlockDate = q.2.unlockDate ∧ p.1 < q.1) ∧
      ∀ a e, (a, e) ∈ listed ↔
        ∃ l, getLocksByAddress st a = .ok l ∧ e ∈ l ∧ isLocked ctx.blockDay e.unlockDate := by
  obtain ⟨L, hL, _⟩ := h.encodes
  have hday : 0 ≤ ctx.blockTime.day := Int.ediv_nonneg h1970 (by decide)
  have hpages := st.pages_eq_scan locksByDateKey (prefixEndBytes locksByDateKey)
    (shown accString denom ctx) (activeLocksPage_eq hL hdenom hvalid hlimit) none (le_refl _)
  rw [Option.getD_none, filterMap_shown] at hpages
  refine ⟨activeList ctx st, hpages, hL.activeList_ordered ctx hday, ?_⟩
  intro a e
  rw [hL.mem_activeList ctx, hL.getLocksByAddress a]
  constructor
  · intro hmem
    exact ⟨(L a).locks, rfl, hmem⟩
  · intro hmem
    obtain ⟨l, hl, hmem⟩ := hmem
    rw [Except.ok.inj hl]
    exact hmem

/-- One lock a page, after an extension has left two dates. -/
theorem active_locks_paging_by_one :
    ∃ st, Reachable (readers chain) newYear.blockTime newYear.blockTime st ∧
      ∃ listed : List (AccAddress × Lock),
        Pages (activeLocksPage (readers chain) accText validateDenom newYear st twoValidators 1)
          none (listed.map (resource accText (ascii "tsc"))) ∧
        ∀ a e, (a, e) ∈ listed ↔ ∃ l, getLocksByAddress st a = .ok l ∧ e ∈ l ∧
          isLocked newYear.blockDay e.unlockDate := by
  obtain ⟨st, s', hst, hextend⟩ := lockThenExtend_reachable
  have hadm : (Message.extend extendToJuly).Admissible := extendToJuly_positive
  have hst' := Run.message hst (le_refl _) hadm hextend
  obtain ⟨listed, hpages, _, hmem⟩ := active_locks_paging (readers chain) accText validateDenom
    hst' newYear (by decide) twoValidators rfl (by decide) (le_refl 1)
  exact ⟨s'.1, hst', listed, hpages, hmem⟩

end Tsc.Lockup
