import Tsc.Kv.Paging
import Tsc.Lockup.Distribution
import Tsc.Lockup.SendRestriction

/-!
# The locks of an account and of several (`x/lockup/keeper/query_server.go:150-314`)

`Locks` and `AccountLocks` page through a list by offset and limit. Both numbers come
from the client as 64-bit words; only the end of the page is compared with the
length of the list before the list is sliced. A start past the end of the list, or a
sum of the two that wraps around, is a slice out of bounds.
-/

namespace Tsc.Lockup

open Go Sdk Kv Staking

variable {W : Type}

/-- `query.PageRequest`, as far as these two queries read it. -/
structure OffsetPageRequest where
  offset : UInt64
  limit : UInt64

structure PageResponse where
  nextKey : Option Bytes
  total : ℕ
  deriving DecidableEq

structure LockResource where
  unlockDate : Bytes
  amount : Coin
  deriving DecidableEq

structure AccountLocksResource where
  address : Bytes
  locks : List LockResource
  deriving DecidableEq

structure QueryLocksRequest where
  address : Bytes
  pagination : Option OffsetPageRequest

structure QueryLocksResponse where
  locks : List LockResource
  pagination : PageResponse
  deriving DecidableEq

structure QueryAccountLocksRequest where
  addresses : Bytes
  pagination : Option OffsetPageRequest

structure QueryAccountLocksResponse where
  accounts : List AccountLocksResource
  pagination : PageResponse
  deriving DecidableEq

/-! ### Paging -/

section Paging

variable {α : Type} (pagination : Option OffsetPageRequest)

def pageLimit : UInt64 :=
  match pagination with
  | some p => if p.limit ≠ 0 then p.limit else 100
  | none => 100

def pageOffset : UInt64 :=
  match pagination with
  | some p => if p.offset ≠ 0 then p.offset else 0
  | none => 0

/-- The lines under `Apply pagination` of both queries. The length of a slice is below
`2 ^ 63`, so `uint64(len(l))` is the length. -/
def offsetPage (l : List α) : Out (List α × PageResponse) := do
  let startIdx := pageOffset pagination
  let sum := pageOffset pagination + pageLimit pagination
  let endIdx := if l.length < sum.toNat then l.length else sum.toNat
  failIf (endIdx < startIdx.toNat) (.panic "slice bounds out of range")
  .ok ((l.take endIdx).drop startIdx.toNat,
    ⟨if endIdx < l.length then some [1] else none, l.length⟩)

/-- The elements from the offset on, up to the limit, and whether any are left. -/
def exactPage (l : List α) : List α × PageResponse :=
  let offset := (pageOffset pagination).toNat
  let limit := (pageLimit pagination).toNat
  ((l.drop offset).take limit, ⟨if offset + limit < l.length then some [1] else none, l.length⟩)

/-- The offset is not past the end and the end of the page is a 64-bit word. -/
def InPageRange (length : ℕ) : Prop :=
  (pageOffset pagination).toNat ≤ length ∧
    (pageOffset pagination).toNat + (pageLimit pagination).toNat < 2 ^ 64

variable {pagination}

theorem offsetPage_of_inRange {l : List α} (h : InPageRange pagination l.length) :
    offsetPage pagination l = .ok (exactPage pagination l) := by
  obtain ⟨hle, hlt⟩ := h
  have hsum : (pageOffset pagination + pageLimit pagination).toNat =
      (pageOffset pagination).toNat + (pageLimit pagination).toNat := by
    rw [UInt64.toNat_add, Nat.mod_eq_of_lt hlt]
  unfold offsetPage exactPage
  dsimp only
  rw [hsum]
  by_cases hend : l.length < (pageOffset pagination).toNat + (pageLimit pagination).toNat
  · rw [if_pos hend, failIf_of_not _ (not_lt.mpr hle), ok_bind, List.take_length,
      if_neg (lt_irrefl _), if_neg (by omega), List.take_of_length_le]
    rw [List.length_drop]
    omega
  · rw [if_neg hend, failIf_of_not _ (by omega), ok_bind, List.drop_take, Nat.add_sub_cancel_left]

/-- Whether the sum wraps or the offset is past the end, the page ends before it
starts. -/
theorem offsetPage_of_not_inRange {l : List α} (h : ¬ InPageRange pagination l.length) :
    offsetPage pagination l = .error (.panic "slice bounds out of range") := by
  have hlimit := (pageLimit pagination).toNat_lt
  have hoffset := (pageOffset pagination).toNat_lt
  have hbad : (if l.length < (pageOffset pagination + pageLimit pagination).toNat then l.length
      else (pageOffset pagination + pageLimit pagination).toNat) < (pageOffset pagination).toNat := by
    unfold InPageRange at h
    rw [UInt64.toNat_add]
    split_ifs <;> omega
  unfold offsetPage
  dsimp only
  rw [failIf, if_pos hbad]
  rfl

theorem offsetPage_iff (l : List α) :
    offsetPage pagination l = .ok (exactPage pagination l) ↔ InPageRange pagination l.length := by
  constructor
  · intro hok
    by_contra hnot
    rw [offsetPage_of_not_inRange hnot] at hok
    cases hok
  · exact offsetPage_of_inRange

/-- The request for page `i` of pages of one limit. -/
def nthPage (limit : UInt64) (i : ℕ) : Option OffsetPageRequest :=
  some ⟨UInt64.ofNat (i * (pageLimit (some ⟨0, limit⟩)).toNat), limit⟩

/-- The number of the page the end of a list of that length is on. -/
def lastPage (limit : UInt64) (length : ℕ) : ℕ := length / (pageLimit (some ⟨0, limit⟩)).toNat

theorem pageLimit_pos (pagination : Option OffsetPageRequest) :
    0 < (pageLimit pagination).toNat := by
  unfold pageLimit
  split
  next p =>
    split_ifs with h
    · exact Nat.pos_of_ne_zero fun h0 => h (UInt64.toNat_inj.mp h0)
    · decide
  next => decide

theorem nthPage_offset {limit : UInt64} {i : ℕ} {l : List α} (hlen : l.length < 2 ^ 63)
    (hi : i ≤ lastPage limit l.length) :
    (pageOffset (nthPage limit i)).toNat = i * (pageLimit (some ⟨0, limit⟩)).toNat ∧
      i * (pageLimit (some ⟨0, limit⟩)).toNat ≤ l.length := by
  have hle : i * (pageLimit (some ⟨0, limit⟩)).toNat ≤ l.length :=
    (Nat.mul_le_mul_right _ hi).trans (Nat.div_mul_le_self _ _)
  refine ⟨?_, hle⟩
  have hword : (UInt64.ofNat (i * (pageLimit (some ⟨0, limit⟩)).toNat)).toNat =
      i * (pageLimit (some ⟨0, limit⟩)).toNat := by
    rw [UInt64.toNat_ofNat']
    exact Nat.mod_eq_of_lt (by omega)
  unfold nthPage pageOffset
  dsimp only
  split_ifs with h
  · exact hword
  · rw [not_not] at h
    rw [← hword, h]

/-- A list is shorter than `2 ^ 63`, so a page after the first has a limit shorter than
that too, and no sum wraps. -/
theorem nthPage_inRange {limit : UInt64} {i : ℕ} {l : List α} (hlen : l.length < 2 ^ 63)
    (hi : i ≤ lastPage limit l.length) : InPageRange (nthPage limit i) l.length := by
  obtain ⟨hoffset, hle⟩ := nthPage_offset hlen hi
  have hlimit := (pageLimit (some ⟨0, limit⟩)).toNat_lt
  have hsame : pageLimit (nthPage limit i) = pageLimit (some ⟨0, limit⟩) := rfl
  refine ⟨by omega, ?_⟩
  rw [hoffset, hsame]
  cases i with
  | zero => omega
  | succ i =>
    have hfirst : (pageLimit (some ⟨0, limit⟩)).toNat ≤
        (i + 1) * (pageLimit (some ⟨0, limit⟩)).toNat := Nat.le_mul_of_pos_left _ i.succ_pos
    omega

/-- The pages of a list, one after the other, are the list. -/
theorem flatMap_nthPage {limit : UInt64} {l : List α} (hlen : l.length < 2 ^ 63) :
    (List.range (lastPage limit l.length + 1)).flatMap
      (fun i => (exactPage (nthPage limit i) l).1) = l := by
  have hpages : ∀ i ∈ List.range (lastPage limit l.length + 1),
      (exactPage (nthPage limit i) l).1 =
        (l.drop (i * (pageLimit (some ⟨0, limit⟩)).toNat)).take
          (pageLimit (some ⟨0, limit⟩)).toNat := by
    intro i hi
    have hoffset := (nthPage_offset hlen (Nat.lt_succ_iff.mp (List.mem_range.mp hi))).1
    unfold exactPage
    dsimp only
    rw [hoffset]
    rfl
  have hall : l.length ≤ (lastPage limit l.length + 1) * (pageLimit (some ⟨0, limit⟩)).toNat := by
    have hpos := pageLimit_pos (some ⟨0, limit⟩)
    have hlt := Nat.lt_div_mul_add hpos (a := l.length)
    unfold lastPage
    rw [Nat.succ_mul]
    omega
  rw [List.flatMap_congr hpages, flatMap_pages, List.take_of_length_le hall]

theorem exactPage_map {β : Type} (f : α → β) (pagination : Option OffsetPageRequest) (l : List α) :
    exactPage pagination (l.map f) =
      ((exactPage pagination l).1.map f, (exactPage pagination l).2) := by
  simp only [exactPage, List.map_take, List.map_drop, List.length_map]

/-- What a query that pages through `l` should do, on the requests it can serve: answer
with the page that is asked for and say whether elements are left, exactly for offsets
that are in range, and over all pages give the whole list. -/
structure OffsetPaged (served : Option OffsetPageRequest → Prop)
    (query : Option OffsetPageRequest → Out (List α × PageResponse)) (l : List α) : Prop where
  exact_iff : ∀ p, served p → (query p = .ok (exactPage p l) ↔ InPageRange p l.length)
  whole : l.length < 2 ^ 63 → (∀ p, served p) → ∀ limit, ∃ answers : ℕ → List α × PageResponse,
    (∀ i ≤ lastPage limit l.length, query (nthPage limit i) = .ok (answers i)) ∧
      (List.range (lastPage limit l.length + 1)).flatMap (fun i => (answers i).1) = l

theorem OffsetPaged.of_iff {served : Option OffsetPageRequest → Prop}
    {query : Option OffsetPageRequest → Out (List α × PageResponse)} {l : List α}
    (h : ∀ p, served p → (query p = .ok (exactPage p l) ↔ InPageRange p l.length)) :
    OffsetPaged served query l := by
  refine ⟨h, ?_⟩
  intro hlen hserved limit
  refine ⟨fun i => exactPage (nthPage limit i) l, ?_, flatMap_nthPage hlen⟩
  intro i hi
  exact (h _ (hserved _)).mpr (nthPage_inRange hlen hi)

end Paging

/-! ### The queries -/

section Queries

variable (k : Keepers W) (validDenom : Bytes → Bool)

/-- The active locks of a list, as both queries collect them. -/
def lockResources (ctx : Ctx) (bondDenom : Bytes) (locks : List Lock) : Out (List LockResource) :=
  forRange (fun resources lock =>
    if isLocked ctx.blockDay lock.unlockDate then do
      let amount ← newCoin validDenom bondDenom lock.amount
      .ok (resources ++ [⟨lock.unlockDate, amount⟩])
    else .ok resources) [] locks

/-- `Keeper.Locks`. -/
def locksQuery (ctx : Ctx) (st : LockStore) (w : W) (req : Option QueryLocksRequest) :
    Out QueryLocksResponse := do
  let req ← ofOption (fail .statusInvalidArgument "invalid request" []) req
  failIf (req.address = []) (fail .statusInvalidArgument "address is required" [])
  let addr ← orFail (fail .statusInvalidArgument "invalid address: %s" [.str req.address])
    (k.accAddressFromBech32 req.address)
  let locks ← wrapErr .statusInternal "%s" (getLocksByAddress st addr)
  let bondDenom ← wrapErr .statusInternal "%s" (k.bondDenom w)
  let activeLockResources ← lockResources validDenom ctx bondDenom locks
  let (paginatedLocks, pagination) ← offsetPage req.pagination activeLockResources
  .ok ⟨paginatedLocks, pagination⟩

def addressList (addresses : Bytes) : List Bytes := (addresses.splitOn 44).map trimSpace

def accountLocksOf (ctx : Ctx) (st : LockStore) (bondDenom : Bytes) (addrStr : Bytes) :
    Out AccountLocksResource := do
  let addr ← orFail (fail .statusInvalidArgument "invalid address: %s" [.str addrStr])
    (k.accAddressFromBech32 addrStr)
  let locks ← wrapErr .statusInternal "%s" (getLocksByAddress st addr)
  let activeLockResources ← lockResources validDenom ctx bondDenom locks
  .ok ⟨addrStr, activeLockResources⟩

/-- `Keeper.AccountLocks`; 44 is the comma. -/
def accountLocksQuery (ctx : Ctx) (st : LockStore) (w : W) (req : Option QueryAccountLocksRequest) :
    Out QueryAccountLocksResponse := do
  let req ← ofOption (fail .statusInvalidArgument "invalid request" []) req
  failIf (req.addresses = [])
    (fail .statusInvalidArgument "addresses parameter is required" [])
  failIf ((addressList req.addresses).length = 0)
    (fail .statusInvalidArgument "at least one address is required" [])
  let bondDenom ← wrapErr .statusInternal "%s" (k.bondDenom w)
  let (paginatedAddresses, pagination) ← offsetPage req.pagination (addressList req.addresses)
  let accountLocks ← forRange (fun accountLocks addrStr => do
    let account ← accountLocksOf k validDenom ctx st bondDenom addrStr
    .ok (accountLocks ++ [account])) [] paginatedAddresses
  .ok ⟨accountLocks, pagination⟩

/-! ### What they answer -/

def activeResources (ctx : Ctx) (bondDenom : Bytes) (locks : List Lock) : List LockResource :=
  (locks.filter fun e => isLocked ctx.blockDay e.unlockDate).map fun e =>
    ⟨e.unlockDate, ⟨bondDenom, e.amount⟩⟩

variable {k validDenom} {ctx : Ctx} {st : LockStore} {w : W} {bondDenom : Bytes}

theorem lockResources_eq (hdenom : validDenom bondDenom = true) {locks : List Lock}
    (hnn : ∀ e ∈ locks, 0 ≤ e.amount) :
    lockResources validDenom ctx bondDenom locks = .ok (activeResources ctx bondDenom locks) := by
  have hloop : ∀ acc, forRange (fun resources lock =>
      if isLocked ctx.blockDay lock.unlockDate then do
        let amount ← newCoin validDenom bondDenom lock.amount
        .ok (resources ++ [⟨lock.unlockDate, amount⟩])
      else .ok resources) acc locks = .ok (acc ++ activeResources ctx bondDenom locks) := by
    induction locks with
    | nil => simp [forRange, activeResources]
    | cons e locks ih =>
      obtain ⟨he, htail⟩ := List.forall_mem_cons.mp hnn
      intro acc
      rw [forRange_cons]
      by_cases hlocked : isLocked ctx.blockDay e.unlockDate
      · rw [if_pos hlocked, newCoin_ok hdenom he, ok_bind, ok_bind, ih htail]
        simp [activeResources, hlocked]
      · rw [if_neg hlocked, ok_bind, ih htail]
        simp [activeResources, hlocked]
  exact hloop []

/-- The locks and the page response of an answer to `Locks`. -/
def locksPage (k : Keepers W) (validDenom : Bytes → Bool) (ctx : Ctx) (st : LockStore) (w : W)
    (address : Bytes) (pagination : Option OffsetPageRequest) :
    Out (List LockResource × PageResponse) := do
  let res ← locksQuery k validDenom ctx st w (some ⟨address, pagination⟩)
  .ok (res.locks, res.pagination)

theorem locksPage_eq (hst : Unsigned st) (hbond : k.bondDenom w = .ok bondDenom)
    (hdenom : validDenom bondDenom = true) {address : Bytes} {addr : AccAddress} {l : List Lock}
    (hne : address ≠ []) (haddr : k.accAddressFromBech32 address = .ok addr)
    (hl : getLocksByAddress st addr = .ok l) (pagination : Option OffsetPageRequest) :
    locksPage k validDenom ctx st w address pagination =
      offsetPage pagination (activeResources ctx bondDenom l) := by
  simp only [locksPage, locksQuery, ofOption, ok_bind, failIf_of_not _ hne, haddr, orFail, hl,
    wrapErr, hbond, lockResources_eq hdenom (hst.locks hl), bind_assoc, Prod.mk.eta]
  cases offsetPage pagination (activeResources ctx bondDenom l) with
  | ok r => rfl
  | error e => rfl

/-- The entry of an address whose locks can be read. -/
def accountEntry (k : Keepers W) (ctx : Ctx) (st : LockStore) (bondDenom addrStr : Bytes) :
    AccountLocksResource :=
  ⟨addrStr, match k.accAddressFromBech32 addrStr with
    | .ok addr => activeResources ctx bondDenom (locksOf st addr)
    | .error _ => []⟩

def Readable (k : Keepers W) (st : LockStore) (addrStr : Bytes) : Prop :=
  ∃ addr l, k.accAddressFromBech32 addrStr = .ok addr ∧ getLocksByAddress st addr = .ok l

theorem accountLocksOf_eq (hst : Unsigned st) (hdenom : validDenom bondDenom = true)
    {addrStr : Bytes} (h : Readable k st addrStr) :
    accountLocksOf k validDenom ctx st bondDenom addrStr =
      .ok (accountEntry k ctx st bondDenom addrStr) := by
  obtain ⟨addr, l, haddr, hl⟩ := h
  simp only [accountLocksOf, accountEntry, haddr, orFail, ok_bind, hl, wrapErr,
    lockResources_eq hdenom (hst.locks hl), locksOf_eq hl]

/-- The entries and the page response of an answer to `AccountLocks`. -/
def accountLocksPage (k : Keepers W) (validDenom : Bytes → Bool) (ctx : Ctx) (st : LockStore) (w : W)
    (addresses : Bytes) (pagination : Option OffsetPageRequest) :
    Out (List AccountLocksResource × PageResponse) := do
  let res ← accountLocksQuery k validDenom ctx st w (some ⟨addresses, pagination⟩)
  .ok (res.accounts, res.pagination)

/-- Only the addresses on the page are decoded. -/
def PageReadable (k : Keepers W) (st : LockStore) (addresses : Bytes)
    (pagination : Option OffsetPageRequest) : Prop :=
  ∀ addrStr ∈ (exactPage pagination (addressList addresses)).1, Readable k st addrStr

theorem accountLocksPage_iff (hst : Unsigned st) (hbond : k.bondDenom w = .ok bondDenom)
    (hdenom : validDenom bondDenom = true) {addresses : Bytes} {pagination : Option OffsetPageRequest}
    (hne : addresses ≠ []) (hread : PageReadable k st addresses pagination) :
    accountLocksPage k validDenom ctx st w addresses pagination =
      .ok (exactPage pagination ((addressList addresses).map (accountEntry k ctx st bondDenom))) ↔
      InPageRange pagination (addressList addresses).length := by
  have hlen : ¬ (addressList addresses).length = 0 := by
    rw [addressList, List.length_map, List.length_eq_zero_iff]
    exact List.splitOn_ne_nil 44 addresses
  simp only [accountLocksPage, accountLocksQuery, ofOption, ok_bind, failIf_of_not _ hne,
    failIf_of_not _ hlen, hbond, wrapErr, exactPage_map]
  by_cases hr : InPageRange pagination (addressList addresses).length
  · rw [offsetPage_of_inRange hr, ok_bind,
      forRange_append (fun addrStr h => accountLocksOf_eq hst hdenom (hread addrStr h)),
      List.nil_append, ok_bind]
    exact ⟨fun _ => hr, fun _ => rfl⟩
  · rw [offsetPage_of_not_inRange hr, error_bind]
    constructor
    · intro h
      cases h
    · intro h
      exact absurd h hr

end Queries

/-- `Locks` pages through the active locks of the address and `AccountLocks` through the
entries of the addresses it is asked for, exactly as far as offset and limit are in
range: an offset past the end, or a sum that wraps, is a panic. -/
theorem offset_paging_iff (k : Keepers W) (validDenom : Bytes → Bool) {st : LockStore}
    (hst : Unsigned st) (ctx : Ctx) (w : W) (bondDenom : Bytes)
    (hbond : k.bondDenom w = .ok bondDenom) (hdenom : validDenom bondDenom = true) :
    (∀ address addr l, address ≠ [] → k.accAddressFromBech32 address = .ok addr →
      getLocksByAddress st addr = .ok l →
      OffsetPaged (fun _ => True) (locksPage k validDenom ctx st w address)
        (activeResources ctx bondDenom l)) ∧
    ∀ addresses, addresses ≠ [] →
      OffsetPaged (PageReadable k st addresses) (accountLocksPage k validDenom ctx st w addresses)
        ((addressList addresses).map (accountEntry k ctx st bondDenom)) := by
  constructor
  · intro address addr l hne haddr hl
    apply OffsetPaged.of_iff
    intro p _
    rw [locksPage_eq hst hbond hdenom hne haddr hl]
    exact offsetPage_iff _
  · intro addresses hne
    apply OffsetPaged.of_iff
    intro p hread
    rw [List.length_map]
    exact accountLocksPage_iff hst hbond hdenom hne hread

def dAndE : Bytes := accText (ascii "d") ++ ascii ", " ++ accText (ascii "e")

/-- Offset 1 of an account without locks, and a sum that wraps. -/
theorem paging_past_end_panics :
    locksQuery (readers chain) validateDenom newYear Store.empty twoValidators
      (some ⟨accText (ascii "d"), some ⟨1, 0⟩⟩) = .error (.panic "slice bounds out of range") ∧
    accountLocksQuery (readers chain) validateDenom newYear Store.empty twoValidators
      (some ⟨dAndE, some ⟨1, 18446744073709551615⟩⟩) =
        .error (.panic "slice bounds out of range") := by
  decide +kernel

theorem offset_paging_first_of_two :
    ∃ s, deliver (readers chain) newYear Store.empty twoValidators (.lock lockUntilJune) = .ok s ∧
      accountLocksPage (readers chain) validateDenom newYear s.1 twoValidators dAndE
        (some ⟨0, 1⟩) =
          .ok ([⟨accText (ascii "d"), [⟨ascii "2026-06-01", tsc 40⟩]⟩], ⟨some [1], 2⟩) := by
  have h : (deliver (readers chain) newYear Store.empty twoValidators (.lock lockUntilJune) >>=
      fun s => getLocksByAddress s.1 (ascii "d") >>= fun _ =>
        (.ok (exactPage (some ⟨0, 1⟩) ((addressList dAndE).map
          (accountEntry (readers chain) newYear s.1 (ascii "tsc")))) : Out _)) =
      .ok ([⟨accText (ascii "d"), [⟨ascii "2026-06-01", tsc 40⟩]⟩], ⟨some [1], 2⟩) := by decide +kernel
  obtain ⟨s, hs, h⟩ := (bind_eq_ok _ _ _).mp h
  obtain ⟨l, hl, h⟩ := (bind_eq_ok _ _ _).mp h
  obtain ⟨L, hL, _⟩ := (Reachable.of_lock hs).encodes
  have hpaged := (offset_paging_iff (readers chain) validateDenom hL.unsigned newYear
    twoValidators (ascii "tsc") rfl (by decide)).2 dAndE (by decide +kernel)
  have hread : PageReadable (readers chain) s.1 dAndE (some ⟨0, 1⟩) := by
    intro addrStr haddr
    have hfirst : (exactPage (some ⟨0, 1⟩) (addressList dAndE)).1 = [accText (ascii "d")] := by
      decide +kernel
    rw [hfirst, List.mem_singleton] at haddr
    exact ⟨ascii "d", l, by rw [haddr]; exact readText_accText (ascii "d"), hl⟩
  refine ⟨s, hs, ?_⟩
  rw [(hpaged.exact_iff _ hread).mpr ⟨Nat.zero_le _, by decide +kernel⟩]
  exact h

end Tsc.Lockup
