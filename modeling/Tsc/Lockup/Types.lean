import Tsc.Sdk.Math
import Tsc.Go.Time
import Tsc.Kv.Store
import Mathlib.Data.Rat.Floor

/-!
# Data of the lockup module (`x/lockup/types`)

Stored values, keys, messages, and the keepers the module calls. The module's
store is one byte-keyed store: lock lists under `locks_by_address ++ address`,
amounts under `locks_by_date ++ time ++ address`. A stored value is kept decoded,
as the lock list or the amount whose `Marshal` it is; decoding it as the other
kind is an error.

Bank, staking and account state is a type `W` of its own, reached only through
`Keepers`; nothing is assumed of it here.
-/

namespace Tsc.Lockup

open Go Sdk Kv

abbrev AccAddress := Bytes
abbrev ValAddress := Bytes

structure Lock where
  unlockDate : Bytes
  amount : ℤ
  deriving Repr, DecidableEq

/-- A value of the module's store. -/
inductive Value where
  | locks (l : List Lock)
  | amount (x : ℤ)
  deriving Repr, DecidableEq

abbrev LockStore := Store Bytes Value

def Value.unmarshalLocks : Value → Out (List Lock)
  | .locks l => .ok l
  | .amount _ => .error (fail .plain "proto: wrong wireType" [])

def Value.unmarshalInt : Value → Out ℤ
  | .amount x => .ok x
  | .locks _ => .error (fail .plain "math/big: cannot unmarshal into a *big.Int" [])

/-! ### Keys (`types/keys.go`) -/

def locksByDateKey : Bytes := ascii "locks_by_date"

def locksByAddressKey : Bytes := ascii "locks_by_address"

def totalLockedKey : Bytes := ascii "total_locked"

/-! ### Dates -/

def isLocked (currentDate : Time) (unlockDate : Bytes) : Prop :=
  match parseDateOnly unlockDate with
  | none => False
  | some unlockTime => currentDate.Before unlockTime

instance (t : Time) (d : Bytes) : Decidable (isLocked t d) :=
  match h : parseDateOnly d with
  | none => isFalse (by simp [isLocked, h])
  | some u => decidable_of_iff (t.Before u) (by simp [isLocked, h])

/-- The time of a block, a protobuf timestamp: from 0001-01-01 up to the end of
9999-12-31. -/
structure BlockTime where
  time : Time
  inRange : -62135596800000000000 ≤ time.nanos ∧ time.nanos < 253402300800000000000

/-- The part of `sdk.Context` the module reads: the block time, and the set of
redelegation marks put there by `WithRedelegating`. -/
structure Ctx where
  blockTime : BlockTime
  redelegating : List Bytes

/-- `time.Date(blockTime.Year(), blockTime.Month(), blockTime.Day(), 0, 0, 0, 0, time.UTC)`. -/
def Ctx.blockDay (ctx : Ctx) : Time :=
  let c := ctx.blockTime.time.civil
  Time.date c.year c.month c.day 0

def BlockTime.day (t : BlockTime) : ℤ := t.time.dayNumber

theorem BlockTime.day_range (t : BlockTime) : -719162 ≤ t.day ∧ t.day ≤ 2932896 := by
  have h := t.inRange
  unfold day Time.dayNumber nanosPerDay
  omega

theorem BlockTime.day_mono {t u : BlockTime} (h : t.time.nanos ≤ u.time.nanos) : t.day ≤ u.day :=
  Time.dayNumber_mono h

theorem civilOfDays_year_range (n : ℤ) (h : -719162 ≤ n ∧ n ≤ 2932896) :
    -1 ≤ (civilOfDays n).year ∧ (civilOfDays n).year ≤ 10000 := by
  obtain ⟨⟨h1, h2, h3, h4⟩, hd⟩ := civilOfDays_spec n
  have hl := monthLen_bounds (monthNumber (civilOfDays n).year (civilOfDays n).month)
  unfold daysOfCivil monthStart yearStart monthNumber at hd
  omega

theorem Ctx.blockDay_eq (ctx : Ctx) : ctx.blockDay = Time.ofDay ctx.blockTime.day := by
  obtain ⟨⟨h1, h2, h3, h4⟩, hd⟩ := civilOfDays_spec ctx.blockTime.day
  have hy := civilOfDays_year_range _ ctx.blockTime.day_range
  have hl := monthLen_bounds (monthNumber (civilOfDays ctx.blockTime.day).year
    (civilOfDays ctx.blockTime.day).month)
  unfold blockDay Time.civil
  dsimp only
  show Time.date (civilOfDays ctx.blockTime.day).year (civilOfDays ctx.blockTime.day).month
    (civilOfDays ctx.blockTime.day).day 0 = _
  rw [Time.date_eq _ _ _ _ (by omega) (by omega) (by omega) (by unfold nanosPerDay; omega), hd]
  simp [Time.ofDay]

/-- Day of `blockDay.AddDate(2, 0, 0)`. -/
def BlockTime.horizon (t : BlockTime) : ℤ := addYears t.day 2

theorem BlockTime.horizon_mono {t u : BlockTime} (h : t.time.nanos ≤ u.time.nanos) :
    t.horizon ≤ u.horizon := addYears_mono (BlockTime.day_mono h) 2

theorem Ctx.blockDay_addDate (ctx : Ctx) :
    ctx.blockDay.addDate 2 0 0 = Time.ofDay ctx.blockTime.horizon := by
  have hy := civilOfDays_year_range _ ctx.blockTime.day_range
  rw [Ctx.blockDay_eq, Time.addDate_ofDay _ _ _ _ (by omega) (by omega) (by omega) (by omega),
    add_zero, add_zero]
  rfl

/-! ### Messages (`types/tx.pb.go`, `types/extension.pb.go`, `types/output.pb.go`) -/

structure MsgLock where
  address : Bytes
  unlockDate : Bytes
  amount : Coin

structure Extension where
  fromDate : Bytes
  toDate : Bytes
  amount : Coin

-- Extensions and outputs are pointers in the source; `none` is the nil pointer.
structure MsgExtend where
  address : Bytes
  extensions : List (Option Extension)

structure MsgSendDelegateAndLock where
  fromAddress : Bytes
  toAddress : Bytes
  validatorAddress : Bytes
  unlockDate : Bytes
  amount : Coin

structure MultiSendDelegateAndLockOutput where
  toAddress : Bytes
  validatorAddress : Bytes
  unlockDate : Bytes
  amount : Coin

structure MsgMultiSendDelegateAndLock where
  fromAddress : Bytes
  totalAmount : Coin
  outputs : List (Option MultiSendDelegateAndLockOutput)

/-! ### Keepers (`types/expected_keepers.go`) -/

structure Delegation where
  validatorAddress : Bytes
  shares : ℚ
  deriving DecidableEq

/-- `stakingtypes.Validator`, as far as the exchange rate needs it. -/
structure Validator where
  operator : ValAddress
  tokens : ℤ
  delegatorShares : ℚ
  deriving DecidableEq

/-- The SDK calls of the module, over the state `W` of the other modules. The two
that move coins or delegations run this module's send restriction and staking
hooks, so they also see the lockup store. -/
structure Keepers (W : Type) where
  accAddressFromBech32 : Bytes → Out AccAddress
  valAddressFromBech32 : Bytes → Out ValAddress
  getAccount : W → AccAddress → Option Unit
  getBalance : W → AccAddress → Bytes → ℤ
  sendCoins : Ctx → LockStore → W → AccAddress → AccAddress → Coins → Out W
  bondDenom : W → Out Bytes
  getValidator : W → ValAddress → Out Validator
  getDelegation : W → AccAddress → ValAddress → Out Delegation
  getDelegatorDelegations : W → AccAddress → ℕ → Out (List Delegation)
  delegate : Ctx → LockStore → W → AccAddress → ℤ → Validator → Out W
  tokensFromShares : Validator → ℚ → Out ℚ

/-! ### `ValidateBasic` -/

def MsgLock.validateBasic {W : Type} (k : Keepers W) (msg : MsgLock) : Out Unit := do
  let _ ← wrapErr .errInvalidAddress "invalid lockupAddress address (%s)"
    (k.accAddressFromBech32 msg.address)
  failIf (msg.unlockDate = []) (fail .errInvalidDate "invalid unlock date" [])
  let _ ← ofOption
    (fail .errInvalidDate "invalid unlock date format: %s" [.parseError msg.unlockDate])
    (parseDateOnly msg.unlockDate)
  failIf (¬ 0 < msg.amount.amount)
    (fail .errInvalidCoins "invalid lock amount: %s" [.coin msg.amount])

/-- The two transfer messages check only the sender's address
(`types/message_send_delegate_and_lock.go`,
`types/message_multi_send_delegate_and_lock.go`). -/
def validateFromAddress {W : Type} (k : Keepers W) (fromAddress : Bytes) : Out Unit := do
  let _ ← wrapErr .errInvalidAddress "invalid fromAddress address (%s)"
    (k.accAddressFromBech32 fromAddress)

def MsgSendDelegateAndLock.validateBasic {W : Type} (k : Keepers W)
    (msg : MsgSendDelegateAndLock) : Out Unit := validateFromAddress k msg.fromAddress

def MsgMultiSendDelegateAndLock.validateBasic {W : Type} (k : Keepers W)
    (msg : MsgMultiSendDelegateAndLock) : Out Unit := validateFromAddress k msg.fromAddress

def validateExtension (i : ℕ) : Option Extension → Out Unit
  | none => .error (fail .errInvalidRequest "extension cannot be nil" [])
  | some extension => do
    failIf (extension.fromDate = [])
      (fail .errInvalidDate "extension from date cannot be empty" [])
    let fromTime ← ofOption
      (fail .errInvalidDate "extension at index %d has invalid 'from' date format: %s"
        [.int i, .parseError extension.fromDate]) (parseDateOnly extension.fromDate)
    failIf (¬ 0 < extension.amount.amount)
      (fail .errInvalidCoins "invalid lock amount: %s" [.coin extension.amount])
    failIf (extension.toDate = []) (fail .errInvalidDate "extension to date cannot be empty" [])
    let toTime ← ofOption
      (fail .errInvalidDate "invalid unlock date format: %s" [.str extension.toDate])
      (parseDateOnly extension.toDate)
    failIf (¬ toTime.After fromTime)
      (fail .errInvalidRequest "unlock date must be after from date" [])

def validateExtensions : ℕ → List (Option Extension) → Out Unit
  | _, [] => .ok ()
  | i, e :: es => validateExtension i e >>= fun _ => validateExtensions (i + 1) es

def MsgExtend.validateBasic {W : Type} (k : Keepers W) (msg : MsgExtend) : Out Unit := do
  let _ ← wrapErr .errInvalidAddress "invalid extendingAddress address (%s)"
    (k.accAddressFromBech32 msg.address)
  failIf (msg.extensions.length = 0)
    (fail .errInvalidRequest "at least one extension is required" [])
  validateExtensions 0 msg.extensions

def MsgExtend.Positive (msg : MsgExtend) : Prop :=
  ∀ e, some e ∈ msg.extensions → 0 < e.amount.amount

theorem validateExtensions_positive {i : ℕ} {es : List (Option Extension)}
    (h : validateExtensions i es = .ok ()) : ∀ e, some e ∈ es → 0 < e.amount.amount := by
  induction es generalizing i with
  | nil =>
    intro e he
    cases he
  | cons o es ih =>
    obtain ⟨u, hv, hr⟩ := (bind_eq_ok _ _ _).mp h
    intro e he
    rcases List.mem_cons.mp he with heq | he
    · subst heq
      simp only [validateExtension, bind_eq_ok, failIf_eq_ok, not_not] at hv
      obtain ⟨_, _, _, _, _, hpos, _⟩ := hv
      exact hpos
    · exact ih hr e he

theorem validateBasic_positive {W : Type} {k : Keepers W} {msg : MsgExtend}
    (h : msg.validateBasic k = .ok ()) : msg.Positive := by
  simp only [MsgExtend.validateBasic, bind_eq_ok] at h
  obtain ⟨_, _, _, _, hv⟩ := h
  exact validateExtensions_positive hv

end Tsc.Lockup
