import Tsc.Go.Outcome
import Tsc.Go.ByteString

/-!
# SDK errors, coins and `math.Int`

Errors are the registered error they wrap, the format text and its arguments.
`math.Int` is an integer of at most 256 bits: the operations that would leave
that range, and a division by zero, panic.
-/

namespace Tsc.Sdk

open Go

/-- Registered errors (`cosmos-sdk/types/errors`, `x/gov/types`,
`x/lockup/types/errors.go`) and the gRPC status codes queries return; `plain` is an
error built without one. -/
inductive ErrBase where
  | errInvalidRequest
  | errInvalidAddress
  | errInvalidCoins
  | errInvalidType
  | errInsufficientFunds
  | errNotFound
  | errUnauthorized
  | errInsufficientDelegations
  | errInvalidSigner
  | errLockupNotFound
  | errInvalidDate
  | errInvalidAmount
  | errUnknownExtensionOptions
  | statusInvalidArgument
  | statusInternal
  | plain
  deriving Repr, DecidableEq

structure Coin where
  denom : Bytes
  amount : ℤ
  deriving Repr, DecidableEq

abbrev Coins := List Coin

def Coins.amountOf (coins : Coins) (denom : Bytes) : ℤ :=
  ((coins.find? fun c => c.denom = denom).map Coin.amount).getD 0

/-- An argument of a format text. `parseError s` is the error `time.Parse` returns
on `s`, `text` that of another call. -/
inductive Arg where
  | str (s : Bytes)
  | int (i : ℤ)
  | coin (c : Coin)
  | parseError (s : Bytes)
  | text (s : String)
  deriving Repr, DecidableEq

structure Err where
  base : ErrBase
  format : String
  args : List Arg
  deriving Repr, DecidableEq

abbrev Out (α : Type) := Outcome Err α

variable {α : Type}

/-- `base.Wrapf(format, args...)` as the error of a call. -/
def fail (base : ErrBase) (format : String) (args : List Arg) : Fault Err :=
  .err ⟨base, format, args⟩

/-- `if err != nil { return base.Wrapf(format, err) }`. -/
def wrapErr (base : ErrBase) (format : String) : Out α → Out α
  | .error (.err e) => .error (fail base format [.text e.format])
  | x => x

@[simp] theorem wrapErr_eq_ok (base : ErrBase) (format : String) (x : Out α) (a : α) :
    wrapErr base format x = .ok a ↔ x = .ok a := by
  unfold wrapErr
  split <;> simp_all

def orFail (f : Fault Err) : Out α → Out α
  | .error (.err _) => .error f
  | x => x

@[simp] theorem orFail_eq_ok (f : Fault Err) (x : Out α) (a : α) :
    orFail f x = .ok a ↔ x = .ok a := by
  unfold orFail
  split <;> simp_all

/-! ### `math.Int` -/

/-- Values of 256 bits lie strictly between `-intBound` and `intBound`. -/
def intBound : ℤ := 2 ^ 256

def InRange (x : ℤ) : Prop := -intBound < x ∧ x < intBound

instance (x : ℤ) : Decidable (InRange x) := by unfold InRange; infer_instance

/-- The range check every operation of `math.Int` ends with. -/
def checkInt (x : ℤ) : Out ℤ := if InRange x then .ok x else .error (.panic "Int overflow")

def intAdd (a b : ℤ) : Out ℤ := checkInt (a + b)

def intSub (a b : ℤ) : Out ℤ := checkInt (a - b)

def intMul (a b : ℤ) : Out ℤ := checkInt (a * b)

/-- Division truncated towards zero. -/
def intQuo (a b : ℤ) : Out ℤ :=
  if b = 0 then .error (.panic "division by zero") else .ok (Int.tdiv a b)

def isLetter (b : Byte) : Bool := (65 ≤ b.val && b.val ≤ 90) || (97 ≤ b.val && b.val ≤ 122)

def isDenomByte (b : Byte) : Bool :=
  isLetter b || (48 ≤ b.val && b.val ≤ 57) || (ascii "/:._-").contains b

/-- The SDK's own check of denominations, `[a-zA-Z][a-zA-Z0-9/:._-]{2,127}`. -/
def validateDenom : Bytes → Bool
  | [] => false
  | b :: rest => isLetter b && 2 ≤ rest.length && rest.length ≤ 127 && rest.all isDenomByte

/-- `sdk.NewCoin`; an application may set its own check of denominations. -/
def newCoin (validDenom : Bytes → Bool) (denom : Bytes) (amount : ℤ) : Out Coin := do
  failIf (validDenom denom = false) (.panic "invalid denom")
  failIf (amount < 0) (.panic "negative coin amount")
  .ok ⟨denom, amount⟩

theorem newCoin_ok {validDenom : Bytes → Bool} {denom : Bytes} {amount : ℤ}
    (hvalid : validDenom denom = true) (hamount : 0 ≤ amount) :
    newCoin validDenom denom amount = .ok ⟨denom, amount⟩ := by
  have hdenom : ¬ validDenom denom = false := by simp [hvalid]
  simp only [newCoin, failIf_of_not _ hdenom, failIf_of_not _ (not_lt.mpr hamount), ok_bind]

theorem newCoin_eq_ok (validDenom : Bytes → Bool) (denom : Bytes) (amount : ℤ) (coin : Coin) :
    newCoin validDenom denom amount = .ok coin ↔
      (validDenom denom = true ∧ 0 ≤ amount) ∧ coin = ⟨denom, amount⟩ := by
  constructor
  · intro h
    simp only [newCoin, bind_eq_ok, failIf_eq_ok, not_lt] at h
    obtain ⟨_, hdenom, _, hamount, heq⟩ := h
    cases heq
    exact ⟨⟨by simpa using hdenom, hamount⟩, rfl⟩
  · intro h
    rw [newCoin_ok h.1.1 h.1.2, h.2]

theorem intBound_pos : 0 < intBound := by unfold intBound; positivity

@[simp] theorem checkInt_eq_ok (x y : ℤ) : checkInt x = .ok y ↔ InRange x ∧ y = x := by
  unfold checkInt
  split_ifs with h
  · simp [h, eq_comm]
  · simp [h]

@[simp] theorem intAdd_eq_ok (a b c : ℤ) : intAdd a b = .ok c ↔ InRange (a + b) ∧ c = a + b :=
  checkInt_eq_ok _ _

@[simp] theorem intSub_eq_ok (a b c : ℤ) : intSub a b = .ok c ↔ InRange (a - b) ∧ c = a - b :=
  checkInt_eq_ok _ _

@[simp] theorem intMul_eq_ok (a b c : ℤ) : intMul a b = .ok c ↔ InRange (a * b) ∧ c = a * b :=
  checkInt_eq_ok _ _

@[simp] theorem intQuo_eq_ok (a b c : ℤ) : intQuo a b = .ok c ↔ b ≠ 0 ∧ c = Int.tdiv a b := by
  unfold intQuo
  split_ifs with h
  · simp [h]
  · simp [h, eq_comm]

/-- On nonnegative terms an accumulating loop returns exactly when the total
has at most 256 bits: no earlier partial sum is larger. -/
theorem forRange_intAdd_iff {β : Type} (f : β → ℤ) (l : List β) (s : ℤ) (hs : 0 ≤ s)
    (hs' : s < intBound) (hl : ∀ x ∈ l, 0 ≤ f x) (t : ℤ) :
    forRange (fun acc x => intAdd acc (f x)) s l = .ok t ↔
      t = s + (l.map f).sum ∧ s + (l.map f).sum < intBound := by
  induction l generalizing s with
  | nil => simp [forRange, eq_comm, hs']
  | cons x l ih =>
    have hx : 0 ≤ f x := hl x (List.mem_cons_self ..)
    have htail : ∀ y ∈ l, 0 ≤ f y := fun y hy => hl y (List.mem_cons_of_mem _ hy)
    have hsum : 0 ≤ (l.map f).sum := List.sum_nonneg (by simpa using htail)
    rw [forRange_cons, bind_eq_ok, List.map_cons, List.sum_cons]
    constructor
    · rintro ⟨u, hu, hr⟩
      obtain ⟨⟨_, hlt⟩, rfl⟩ := (intAdd_eq_ok _ _ _).mp hu
      have h := (ih (s + f x) (by omega) hlt htail).mp hr
      omega
    · rintro ⟨rfl, hlt⟩
      have hb := intBound_pos
      refine ⟨s + f x, (intAdd_eq_ok _ _ _).mpr ⟨⟨by omega, by omega⟩, rfl⟩, ?_⟩
      exact (ih (s + f x) (by omega) (by omega) htail).mpr ⟨by omega, by omega⟩

theorem forRange_intAdd_filter {β : Type} (f : β → ℤ) (p : β → Prop) [DecidablePred p]
    (l : List β) (s : ℤ) :
    forRange (fun acc x => if p x then intAdd acc (f x) else .ok acc) s l =
      forRange (fun acc x => intAdd acc (f x)) s (l.filter fun x => p x) := by
  induction l generalizing s with
  | nil => rfl
  | cons x l ih =>
    rw [forRange_cons]
    by_cases hx : p x
    · rw [if_pos hx, List.filter_cons_of_pos (by simpa using hx), forRange_cons]
      congr 1
      funext s'
      exact ih s'
    · rw [if_neg hx, List.filter_cons_of_neg (by simpa using hx), ok_bind]
      exact ih s

end Tsc.Sdk
