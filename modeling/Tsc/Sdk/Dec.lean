import Tsc.Sdk.Math
import Mathlib.Data.Rat.Floor

/-!
# Decimals of the SDK (`math.LegacyDec`)

A decimal is a whole number of units of `10 ^ -18`, of at most 315 bits. A quotient is
computed to 36 places, cut there, and then rounded to 18, a half to the even neighbour. A
product with an integer is exact, and so is a quotient that has 18 places.
-/

namespace Tsc.Sdk

open Go

def precision : ℤ := 10 ^ 18

theorem precision_pos : 0 < precision := by decide

theorem precision_cast_ne_zero : (precision : ℚ) ≠ 0 := by
  unfold precision
  norm_num

structure Dec where
  units : ℤ
  deriving Repr, DecidableEq

namespace Dec

def value (a : Dec) : ℚ := a.units / precision

/-- The decimal of a number with 18 places; of others the next one below. -/
def ofRat (x : ℚ) : Dec := ⟨⌊x * precision⌋⟩

/-- Units of 315 bits lie below it. -/
def bound : ℕ := 2 ^ 315

def check (units : ℤ) : Out Dec :=
  if units.natAbs < bound then .ok ⟨units⟩ else .error (.panic "Int overflow")

def mulInt (a : Dec) (i : ℤ) : Out Dec := check (a.units * i)

def quoInt (a : Dec) (i : ℤ) : Out Dec :=
  if i = 0 then .error (.panic "division by zero") else .ok ⟨a.units.tdiv i⟩

/-- Divides by `10 ^ 18`: the magnitude is rounded, then the sign put back. -/
def chopPrecisionAndRound (x : ℤ) : ℤ :=
  let quo := x.natAbs / 10 ^ 18
  let rem := x.natAbs % 10 ^ 18
  let rounded : ℕ :=
    if rem < 5 * 10 ^ 17 ∨ (rem = 5 * 10 ^ 17 ∧ quo % 2 = 0) then quo else quo + 1
  x.sign * rounded

def quo (a b : Dec) : Out Dec :=
  if b.units = 0 then .error (.panic "division by zero")
  else check (chopPrecisionAndRound ((a.units * precision * precision).tdiv b.units))

def quoTruncate (a b : Dec) : Out Dec :=
  if b.units = 0 then .error (.panic "division by zero")
  else check (((a.units * precision * precision).tdiv b.units).tdiv precision)

/-! ### Numbers with 18 places -/

/-- The number has at most 18 decimal places. -/
def Exact (x : ℚ) : Prop := ∃ n : ℤ, x * precision = n

theorem exact_intCast (n : ℤ) : Exact n := ⟨n * precision, by push_cast; rfl⟩

theorem Exact.add {x y : ℚ} (hx : Exact x) (hy : Exact y) : Exact (x + y) := by
  obtain ⟨m, hm⟩ := hx
  obtain ⟨n, hn⟩ := hy
  exact ⟨m + n, by rw [add_mul, hm, hn]; push_cast; rfl⟩

theorem Exact.sub {x y : ℚ} (hx : Exact x) (hy : Exact y) : Exact (x - y) := by
  obtain ⟨m, hm⟩ := hx
  obtain ⟨n, hn⟩ := hy
  exact ⟨m - n, by rw [sub_mul, hm, hn]; push_cast; rfl⟩

theorem ofRat_units {x : ℚ} {n : ℤ} (h : x * precision = n) : (ofRat x).units = n := by
  unfold ofRat
  rw [h, Int.floor_intCast]

theorem ofRat_intCast (n : ℤ) : (ofRat n).units = n * precision := by
  apply ofRat_units
  push_cast
  rfl

theorem value_ofRat {x : ℚ} (h : Exact x) : (ofRat x).value = x := by
  obtain ⟨n, hn⟩ := h
  unfold value
  rw [ofRat_units hn, ← hn, mul_div_assoc, div_self precision_cast_ne_zero, mul_one]

theorem ofRat_nonneg {x : ℚ} (h : 0 ≤ x) : 0 ≤ (ofRat x).units := by
  have hp : (0 : ℚ) ≤ precision := by exact_mod_cast precision_pos.le
  exact Int.floor_nonneg.mpr (mul_nonneg h hp)

/-! ### Rounding -/

theorem check_eq_ok (units : ℤ) (a : Dec) :
    check units = .ok a ↔ units.natAbs < bound ∧ a = ⟨units⟩ := by
  unfold check
  split_ifs with h
  · simp [h, eq_comm]
  · simp [h]

theorem chopPrecisionAndRound_mul (n : ℤ) : chopPrecisionAndRound (n * precision) = n := by
  have habs : (n * precision).natAbs = n.natAbs * 10 ^ 18 := by
    rw [Int.natAbs_mul]
    rfl
  have hsign : (n * precision).sign = n.sign := by
    rw [Int.sign_mul, Int.sign_eq_one_of_pos precision_pos, mul_one]
  unfold chopPrecisionAndRound
  dsimp only
  rw [habs, Nat.mul_div_cancel _ (by norm_num), Nat.mul_mod_left, if_pos (Or.inl (by norm_num)),
    hsign]
  exact Int.sign_mul_natAbs n

theorem chopPrecisionAndRound_nonneg {x : ℤ} (h : 0 ≤ x) : 0 ≤ chopPrecisionAndRound x := by
  have hsign : 0 ≤ x.sign := by
    rcases lt_or_eq_of_le h with hpos | rfl
    · rw [Int.sign_eq_one_of_pos hpos]
      decide
    · decide
  exact mul_nonneg hsign (Int.natCast_nonneg _)

/-- A quotient of decimals that is a decimal is not rounded. -/
theorem quo_exact {a b : Dec} {n : ℤ} (hb : b.units ≠ 0) (h : a.units * precision = n * b.units) :
    quo a b = check n := by
  unfold quo
  rw [if_neg hb, h, mul_right_comm, Int.mul_tdiv_cancel _ hb, chopPrecisionAndRound_mul]

theorem quoTruncate_exact {a b : Dec} {n : ℤ} (hb : b.units ≠ 0)
    (h : a.units * precision = n * b.units) : quoTruncate a b = check n := by
  unfold quoTruncate
  rw [if_neg hb, h, mul_right_comm, Int.mul_tdiv_cancel _ hb,
    Int.mul_tdiv_cancel _ (ne_of_gt precision_pos)]

theorem quo_nonneg {a b c : Dec} (ha : 0 ≤ a.units) (hb : 0 ≤ b.units) (h : quo a b = .ok c) :
    0 ≤ c.units := by
  unfold quo at h
  split_ifs at h
  obtain ⟨_, rfl⟩ := (check_eq_ok _ _).mp h
  have hp := precision_pos.le
  exact chopPrecisionAndRound_nonneg (Int.tdiv_nonneg (mul_nonneg (mul_nonneg ha hp) hp) hb)

end Dec
end Tsc.Sdk
