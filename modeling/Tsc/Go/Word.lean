import Mathlib.Tactic

/-!
# 64-bit machine integers

Go's `int` and `uint64` on a 64-bit machine, as integers reduced to their range:
`wrap64` is the value of a two's complement `int` after an operation or a
conversion, `wrapU64` that of a `uint64`.
-/

namespace Tsc.Go

/-- The `int` with the same 64 low bits. -/
def wrap64 (x : ℤ) : ℤ := (x + 9223372036854775808) % 18446744073709551616 - 9223372036854775808

def wrapU64 (x : ℤ) : ℤ := x % 18446744073709551616

def maxInt64 : ℤ := 9223372036854775807

def minInt64 : ℤ := -9223372036854775808

theorem wrap64_range (x : ℤ) : minInt64 ≤ wrap64 x ∧ wrap64 x ≤ maxInt64 := by
  unfold wrap64 minInt64 maxInt64
  omega

theorem wrap64_of_range {x : ℤ} (h : -2 ^ 63 ≤ x ∧ x < 2 ^ 63) : wrap64 x = x := by
  unfold wrap64
  omega

theorem wrap64_natCast {n : ℕ} (h : n < 2 ^ 63) : wrap64 n = n := wrap64_of_range (by omega)

theorem wrapU64_range (x : ℤ) : 0 ≤ wrapU64 x ∧ wrapU64 x < 18446744073709551616 := by
  unfold wrapU64
  omega

theorem wrapU64_of_range {x : ℤ} (h : 0 ≤ x ∧ x < 18446744073709551616) : wrapU64 x = x := by
  unfold wrapU64
  omega

theorem wrapU64_wrap64 (x : ℤ) : wrapU64 (wrap64 x) = wrapU64 x := by
  unfold wrapU64 wrap64
  omega

theorem wrap64_wrapU64 {x : ℤ} (h : minInt64 ≤ x ∧ x ≤ maxInt64) : wrap64 (wrapU64 x) = x := by
  unfold minInt64 maxInt64 at h
  unfold wrap64 wrapU64
  omega

end Tsc.Go
