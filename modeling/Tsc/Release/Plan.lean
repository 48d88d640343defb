import Mathlib.Algebra.BigOperators.Intervals
import Mathlib.Algebra.Order.BigOperators.Group.Finset
import Mathlib.Tactic

/-!
# Amounts released over consecutive periods

A plan cuts the days into consecutive periods and gives each an amount. Inside a
period the amount is released in equal daily parts, rounded down. The cumulated
release never decreases, and at the last day of a period it is the sum of the
amounts up to that period.

`Limit` is a bound that changes with time and is not defined at every time; a
quantity that was brought in under it at one time stays under it afterwards.
-/

namespace Tsc.Release

open Finset

/-- Strictly growing bounds cut the days from the first of them on into consecutive
periods. -/
theorem existsUnique_period {bound : ℕ → ℤ} (hb : StrictMono bound) {d : ℤ} {N : ℕ}
    (h0 : bound 0 ≤ d) (hN : d < bound N) : ∃! n, bound n ≤ d ∧ d < bound (n + 1) := by
  have hex : ∃ n, d < bound n := ⟨N, hN⟩
  obtain ⟨n, hn⟩ : ∃ n, Nat.find hex = n + 1 := by
    refine Nat.exists_eq_succ_of_ne_zero ?_
    intro hz
    have hlt := Nat.find_spec hex
    rw [hz] at hlt
    omega
  have hstop : d < bound (n + 1) := hn ▸ Nat.find_spec hex
  have hstart : bound n ≤ d := not_lt.mp (Nat.find_min hex (by omega))
  refine ⟨n, ⟨hstart, hstop⟩, ?_⟩
  rintro m ⟨hm, hm'⟩
  have h1 : m < n + 1 := hb.lt_iff_lt.mp (by omega)
  have h2 : n < m + 1 := hb.lt_iff_lt.mp (by omega)
  omega

/-- Period `n` is made of the days from `bound n` up to the day before
`bound (n + 1)`. -/
structure Plan where
  bound : ℕ → ℤ
  bound_strictMono : StrictMono bound
  amount : ℕ → ℤ
  amount_nonneg : ∀ n, 0 ≤ amount n

namespace Plan

variable (p : Plan)

def Covers (n : ℕ) (day : ℤ) : Prop := p.bound n ≤ day ∧ day < p.bound (n + 1)

def length (n : ℕ) : ℤ := p.bound (n + 1) - p.bound n

def completed (n : ℕ) : ℤ := ∑ k ∈ range n, p.amount k

/-- What is released up to `day`, a day of period `n`, that day included. -/
def released (n : ℕ) (day : ℤ) : ℤ :=
  p.completed n + p.amount n * (day - p.bound n + 1) / p.length n

variable {p} {n m : ℕ} {d e : ℤ}

theorem length_pos : 0 < p.length n := by
  have h := p.bound_strictMono (Nat.lt_succ_self n)
  unfold length
  exact sub_pos.mpr h

theorem completed_succ : p.completed (n + 1) = p.completed n + p.amount n := by
  unfold completed
  exact sum_range_succ _ _

theorem completed_mono (h : n ≤ m) : p.completed n ≤ p.completed m := by
  induction m, h using Nat.le_induction with
  | base => exact le_rfl
  | succ m _ ih =>
    have ha := p.amount_nonneg m
    rw [completed_succ]
    omega

theorem Covers.le_of_le (hn : p.Covers n d) (hm : p.Covers m e) (h : d ≤ e) : n ≤ m := by
  by_contra hlt
  have hb : p.bound (m + 1) ≤ p.bound n := p.bound_strictMono.monotone (by omega)
  obtain ⟨hn, _⟩ := hn
  obtain ⟨_, hm⟩ := hm
  omega

theorem released_mono_day (h : d ≤ e) : p.released n d ≤ p.released n e := by
  have ha := p.amount_nonneg n
  have hmul : p.amount n * (d - p.bound n + 1) ≤ p.amount n * (e - p.bound n + 1) :=
    mul_le_mul_of_nonneg_left (by omega) ha
  have hdiv := Int.ediv_le_ediv (length_pos (p := p) (n := n)) hmul
  unfold released
  omega

theorem completed_le_released (h : p.Covers n d) : p.completed n ≤ p.released n d := by
  have ha := p.amount_nonneg n
  have hd : 0 ≤ d - p.bound n + 1 := by
    have := h.1
    omega
  have hq := Int.ediv_nonneg (mul_nonneg ha hd) (length_pos (p := p) (n := n)).le
  unfold released
  omega

theorem released_last : p.released n (p.bound (n + 1) - 1) = p.completed (n + 1) := by
  have hpos := length_pos (p := p) (n := n)
  have hlen : p.bound (n + 1) - 1 - p.bound n + 1 = p.length n := by
    unfold length
    omega
  unfold released
  rw [hlen, Int.mul_ediv_cancel _ hpos.ne', completed_succ]

theorem released_le_completed (h : p.Covers n d) : p.released n d ≤ p.completed (n + 1) := by
  have hd : d ≤ p.bound (n + 1) - 1 := by
    have := h.2
    omega
  rw [← released_last]
  exact released_mono_day hd

/-- The release never decreases, inside a period and across periods. -/
theorem released_mono (hn : p.Covers n d) (hm : p.Covers m e) (h : d ≤ e) :
    p.released n d ≤ p.released m e := by
  rcases (hn.le_of_le hm h).eq_or_lt with rfl | hlt
  · exact released_mono_day h
  · calc p.released n d ≤ p.completed (n + 1) := released_le_completed hn
      _ ≤ p.completed m := completed_mono hlt
      _ ≤ p.released m e := completed_le_released hm

end Plan

/-! ### Halving -/

def halvings (s : ℤ) (n : ℕ) : ℤ := ∑ k ∈ range n, s / 2 ^ (k + 1)

theorem halvings_succ (s : ℤ) (n : ℕ) : halvings s (n + 1) = halvings s n + s / 2 ^ (n + 1) :=
  sum_range_succ _ _

theorem halvings_nonneg {s : ℤ} (h : 0 ≤ s) (n : ℕ) : 0 ≤ halvings s n :=
  sum_nonneg fun _ _ => Int.ediv_nonneg h (by positivity)

/-- What is halved next is still left over. -/
theorem halvings_add_le (s : ℤ) (n : ℕ) : halvings s n + s / 2 ^ n ≤ s := by
  induction n with
  | zero => simp [halvings]
  | succ n ih =>
    have hhalf : s / 2 ^ (n + 1) = s / 2 ^ n / 2 := by
      rw [pow_succ, Int.ediv_ediv_of_nonneg (by positivity)]
    rw [halvings_succ, hhalf]
    omega

/-! ### Limits that grow with time -/

/-- `Value t v` says that at time `t` the limit is `v`; it may have none. Of two
limits the later is not the smaller. -/
structure Limit (T : Type) [Preorder T] where
  Value : T → ℤ → Prop
  mono : ∀ {s t : T} {u v : ℤ}, s ≤ t → Value s u → Value t v → u ≤ v

namespace Limit

variable {T : Type} [Preorder T] {l : Limit T} {s t : T} {x y u : ℤ}

def Holds (l : Limit T) (t : T) (x : ℤ) : Prop := ∀ t', t ≤ t' → ∀ v, l.Value t' v → x ≤ v

theorem Holds.of_le (h : l.Value t u) (hx : x ≤ u) : l.Holds t x :=
  fun _ ht _ hv => hx.trans (l.mono ht h hv)

theorem Holds.later (h : l.Holds s x) (hst : s ≤ t) (hyx : y ≤ x) : l.Holds t y :=
  fun t' ht v hv => hyx.trans (h t' (hst.trans ht) v hv)

end Limit

end Tsc.Release
