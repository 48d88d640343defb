import Mathlib.Tactic
import Mathlib.Order.SuccPred.IntervalSucc

/-!
# The proleptic Gregorian calendar

Days are counted from 1970-01-01. Years are taken to begin in March, so that the
leap day is the last day of its year and the day number of a date is an explicit
formula with floor divisions. A date with a month or a day outside its usual
range has a day number too: it is the date `time.Date` normalises it to.
-/

namespace Tsc.Go

/-- Days from 0000-03-01 to the first of March of year `y`. -/
def yearStart (y : ℤ) : ℤ := 365 * y + y / 4 - y / 100 + y / 400

/-- Day number of the first day of month `k`, counted from March of year 0. -/
def monthStart (k : ℤ) : ℤ := yearStart (k / 12) + (153 * (k % 12) + 2) / 5 - 719468

def monthNumber (y m : ℤ) : ℤ := 12 * y + m - 3

def daysOfCivil (y m d : ℤ) : ℤ := monthStart (monthNumber y m) + (d - 1)

def monthLen (k : ℤ) : ℤ := monthStart (k + 1) - monthStart k

theorem yearStart_succ (y : ℤ) :
    yearStart y + 365 ≤ yearStart (y + 1) ∧ yearStart (y + 1) ≤ yearStart y + 366 := by
  unfold yearStart
  omega

theorem monthStart_split (y r : ℤ) (h0 : 0 ≤ r) (h12 : r < 12) :
    monthStart (12 * y + r) = yearStart y + (153 * r + 2) / 5 - 719468 := by
  have hq : (12 * y + r) / 12 = y := by omega
  have hr : (12 * y + r) % 12 = r := by omega
  unfold monthStart
  rw [hq, hr]

theorem monthLen_split (y r : ℤ) (h0 : 0 ≤ r) (h11 : r < 11) :
    monthLen (12 * y + r) = (153 * (r + 1) + 2) / 5 - (153 * r + 2) / 5 := by
  unfold monthLen
  rw [add_assoc, monthStart_split y (r + 1) (by omega) (by omega),
    monthStart_split y r h0 (by omega)]
  omega

theorem monthLen_february (y : ℤ) :
    monthLen (12 * y + 11) = yearStart (y + 1) - yearStart y - 337 := by
  have hnext : 12 * y + 11 + 1 = 12 * (y + 1) + 0 := by omega
  unfold monthLen
  rw [hnext, monthStart_split (y + 1) 0 le_rfl (by norm_num),
    monthStart_split y 11 (by norm_num) (by norm_num)]
  omega

theorem monthLen_bounds (k : ℤ) : 28 ≤ monthLen k ∧ monthLen k ≤ 31 := by
  have hk : k = 12 * (k / 12) + k % 12 := by omega
  have hy := yearStart_succ (k / 12)
  rw [hk]
  rcases lt_or_ge (k % 12) 11 with h | h
  · rw [monthLen_split _ _ (by omega) h]
    omega
  · have h11 : k % 12 = 11 := by omega
    rw [h11, monthLen_february]
    omega

theorem monthStart_succ (k : ℤ) : monthStart (k + 1) = monthStart k + monthLen k := by
  unfold monthLen
  omega

theorem monthStart_mono {j k : ℤ} (h : j ≤ k) : monthStart j ≤ monthStart k := by
  induction k, h using Int.leInduction with
  | base => exact le_rfl
  | succ k _ ih =>
    have hs := monthStart_succ k
    have hl := monthLen_bounds k
    omega

theorem monthStart_lt {j k : ℤ} (h : j < k) : monthStart j + monthLen j ≤ monthStart k := by
  rw [← monthStart_succ]
  exact monthStart_mono h

theorem monthStart_add_le (k : ℤ) (n : ℕ) : monthStart (k + n) ≤ monthStart k + 31 * n := by
  induction n with
  | zero => simp
  | succ n ih =>
    have hs := monthStart_succ (k + n)
    have hl := monthLen_bounds (k + n)
    push_cast at ih ⊢
    rw [← add_assoc]
    omega

theorem monthStart_add_48 (k : ℤ) : monthStart (k + 48) ≤ monthStart k + 1461 := by
  have hq : (k + 48) / 12 = k / 12 + 4 := by omega
  have hr : (k + 48) % 12 = k % 12 := by omega
  unfold monthStart yearStart
  rw [hq, hr]
  omega

/-- A span of months has at most 1461 days in every four years, and 31 in each month
that is left over. -/
theorem monthStart_span (k : ℤ) (n : ℕ) :
    monthStart (k + n) ≤ monthStart k + 1461 * (n / 48) + 31 * (n % 48) := by
  induction n using Nat.strong_induction_on with
  | _ n ih =>
    rcases lt_or_ge n 48 with hlt | hge
    · have hq : ((n : ℤ) / 48) = 0 := by omega
      have hr : ((n : ℤ) % 48) = n := by omega
      rw [hq, hr, mul_zero, add_zero]
      exact monthStart_add_le k n
    · obtain ⟨m, rfl⟩ := Nat.exists_eq_add_of_le' hge
      have hm := ih m (by omega)
      have h48 := monthStart_add_48 (k + m)
      push_cast at hm ⊢
      rw [← add_assoc]
      omega

/-! ### From day numbers back to dates -/

/-- The March year that day `z`, counted from 0000-03-01, falls in: the quotient
by the mean length of a year is off by one at most. -/
def marchYear (z : ℤ) : ℤ :=
  let y := 400 * z / 146097
  if z < yearStart y then y - 1 else if yearStart (y + 1) ≤ z then y + 1 else y

theorem marchYear_spec (z : ℤ) :
    yearStart (marchYear z) ≤ z ∧ z < yearStart (marchYear z + 1) := by
  unfold marchYear
  dsimp only
  generalize hy : 400 * z / 146097 = y
  have hlo : 146097 * y ≤ 400 * z := by omega
  have hhi : 400 * z < 146097 * (y + 1) := by omega
  split_ifs with h1 h2
  · refine ⟨?_, by rw [sub_add_cancel]; exact h1⟩
    unfold yearStart
    omega
  · refine ⟨h2, ?_⟩
    unfold yearStart
    omega
  · exact ⟨not_lt.mp h1, not_le.mp h2⟩

structure Civil where
  year : ℤ
  month : ℤ
  day : ℤ
  deriving Repr, DecidableEq

def civilOfDays (n : ℤ) : Civil :=
  let z := n + 719468
  let y := marchYear z
  let doy := z - yearStart y
  let mp := (5 * doy + 2) / 153
  let d := doy - (153 * mp + 2) / 5 + 1
  if mp < 10 then ⟨y, mp + 3, d⟩ else ⟨y + 1, mp - 9, d⟩

def Civil.Valid (c : Civil) : Prop :=
  1 ≤ c.month ∧ c.month ≤ 12 ∧ 1 ≤ c.day ∧ c.day ≤ monthLen (monthNumber c.year c.month)

theorem civilOfDays_spec (n : ℤ) :
    (civilOfDays n).Valid ∧
      daysOfCivil (civilOfDays n).year (civilOfDays n).month (civilOfDays n).day = n := by
  have hy := marchYear_spec (n + 719468)
  unfold civilOfDays
  dsimp only
  generalize marchYear (n + 719468) = y at hy
  have hlen := yearStart_succ y
  generalize hdoy : n + 719468 - yearStart y = doy
  generalize hmp : (5 * doy + 2) / 153 = mp
  have hr0 : 0 ≤ mp := by omega
  have hr12 : mp < 12 := by omega
  -- the month of the date is month `mp` of March year `y` in both branches
  have hday : 1 ≤ doy - (153 * mp + 2) / 5 + 1 ∧
      doy - (153 * mp + 2) / 5 + 1 ≤ monthLen (12 * y + mp) := by
    rcases lt_or_ge mp 11 with h | h
    · rw [monthLen_split y mp hr0 h]
      omega
    · have h11 : mp = 11 := by omega
      subst h11
      rw [monthLen_february]
      omega
  have hstart := monthStart_split y mp hr0 hr12
  have hdate : ∀ year month, 1 ≤ month → month ≤ 12 → monthNumber year month = 12 * y + mp →
      (⟨year, month, doy - (153 * mp + 2) / 5 + 1⟩ : Civil).Valid ∧
        daysOfCivil year month (doy - (153 * mp + 2) / 5 + 1) = n := by
    intro year month h1 h12 hk
    refine ⟨⟨h1, h12, hday.1, ?_⟩, ?_⟩
    · dsimp only
      rw [hk]
      exact hday.2
    · unfold daysOfCivil
      rw [hk, hstart]
      omega
  split_ifs with h10
  · exact hdate y (mp + 3) (by omega) (by omega) (by unfold monthNumber; omega)
  · exact hdate (y + 1) (mp - 9) (by omega) (by omega) (by unfold monthNumber; omega)

theorem daysOfCivil_lt_iff {c e : Civil} (hc : c.Valid) (he : e.Valid) :
    daysOfCivil c.year c.month c.day < daysOfCivil e.year e.month e.day ↔
      c.year < e.year ∨ c.year = e.year ∧
        (c.month < e.month ∨ c.month = e.month ∧ c.day < e.day) := by
  obtain ⟨hc1, hc2, hc3, hc4⟩ := hc
  obtain ⟨he1, he2, he3, he4⟩ := he
  unfold daysOfCivil
  rcases lt_trichotomy (monthNumber c.year c.month) (monthNumber e.year e.month) with h | h | h
  · have hm := monthStart_lt h
    unfold monthNumber at h
    constructor <;> intro _ <;> omega
  · rw [h]
    unfold monthNumber at h
    constructor <;> intro _ <;> omega
  · have hm := monthStart_lt h
    unfold monthNumber at h
    constructor <;> intro _ <;> omega

theorem civilOfDays_daysOfCivil {c : Civil} (hc : c.Valid) :
    civilOfDays (daysOfCivil c.year c.month c.day) = c := by
  obtain ⟨hv, hd⟩ := civilOfDays_spec (daysOfCivil c.year c.month c.day)
  generalize civilOfDays (daysOfCivil c.year c.month c.day) = e at hv hd
  have h1 : ¬ daysOfCivil e.year e.month e.day < daysOfCivil c.year c.month c.day := by omega
  have h2 : ¬ daysOfCivil c.year c.month c.day < daysOfCivil e.year e.month e.day := by omega
  rw [daysOfCivil_lt_iff hv hc] at h1
  rw [daysOfCivil_lt_iff hc hv] at h2
  obtain ⟨y, m, d⟩ := c
  obtain ⟨y', m', d'⟩ := e
  simp only [Civil.mk.injEq] at *
  omega

/-! ### Adding years -/

theorem monthLen_add_years (k y : ℤ) : monthLen k ≤ monthLen (k + 12 * y) + 1 := by
  obtain ⟨q, r, hr0, hr12, rfl⟩ : ∃ q r, 0 ≤ r ∧ r < 12 ∧ k = 12 * q + r :=
    ⟨k / 12, k % 12, by omega, by omega, by omega⟩
  have hshift : 12 * q + r + 12 * y = 12 * (q + y) + r := by ring
  have hq := yearStart_succ q
  have hqy := yearStart_succ (q + y)
  rw [hshift]
  rcases lt_or_ge r 11 with h | h
  · rw [monthLen_split _ _ hr0 h, monthLen_split _ _ hr0 h]
    omega
  · obtain rfl : r = 11 := by omega
    rw [monthLen_february, monthLen_february]
    omega

/-- The same date `years` years later, the 29th of February of a common year being
the first of March. -/
def addYears (n years : ℤ) : ℤ :=
  daysOfCivil ((civilOfDays n).year + years) (civilOfDays n).month (civilOfDays n).day

theorem addYears_mono {m n : ℤ} (h : m ≤ n) (years : ℤ) : addYears m years ≤ addYears n years := by
  obtain ⟨⟨_, _, hm3, hm4⟩, hm⟩ := civilOfDays_spec m
  obtain ⟨⟨_, _, hn3, hn4⟩, hn⟩ := civilOfDays_spec n
  unfold addYears
  generalize civilOfDays m = c at *
  generalize civilOfDays n = e at *
  have hshift : ∀ y k : ℤ, monthNumber (y + years) k = monthNumber y k + 12 * years := by
    intro y k
    unfold monthNumber
    omega
  unfold daysOfCivil at *
  rw [hshift, hshift]
  rcases lt_trichotomy (monthNumber c.year c.month) (monthNumber e.year e.month) with hk | hk | hk
  · -- an earlier month: the day is at most the one after the end of the shifted month
    have hlen := monthLen_add_years (monthNumber c.year c.month) years
    have hlt : monthNumber c.year c.month + 12 * years < monthNumber e.year e.month + 12 * years := by
      omega
    have hstart := monthStart_lt hlt
    omega
  · rw [hk] at hm ⊢
    omega
  · have hstart := monthStart_lt hk
    omega

/-! ### Month lengths -/

def isLeap (y : ℤ) : Prop := y % 4 = 0 ∧ (y % 100 ≠ 0 ∨ y % 400 = 0)

instance (y : ℤ) : Decidable (isLeap y) := by unfold isLeap; infer_instance

def daysIn (m y : ℤ) : ℤ :=
  if m = 2 then (if isLeap y then 29 else 28)
  else if m = 4 ∨ m = 6 ∨ m = 9 ∨ m = 11 then 30 else 31

theorem monthLen_eq_daysIn (y m : ℤ) (h1 : 1 ≤ m) (h2 : m ≤ 12) :
    monthLen (monthNumber y m) = daysIn m y := by
  rcases lt_or_ge m 3 with hm | hm
  · -- January and February end the March year before
    have hk : monthNumber y m = 12 * (y - 1) + (m + 9) := by
      unfold monthNumber
      omega
    rw [hk]
    obtain rfl | rfl : m = 1 ∨ m = 2 := by omega
    · exact monthLen_split (y - 1) 10 (by norm_num) (by norm_num)
    · have hlen := monthLen_february (y - 1)
      rw [sub_add_cancel] at hlen
      refine hlen.trans ?_
      unfold yearStart daysIn isLeap
      rw [if_pos rfl]
      split_ifs with hleap <;> omega
  · have hk : monthNumber y m = 12 * y + (m - 3) := by
      unfold monthNumber
      omega
    rw [hk, monthLen_split y (m - 3) (by omega) (by omega)]
    interval_cases m <;> rfl

end Tsc.Go
