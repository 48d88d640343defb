import Tsc.Distro.Defined

/-!
# The halving periods tile the calendar

A period starts a whole number of months after the start date, its day of the month
running over into the next month where that month is too short, and ends the day
before the next one starts. `time.Date` normalises both from the same date, so the
two agree and consecutive periods leave no gap, up to the end of the calendar of a
`time.Time`.
-/

namespace Tsc.Distro

open Go Sdk Release

namespace HalvingSchedule

variable {h : HalvingSchedule} {n : ℕ}

/-- First day of period `n + 1`. -/
def firstDay (h : HalvingSchedule) (n : ℕ) : ℤ :=
  daysOfCivil h.startDate.civil.year (h.startDate.civil.month + n * h.months) h.startDate.civil.day

theorem firstDay_eq (h : HalvingSchedule) (n : ℕ) :
    h.firstDay n = monthStart (monthNumber h.startDate.civil.year h.startDate.civil.month +
      n * h.months) + (h.startDate.civil.day - 1) := by
  unfold firstDay daysOfCivil monthNumber
  congr 2
  ring

theorem firstDay_zero (h : HalvingSchedule) : h.firstDay 0 = h.startDate.dayNumber := by
  unfold firstDay
  rw [Nat.cast_zero, zero_mul, add_zero]
  exact (civilOfDays_spec h.startDate.dayNumber).2

theorem firstDay_strictMono (hd : h.Dated) : StrictMono h.firstDay := by
  refine strictMono_nat_of_lt_succ fun n => ?_
  have hpos := hd.months_pos
  rw [firstDay_eq, firstDay_eq]
  push_cast
  have hlt := monthStart_lt (j := monthNumber h.startDate.civil.year h.startDate.civil.month +
    n * h.months) (k := monthNumber h.startDate.civil.year h.startDate.civil.month +
    (n + 1) * h.months) (by nlinarith)
  have hlen := monthLen_bounds (monthNumber h.startDate.civil.year h.startDate.civil.month +
    n * h.months)
  omega

/-! ### Where a period fits -/

/-- Period `n + 1` starts on a day that a `time.Time` can hold. -/
def Fits (h : HalvingSchedule) (n : ℕ) : Prop := h.firstDay n ≤ Time.lastDay

theorem Fits.mono (hd : h.Dated) {m : ℕ} (hmn : m ≤ n) (hn : h.Fits n) : h.Fits m :=
  ((firstDay_strictMono hd).monotone hmn).trans hn

theorem Fits.months_le (hd : h.Dated) (hn : h.Fits n) : n * h.months ≤ 3800000000000 := by
  have hyear := hd.year
  obtain ⟨⟨h1, h2, h3, h4⟩, -⟩ := civilOfDays_spec h.startDate.dayNumber
  have hle : h.firstDay n ≤ Time.lastDay := hn
  rw [firstDay_eq] at hle
  generalize (n : ℤ) * h.months = months at hle ⊢
  change 1 ≤ h.startDate.civil.month at h1
  change 1 ≤ h.startDate.civil.day at h3
  unfold monthStart yearStart monthNumber Time.lastDay at hle
  omega

/-- The first 1000 periods of at most 3500 months fit. -/
theorem fits_of_le (hd : h.Dated) (hm : h.months ≤ 3500) (hn : n ≤ 1000) : h.Fits n := by
  have hyear := hd.year
  have hle : (n : ℤ) * h.months ≤ 1000 * 3500 := mul_le_mul (by omega) hm h.months_nonneg (by omega)
  have hnn : 0 ≤ (n : ℤ) * h.months := mul_nonneg (by omega) h.months_nonneg
  obtain ⟨⟨h1, h2, h3, h4⟩, -⟩ := civilOfDays_spec h.startDate.dayNumber
  have hlen := monthLen_bounds (monthNumber (civilOfDays h.startDate.dayNumber).year
    (civilOfDays h.startDate.dayNumber).month)
  change 1 ≤ h.startDate.civil.month at h1
  change h.startDate.civil.month ≤ 12 at h2
  change 1 ≤ h.startDate.civil.day at h3
  have h4 : h.startDate.civil.day ≤ 31 := h4.trans hlen.2
  have hbound := Time.daysOfCivil_bound h.startDate.civil.year
    (h.startDate.civil.month + n * h.months) h.startDate.civil.day (by omega) (by omega) (by omega)
  unfold Fits firstDay Time.lastDay
  omega

/-- The dates of period `n + 1`, as long as its first month offset is in range. -/
theorem periodBounds_of_le (hm : h.months ≤ 3500) (hn : n * h.months ≤ 3800000000000) :
    h.periodBounds (n + 1) = (h.startDate.addDate 0 (n * h.months) 0,
      h.startDate.addDate 0 ((n + 1 : ℕ) * h.months) (-1)) := by
  have hsplit : ((n + 1 : ℕ) : ℤ) * h.months = n * h.months + h.months := by
    push_cast
    ring
  have hprev : ((n + 1 : ℕ) : ℤ) - 1 = n := by omega
  rw [periodBounds_exact (by omega) (by omega), hprev]

theorem periodBounds_start (hd : h.Dated) (hm : h.months ≤ 3500) (hn : h.Fits n) :
    (h.periodBounds (n + 1)).1 = Time.ofDay (h.firstDay n) := by
  have hyear := hd.year
  have hle := hn.months_le hd
  have hnn : 0 ≤ (n : ℤ) * h.months := mul_nonneg (by omega) h.months_nonneg
  have hciv : civilOfDays h.startDate.dayNumber = h.startDate.civil := rfl
  have hdate := Time.addDate_of_fits h.startDate.dayNumber 0 (n * h.months) 0
    (by rw [hciv]; omega) (by omega) (by omega) (by omega)
  rw [hciv, add_zero, add_zero, ← hd.midnight] at hdate
  rw [periodBounds_of_le hm hle]
  exact hdate hn

theorem periodBounds_stop (hd : h.Dated) (hm : h.months ≤ 3500) (hn : h.Fits (n + 1)) :
    (h.periodBounds (n + 1)).2 = Time.ofDay (h.firstDay (n + 1) - 1) := by
  have hyear := hd.year
  have hle := hn.months_le hd
  have hnn : 0 ≤ ((n + 1 : ℕ) : ℤ) * h.months := mul_nonneg (by omega) h.months_nonneg
  have hciv : civilOfDays h.startDate.dayNumber = h.startDate.civil := rfl
  have hdate := Time.addDate_of_fits h.startDate.dayNumber 0 ((n + 1 : ℕ) * h.months) (-1)
    (by rw [hciv]; omega) (by omega) (by omega) (by omega)
  have hday : daysOfCivil h.startDate.civil.year (h.startDate.civil.month + (n + 1 : ℕ) * h.months)
      (h.startDate.civil.day + -1) = h.firstDay (n + 1) - 1 := by
    unfold firstDay daysOfCivil
    ring
  rw [hciv, add_zero, hday, ← hd.midnight] at hdate
  rw [periodBounds_of_le hm ((hn.mono hd n.le_succ).months_le hd)]
  exact hdate ((Int.sub_one_lt_of_le le_rfl).le.trans hn)

theorem inBounds_iff (hd : h.Dated) (hm : h.months ≤ 3500) (hn : h.Fits (n + 1)) (d : ℤ) :
    h.InBounds (n + 1) (Time.ofDay d) ↔ h.firstDay n ≤ d ∧ d < h.firstDay (n + 1) := by
  unfold InBounds
  rw [periodBounds_start hd hm (hn.mono hd n.le_succ), periodBounds_stop hd hm hn,
    Time.before_ofDay, Time.after_ofDay]
  omega

/-- The search finds the period a day lies in. -/
theorem currentPeriod_of_inBounds (hd : h.Dated) (hm : h.months ≤ 3500) (hn : n + 1 ≤ 1000) {d : ℤ}
    (hin : h.InBounds (n + 1) (Time.ofDay d)) : h.currentPeriod (Time.ofDay d) = .ok (n + 1) := by
  have hmono := firstDay_strictMono hd
  obtain ⟨hlo, hhi⟩ := (inBounds_iff hd hm (fits_of_le hd hm hn) d).mp hin
  refine currentPeriod_eq_ok.mpr ⟨?_, (searchPeriod_eq_of_first (by omega) hn hin ?_).symm⟩
  · have hfirst := hmono.monotone n.zero_le
    rw [firstDay_zero] at hfirst
    rw [hd.midnight, Time.before_ofDay]
    omega
  · intro k hk hlt hink
    obtain ⟨j, rfl⟩ := Nat.exists_eq_add_of_le' hk
    obtain ⟨-, hhij⟩ := (inBounds_iff hd hm (fits_of_le hd hm (by omega)) d).mp hink
    have hle := hmono.monotone (by omega : j + 1 ≤ n)
    omega

end HalvingSchedule

/-- Up to the end of the calendar each period ends the day before the next one starts,
each day lies in one of them, and the search finds it among the first 1000. -/
theorem periods_tile (x : Texts) (p : Params) (h : HalvingSchedule)
    (hnew : newHalvingSchedule x p = .ok h) (hm : p.monthsInHalvingPeriod.toNat ≤ 3500) :
    (∀ n, 1 ≤ n → h.Fits n → ¬ (h.periodBounds n).2.Before (h.periodBounds n).1 ∧
      (h.periodBounds (n + 1)).1.nanos = (h.periodBounds n).2.nanos + nanosPerDay) ∧
    (∀ n d, h.Fits n → ¬ (Time.ofDay d).Before h.startDate → d < h.firstDay n →
      ∃! m, 1 ≤ m ∧ h.Fits m ∧ h.InBounds m (Time.ofDay d)) ∧
    ∀ m d, 1 ≤ m → m ≤ 1000 → h.InBounds m (Time.ofDay d) →
      h.currentPeriod (Time.ofDay d) = .ok m := by
  obtain ⟨hd, -, hmonths⟩ := newHalvingSchedule_ok hnew
  have hm' : h.months ≤ 3500 := by
    unfold HalvingSchedule.months
    rw [hmonths]
    omega
  have hmono := HalvingSchedule.firstDay_strictMono hd
  refine ⟨?_, ?_, ?_⟩
  · intro n hn hfits
    obtain ⟨n, rfl⟩ := Nat.exists_eq_add_of_le' hn
    have hlt : h.firstDay n < h.firstDay (n + 1) := hmono n.lt_succ_self
    rw [HalvingSchedule.periodBounds_start hd hm' (hfits.mono hd n.le_succ),
      HalvingSchedule.periodBounds_stop hd hm' hfits, HalvingSchedule.periodBounds_start hd hm' hfits,
      Time.before_ofDay]
    refine ⟨by omega, ?_⟩
    unfold Time.ofDay
    dsimp only
    ring
  · intro n d hfits hstart hlt
    rw [hd.midnight, Time.before_ofDay, ← h.firstDay_zero] at hstart
    obtain ⟨m, ⟨hlo, hhi⟩, hunique⟩ := existsUnique_period hmono (not_lt.mp hstart) hlt
    have hmn : m < n := hmono.lt_iff_lt.mp (hlo.trans_lt hlt)
    have hfm := hfits.mono hd hmn
    refine ⟨m + 1, ⟨by omega, hfm, (HalvingSchedule.inBounds_iff hd hm' hfm d).mpr ⟨hlo, hhi⟩⟩, ?_⟩
    rintro j ⟨hj, hfj, hin⟩
    obtain ⟨j, rfl⟩ := Nat.exists_eq_add_of_le' hj
    rw [hunique j ((HalvingSchedule.inBounds_iff hd hm' hfj d).mp hin)]
  · intro m d h1 hle hin
    obtain ⟨m, rfl⟩ := Nat.exists_eq_add_of_le' h1
    exact HalvingSchedule.currentPeriod_of_inBounds hd hm' hle hin

def defaultSchedule : HalvingSchedule := ⟨Time.ofDay 20291, 48, 21000000000000000000000000⟩

theorem newHalvingSchedule_default :
    newHalvingSchedule decimalTexts defaultParams = .ok defaultSchedule := by decide +kernel

/-- The second period starts on 2029-07-22, the day after the first one ends. -/
theorem periods_tile_default :
    (defaultSchedule.periodBounds 2).1.nanos =
        (defaultSchedule.periodBounds 1).2.nanos + nanosPerDay ∧
      defaultSchedule.currentPeriod (Time.ofDay 21752) = .ok 2 := by
  obtain ⟨htile, _, hfound⟩ := periods_tile decimalTexts defaultParams defaultSchedule
    newHalvingSchedule_default (by decide)
  have hfits : defaultSchedule.Fits 1 := by
    unfold HalvingSchedule.Fits
    decide +kernel
  exact ⟨(htile 1 le_rfl hfits).2, hfound 2 21752 (by decide) (by decide) (by decide +kernel)⟩

/-- The period in which the calendar of a `time.Time` ends, on the 6th of December of
the year 292277024627, ends before it starts. -/
theorem last_period_wraps :
    newHalvingSchedule decimalTexts defaultParams = .ok defaultSchedule ∧
      (defaultSchedule.periodBounds 73069255651).2.Before
        (defaultSchedule.periodBounds 73069255651).1 :=
  ⟨newHalvingSchedule_default, by decide +kernel⟩

end Tsc.Distro
