import Tsc.Distro.Periods

/-!
# What the schedule has released by a day

For periods of at most 3500 months, the longest whose days a `time.Duration` holds,
the schedule is a release plan over its periods and `TotalDistributableAt` is the
plan's cumulated release. So its values never decrease, stay within the maximal
supply, and are at the end of a period what the periods up to it allocate.
-/

namespace Tsc.Distro

open Go Sdk Release

namespace HalvingSchedule

variable {h : HalvingSchedule} {n : ℕ}

def plan (h : HalvingSchedule) (hs : h.Sound) : Plan where
  bound := h.firstDay
  bound_strictMono := firstDay_strictMono hs.dated
  amount n := h.maxSupply / 2 ^ (n + 1)
  amount_nonneg _ := Int.ediv_nonneg hs.supply.1.le (by positivity)

theorem plan_length_le (hs : h.Sound) (hm : h.months ≤ 3500) : (h.plan hs).length n ≤ 106751 := by
  have hspan := monthStart_span (monthNumber h.startDate.civil.year h.startDate.civil.month +
    n * h.months) h.monthsPerPeriod.toNat
  have hnext : monthNumber h.startDate.civil.year h.startDate.civil.month + n * h.months +
      h.monthsPerPeriod.toNat = monthNumber h.startDate.civil.year h.startDate.civil.month +
      ((n + 1 : ℕ) : ℤ) * h.months := by
    unfold months
    push_cast
    ring
  rw [hnext] at hspan
  change h.firstDay (n + 1) - h.firstDay n ≤ _
  unfold months at hm
  rw [firstDay_eq, firstDay_eq]
  omega

theorem inBounds_iff_covers (hs : h.Sound) (hm : h.months ≤ 3500) (hn : n < 1000) (d : ℤ) :
    h.InBounds (n + 1) (Time.ofDay d) ↔ (h.plan hs).Covers n d :=
  inBounds_iff hs.dated hm (fits_of_le hs.dated hm hn) d

theorem tdiv_days {m n : ℤ} (hr : 0 ≤ m - n ∧ m - n ≤ 106751) :
    Int.tdiv ((Time.ofDay m).sub (Time.ofDay n)) nanosPerDay = m - n := by
  rw [Time.sub_ofDay hr]
  exact Int.mul_tdiv_cancel _ (by unfold nanosPerDay; norm_num)

theorem distributable_eq_released (hs : h.Sound) (hm : h.months ≤ 3500) (hn : n < 1000) {d : ℤ}
    (hd : (h.plan hs).Covers n d) :
    h.distributable (n + 1) (Time.ofDay d) = (h.plan hs).released n d := by
  obtain ⟨hlo, hhi⟩ := hd
  change h.firstDay n ≤ d at hlo
  change d < h.firstDay (n + 1) at hhi
  have hlen : h.firstDay (n + 1) - h.firstDay n ≤ 106751 := plan_length_le (n := n) hs hm
  have hfits : h.Fits (n + 1) := fits_of_le hs.dated hm hn
  have hstart := periodBounds_start hs.dated hm (hfits.mono hs.dated n.le_succ)
  have helapsed : h.daysElapsed (n + 1) (Time.ofDay d) = d - h.firstDay n + 1 := by
    unfold daysElapsed daysSinceStart
    rw [hstart]
    dsimp only
    rw [tdiv_days (by omega), if_neg (by omega)]
  have hdays : h.daysInPeriod (n + 1) = h.firstDay (n + 1) - h.firstDay n := by
    unfold daysInPeriod daysInRange
    rw [hstart, periodBounds_stop hs.dated hm hfits, tdiv_days (by omega)]
    ring
  unfold distributable
  rw [helapsed, hdays]
  rfl

theorem totalDistributableAt_released (hs : h.Sound) (hm : h.months ≤ 3500) {d v : ℤ}
    (ht : h.totalDistributableAt (Time.ofDay d) = .ok v) :
    ∃ n, (h.plan hs).Covers n d ∧ v = (h.plan hs).released n d := by
  obtain ⟨m, h63, hcur, -, rfl⟩ := (totalDistributableAt_eq_ok hs).mp ht
  obtain ⟨h1, hin⟩ := currentPeriod_inBounds hcur (by omega)
  obtain ⟨n, rfl⟩ := Nat.exists_eq_add_of_le h1
  rw [add_comm] at hin ⊢
  have hcov := (inBounds_iff_covers hs hm (by omega) d).mp hin
  exact ⟨n, hcov, distributable_eq_released hs hm (by omega) hcov⟩

theorem totalDistributableAt_mono (hs : h.Sound) (hm : h.months ≤ 3500) {d e u v : ℤ} (hde : d ≤ e)
    (hu : h.totalDistributableAt (Time.ofDay d) = .ok u)
    (hv : h.totalDistributableAt (Time.ofDay e) = .ok v) : u ≤ v := by
  obtain ⟨_, hd, rfl⟩ := totalDistributableAt_released hs hm hu
  obtain ⟨_, he, rfl⟩ := totalDistributableAt_released hs hm hv
  exact Plan.released_mono hd he hde

theorem totalDistributableAt_le_maxSupply (hs : h.Sound) (hm : h.months ≤ 3500) {d v : ℤ}
    (hv : h.totalDistributableAt (Time.ofDay d) = .ok v) : v ≤ h.maxSupply := by
  obtain ⟨n, hd, rfl⟩ := totalDistributableAt_released hs hm hv
  have hle := Plan.released_le_completed hd
  have hhalf : (h.plan hs).completed (n + 1) + h.maxSupply / 2 ^ (n + 1) ≤ h.maxSupply :=
    halvings_add_le h.maxSupply (n + 1)
  have hrest : 0 ≤ h.maxSupply / 2 ^ (n + 1) := Int.ediv_nonneg hs.supply.1.le (by positivity)
  omega

/-- On the last day of a period the plan has released the whole of its amounts. -/
theorem totalDistributableAt_last (hs : h.Sound) (hm : h.months ≤ 3500) {v : ℤ}
    (hn : h.currentPeriod (h.periodBounds n).2 = .ok n)
    (hv : h.totalDistributableAt (h.periodBounds n).2 = .ok v) :
    n ≤ 63 ∧ v = halvings h.maxSupply n := by
  obtain ⟨m, h63, hm', -, rfl⟩ := (totalDistributableAt_eq_ok hs).mp hv
  cases hn.symm.trans hm'
  refine ⟨h63, ?_⟩
  obtain ⟨h1, -⟩ := currentPeriod_inBounds hn (by omega)
  obtain ⟨n, rfl⟩ := Nat.exists_eq_add_of_le' h1
  have hfits : h.Fits (n + 1) := fits_of_le hs.dated hm (by omega)
  have hlt : h.firstDay n < h.firstDay (n + 1) := firstDay_strictMono hs.dated n.lt_succ_self
  have hcov : (h.plan hs).Covers n (h.firstDay (n + 1) - 1) :=
    ⟨Int.le_sub_one_of_lt hlt, Int.sub_one_lt_of_le le_rfl⟩
  rw [periodBounds_stop hs.dated hm hfits, distributable_eq_released hs hm (by omega) hcov]
  exact Plan.released_last

end HalvingSchedule

/-- The distributable amount never decreases and stays within the maximal supply. On the
last day of period `n` it is what the periods 1 to `n` allocate. -/
theorem distributable_monotone (x : Texts) (p : Params) (h : HalvingSchedule)
    (hnew : newHalvingSchedule x p = .ok h) (hpos : 0 < h.maxSupply)
    (hm : p.monthsInHalvingPeriod.toNat ≤ 3500) :
    (∀ d e u v, d ≤ e → h.totalDistributableAt (Time.ofDay d) = .ok u →
      h.totalDistributableAt (Time.ofDay e) = .ok v → u ≤ v ∧ v ≤ h.maxSupply) ∧
    (∀ n, 1 ≤ n → n ≤ 1000 → h.currentPeriod (h.periodBounds n).2 = .ok n) ∧
    ∀ n v, h.currentPeriod (h.periodBounds n).2 = .ok n →
      h.totalDistributableAt (h.periodBounds n).2 = .ok v →
      ∃ allocation : ℕ → ℤ, (∀ k, 1 ≤ k → k ≤ n → h.periodAllocation k = .ok (allocation k)) ∧
        v = ((List.range' 1 n).map allocation).sum := by
  obtain ⟨hd, hbound, hmonths⟩ := newHalvingSchedule_ok hnew
  have hs : h.Sound := ⟨hd.midnight, hd.year, ⟨hpos, hbound⟩, hd.months_pos⟩
  have hm' : h.months ≤ 3500 := by
    unfold HalvingSchedule.months
    rw [hmonths]
    omega
  refine ⟨?_, ?_, ?_⟩
  · intro d e u v hde hu hv
    exact ⟨HalvingSchedule.totalDistributableAt_mono hs hm' hde hu hv,
      HalvingSchedule.totalDistributableAt_le_maxSupply hs hm' hv⟩
  · intro n h1 hn
    obtain ⟨n, rfl⟩ := Nat.exists_eq_add_of_le' h1
    have hfits := HalvingSchedule.fits_of_le hd hm' hn
    have hlt : h.firstDay n < h.firstDay (n + 1) :=
      HalvingSchedule.firstDay_strictMono hd n.lt_succ_self
    rw [HalvingSchedule.periodBounds_stop hd hm' hfits]
    refine HalvingSchedule.currentPeriod_of_inBounds hd hm' hn ?_
    exact (HalvingSchedule.inBounds_iff hd hm' hfits _).mpr ⟨by omega, by omega⟩
  · intro n v hn hv
    obtain ⟨h63, rfl⟩ := HalvingSchedule.totalDistributableAt_last hs hm' hn hv
    refine ⟨fun k => h.maxSupply / 2 ^ k, ?_, ?_⟩
    · intro k h1 hk
      exact HalvingSchedule.periodAllocation_eq hs h1 (by omega)
    · rw [HalvingSchedule.sum_range'_halvings]

/-- By the end of the first period of the default parameters, half of the supply. -/
theorem distributable_monotone_default :
    ∃ u v, defaultSchedule.totalDistributableAt (Time.ofDay 20291) = .ok u ∧
      defaultSchedule.totalDistributableAt (defaultSchedule.periodBounds 1).2 = .ok v ∧
      u ≤ v ∧ v = 10500000000000000000000000 := by
  obtain ⟨hmono, hlast, hsum⟩ := distributable_monotone decimalTexts defaultParams defaultSchedule
    newHalvingSchedule_default (by decide) (by decide)
  have hfirst : defaultSchedule.totalDistributableAt (Time.ofDay 20291) =
      .ok 7186858316221765913757 := by decide +kernel
  have hend : (defaultSchedule.periodBounds 1).2 = Time.ofDay 21751 := by decide +kernel
  have hok : (defaultSchedule.totalDistributableAt (Time.ofDay 21751)).isOk = true := by
    decide +kernel
  obtain ⟨v, hv⟩ := exists_of_isOk hok
  have hle := (hmono 20291 21751 _ _ (by decide) hfirst hv).1
  rw [← hend] at hv
  obtain ⟨allocation, hallocation, hvalue⟩ := hsum 1 v (hlast 1 le_rfl (by decide)) hv
  have hhalf : defaultSchedule.periodAllocation 1 = .ok 10500000000000000000000000 := by
    decide +kernel
  refine ⟨_, v, hfirst, hv, hle, ?_⟩
  have hone : allocation 1 = 10500000000000000000000000 :=
    Except.ok.inj ((hallocation 1 le_rfl le_rfl).symm.trans hhalf)
  rw [hvalue, ← hone]
  exact List.sum_singleton

end Tsc.Distro
