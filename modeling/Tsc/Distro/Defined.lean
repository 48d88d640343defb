import Tsc.Distro.Schedule
import Tsc.Release.Plan

/-!
# Where the halving schedule is defined

`TotalDistributableAt` divides by `1 << period`, which is zero from period 64 on,
and multiplies a period's allocation by a number of days inside 256 bits. So it
returns exactly on the days of the first 63 periods on which that product fits.
`totalDistributableAt_eq_ok` is that condition together with the value returned.
-/

namespace Tsc.Distro

open Go Sdk Release

namespace HalvingSchedule

variable {h : HalvingSchedule} {t : Time} {n : ℕ}

/-- Days of period `n` up to `t`, that day included. -/
def daysElapsed (h : HalvingSchedule) (n : ℕ) (t : Time) : ℤ :=
  daysSinceStart (h.periodBounds n).1 t + 1

def daysInPeriod (h : HalvingSchedule) (n : ℕ) : ℤ :=
  daysInRange (h.periodBounds n).1 (h.periodBounds n).2

theorem InBounds.days (hin : h.InBounds n t) :
    1 ≤ h.daysElapsed n t ∧ h.daysElapsed n t ≤ h.daysInPeriod n := by
  obtain ⟨hs, he⟩ := hin
  have h0 := Time.sub_nonneg hs
  have hle := Time.sub_le_sub he (h.periodBounds n).1
  have hday : (0 : ℤ) < nanosPerDay := by
    unfold nanosPerDay
    norm_num
  have hmono := Int.ediv_le_ediv hday hle
  have hq := Int.ediv_nonneg h0 hday.le
  unfold daysElapsed daysInPeriod daysSinceStart daysInRange
  dsimp only
  rw [Int.tdiv_eq_ediv_of_nonneg h0, Int.tdiv_eq_ediv_of_nonneg (h0.trans hle),
    if_neg (not_lt.mpr hq)]
  omega

theorem periodAllocation_eq (hs : h.Sound) (h1 : 1 ≤ n) (hn : n ≤ 63) :
    h.periodAllocation n = .ok (h.maxSupply / 2 ^ n) := by
  unfold periodAllocation
  rw [if_neg (by omega), intQuo_eq_ok, divisor_eq (by omega)]
  exact ⟨by positivity, (Int.tdiv_eq_ediv_of_nonneg hs.supply.1.le).symm⟩

theorem periodAllocation_panic (hn : 64 ≤ n) :
    h.periodAllocation n = .error (.panic "division by zero") := by
  unfold periodAllocation intQuo
  rw [if_neg (by omega), if_pos (divisor_eq_zero hn)]

theorem sum_range'_halvings (s : ℤ) (m : ℕ) :
    ((List.range' 1 m).map fun k => s / 2 ^ k).sum = halvings s m := by
  induction m with
  | zero => rfl
  | succ m ih =>
    rw [List.range'_1_concat, List.map_append, List.sum_append, ih, halvings_succ, add_comm 1 m]
    simp

theorem completedLoop_eq (hs : h.Sound) {m : ℕ} (hm : m ≤ 63) :
    forRange (fun total period => h.periodAllocation period >>= intAdd total) 0
      (List.range' 1 m) = .ok (halvings h.maxSupply m) := by
  have hpos := hs.supply.1.le
  have hbody : ∀ k ∈ List.range' 1 m, ∀ total,
      (h.periodAllocation k >>= intAdd total) = intAdd total (h.maxSupply / 2 ^ k) := by
    intro k hk total
    have hk := List.mem_range'_1.mp hk
    rw [periodAllocation_eq hs (by omega) (by omega), ok_bind]
  have hle := halvings_add_le h.maxSupply m
  have hrest : 0 ≤ h.maxSupply / 2 ^ m := Int.ediv_nonneg hpos (by positivity)
  have hsup := hs.supply.2
  rw [forRange_congr hbody, forRange_intAdd_iff _ _ _ le_rfl intBound_pos
    (fun k _ => Int.ediv_nonneg hpos (by positivity)), sum_range'_halvings, zero_add]
  exact ⟨rfl, by omega⟩

theorem completedLoop_lt {m : ℕ} {total : ℤ}
    (hl : forRange (fun total period => h.periodAllocation period >>= intAdd total) 0
      (List.range' 1 m) = .ok total) : m < 64 := by
  by_contra hm
  obtain ⟨u, u', hu⟩ := forRange_mem_ok hl (a := 64) (List.mem_range'_1.mpr (by omega))
  rw [periodAllocation_panic le_rfl] at hu
  cases hu

def distributable (h : HalvingSchedule) (n : ℕ) (t : Time) : ℤ :=
  halvings h.maxSupply (n - 1) +
    h.maxSupply / 2 ^ n * h.daysElapsed n t / h.daysInPeriod n

theorem currentPeriod_inBounds (hn : h.currentPeriod t = .ok n) (hlt : n ≤ 1000) :
    1 ≤ n ∧ h.InBounds n t := by
  obtain ⟨-, hsearch⟩ := currentPeriod_eq_ok.mp hn
  obtain ⟨h1, -, -, hfound⟩ := searchPeriod_spec (h := h) (t := t) 1000 1
  rw [← hsearch] at h1 hfound
  exact ⟨h1, hfound (by omega)⟩

theorem totalDistributableAt_of_period (hn : h.currentPeriod t = .ok n) (hlt : n ≤ 1000) :
    h.totalDistributableAt t =
      forRange (fun total period => h.periodAllocation period >>= intAdd total) 0
          (List.range' 1 (n - 1)) >>= fun total =>
        h.periodAllocation n >>= fun allocation =>
          intMul allocation (h.daysElapsed n t) >>= fun product =>
            intQuo product (h.daysInPeriod n) >>= intAdd total := by
  have hdays := (currentPeriod_inBounds hn hlt).2.days
  have hpos : 0 < daysInRange (h.periodBounds n).1 (h.periodBounds n).2 := by
    change 0 < h.daysInPeriod n
    omega
  unfold totalDistributableAt
  rw [hn, ok_bind]
  dsimp only
  simp only [if_pos hpos]
  rfl

theorem period_le (hn : h.currentPeriod t = .ok n) {total : ℤ}
    (ht : h.totalDistributableAt t = .ok total) : n ≤ 63 := by
  have hlt : n ≤ 64 := by
    unfold totalDistributableAt at ht
    rw [hn, ok_bind] at ht
    obtain ⟨_, hloop, -⟩ := (bind_eq_ok _ _ _).mp ht
    have := completedLoop_lt hloop
    omega
  by_contra h63
  rw [totalDistributableAt_of_period hn (by omega)] at ht
  obtain ⟨_, -, ht⟩ := (bind_eq_ok _ _ _).mp ht
  rw [periodAllocation_panic (by omega), error_bind] at ht
  cases ht

/-- The product is what decides inside the first 63 periods: the sums stay below the
maximal supply. -/
theorem totalDistributableAt_iff_product (hs : h.Sound) (hn : h.currentPeriod t = .ok n)
    (h63 : n ≤ 63) (total : ℤ) :
    h.totalDistributableAt t = .ok total ↔
      h.maxSupply / 2 ^ n * h.daysElapsed n t < intBound ∧ total = h.distributable n t := by
  obtain ⟨h1, hin⟩ := currentPeriod_inBounds hn (by omega)
  obtain ⟨helapsed, hle⟩ := hin.days
  have halloc : 0 ≤ h.maxSupply / 2 ^ n := Int.ediv_nonneg hs.supply.1.le (by positivity)
  have hprod : 0 ≤ h.maxSupply / 2 ^ n * h.daysElapsed n t := mul_nonneg halloc (by omega)
  have hshare : h.maxSupply / 2 ^ n * h.daysElapsed n t / h.daysInPeriod n ≤ h.maxSupply / 2 ^ n :=
    Int.ediv_le_of_le_mul (by omega) (mul_le_mul_of_nonneg_left hle halloc)
  have hshare0 := Int.ediv_nonneg hprod (show 0 ≤ h.daysInPeriod n by omega)
  have hsum := halvings_add_le h.maxSupply n
  have hlast : halvings h.maxSupply n = halvings h.maxSupply (n - 1) + h.maxSupply / 2 ^ n := by
    obtain ⟨m, rfl⟩ := Nat.exists_eq_add_of_le h1
    rw [add_comm 1 m, halvings_succ, Nat.add_sub_cancel]
  have hdone := halvings_nonneg hs.supply.1.le (n - 1)
  have hbound := hs.supply.2
  have hrange : InRange (h.distributable n t) := by
    unfold distributable InRange
    omega
  rw [totalDistributableAt_of_period hn (by omega), completedLoop_eq hs (by omega), ok_bind,
    periodAllocation_eq hs h1 h63, ok_bind]
  simp only [bind_eq_ok, intMul_eq_ok, intQuo_eq_ok, intAdd_eq_ok]
  constructor
  · rintro ⟨_, ⟨⟨-, hfit⟩, rfl⟩, _, ⟨-, rfl⟩, -, rfl⟩
    rw [Int.tdiv_eq_ediv_of_nonneg hprod]
    exact ⟨hfit, rfl⟩
  · rintro ⟨hfit, rfl⟩
    have hpos := intBound_pos
    refine ⟨_, ⟨⟨by omega, hfit⟩, rfl⟩, _, ⟨by omega, rfl⟩, ?_⟩
    rw [Int.tdiv_eq_ediv_of_nonneg hprod]
    exact ⟨hrange, rfl⟩

theorem totalDistributableAt_eq_ok (hs : h.Sound) {total : ℤ} :
    h.totalDistributableAt t = .ok total ↔
      ∃ n, n ≤ 63 ∧ h.currentPeriod t = .ok n ∧
        h.maxSupply / 2 ^ n * h.daysElapsed n t < intBound ∧ total = h.distributable n t := by
  constructor
  · intro ht
    obtain ⟨n, hn, -⟩ := (bind_eq_ok _ _ _).mp ht
    have h63 := period_le hn ht
    exact ⟨n, h63, hn, (totalDistributableAt_iff_product hs hn h63 total).mp ht⟩
  · rintro ⟨n, h63, hn, hr⟩
    exact (totalDistributableAt_iff_product hs hn h63 total).mpr hr

/-! ### Wrap-around, division by zero and overflow -/

/-- `TotalDistributableAt` returns on `t`, and on the way no divisor is zero, no
month offset leaves the `int` range and the product has at most 256 bits. -/
structure Defined (h : HalvingSchedule) (t : Time) : Prop where
  returns : ∃ total, h.totalDistributableAt t = .ok total
  divisors : ∀ n, h.currentPeriod t = .ok n → ∀ k, 1 ≤ k → k ≤ n → divisor k ≠ 0
  offsets : ∀ n, h.currentPeriod t = .ok n → ∀ k : ℕ, 1 ≤ k → k ≤ n →
    h.monthsOffset k = (k - 1) * h.months ∧
      wrap64 (h.monthsOffset k + wrap64 h.months) = k * h.months
  product : ∀ n, h.currentPeriod t = .ok n →
    InRange (h.maxSupply / divisor n * h.daysElapsed n t)

/-- The `n`-th period with its months counted exactly. -/
def InPeriod (h : HalvingSchedule) (n : ℕ) (t : Time) : Prop :=
  ¬ t.Before (h.startDate.addDate 0 ((n - 1) * h.months) 0) ∧
    ¬ t.After (h.startDate.addDate 0 (n * h.months) (-1))

instance (n : ℕ) (t : Time) : Decidable (h.InPeriod n t) := inferInstanceAs (Decidable (_ ∧ _))

/-- `t` lies in one of the first 63 periods, whose end is less than `2 ^ 63` months
after the start, and what the period allocates, times the days elapsed, has at most
256 bits. -/
def Scheduled (h : HalvingSchedule) (t : Time) : Prop :=
  ∃ n : ℕ, 1 ≤ n ∧ n ≤ 63 ∧ n * h.months < 2 ^ 63 ∧
    h.InPeriod n t ∧ (∀ k, 1 ≤ k → k < n → ¬ h.InPeriod k t) ∧
    h.maxSupply / 2 ^ n *
      (daysSinceStart (h.startDate.addDate 0 ((n - 1) * h.months) 0) t + 1) < 2 ^ 256

theorem months_nonneg : 0 ≤ h.months := Int.natCast_nonneg _

theorem offsets_exact {k : ℕ} (h1 : 1 ≤ k) (hk : k * h.months < 2 ^ 63) :
    h.monthsOffset k = (k - 1) * h.months ∧
      wrap64 (h.monthsOffset k + wrap64 h.months) = k * h.months := by
  have h0 := h.months_nonneg
  have hsplit : (k : ℤ) * h.months = (k - 1) * h.months + h.months := by ring
  have hprev : 0 ≤ ((k : ℤ) - 1) * h.months := mul_nonneg (by omega) h0
  have hle : h.months ≤ k * h.months := by omega
  have hoff : h.monthsOffset k = (k - 1) * h.months := by
    unfold monthsOffset
    rcases h0.eq_or_lt with hz | hpos
    · rw [← hz, mul_zero, mul_zero]
      rfl
    · have hk' : (k : ℤ) ≤ k * h.months := le_mul_of_one_le_right (by omega) hpos
      rw [wrapU64_of_range (x := (k : ℤ) - 1) (by omega), wrapU64_of_range (by omega),
        wrap64_of_range (by omega)]
  refine ⟨hoff, ?_⟩
  rw [hoff, wrap64_of_range (x := h.months) (by omega), ← hsplit]
  exact wrap64_of_range (by omega)

theorem periodBounds_exact {k : ℕ} (h1 : 1 ≤ k) (hk : k * h.months < 2 ^ 63) :
    h.periodBounds k = (h.startDate.addDate 0 ((k - 1) * h.months) 0,
      h.startDate.addDate 0 (k * h.months) (-1)) := by
  obtain ⟨hoff, hend⟩ := offsets_exact h1 hk
  unfold periodBounds
  rw [hend, hoff]

theorem inBounds_iff_inPeriod {k : ℕ} (h1 : 1 ≤ k) (hk : k * h.months < 2 ^ 63) :
    h.InBounds k t ↔ h.InPeriod k t := by
  unfold InBounds InPeriod
  rw [periodBounds_exact h1 hk]

theorem mul_months_mono {k : ℕ} (hk : k ≤ n) : k * h.months ≤ n * h.months :=
  mul_le_mul_of_nonneg_right (by omega) h.months_nonneg

theorem Defined.scheduled (hs : h.Sound) (hd : h.Defined t) : h.Scheduled t := by
  obtain ⟨total, ht⟩ := hd.returns
  obtain ⟨n, h63, hn, hfit, -⟩ := (totalDistributableAt_eq_ok hs).mp ht
  obtain ⟨h1, hin⟩ := currentPeriod_inBounds hn (by omega)
  have hmonths : n * h.months < 2 ^ 63 := by
    rw [← (hd.offsets n hn n h1 le_rfl).2]
    have hr := (wrap64_range (h.monthsOffset n + wrap64 h.months)).2
    unfold maxInt64 at hr
    omega
  have hbelow : ∀ k, k ≤ n → k * h.months < 2 ^ 63 := by
    intro k hk
    exact (mul_months_mono hk).trans_lt hmonths
  obtain ⟨-, hsearch⟩ := currentPeriod_eq_ok.mp hn
  obtain ⟨-, -, hnot, -⟩ := searchPeriod_spec (h := h) (t := t) 1000 1
  refine ⟨n, h1, h63, hmonths, (inBounds_iff_inPeriod h1 hmonths).mp hin, ?_, ?_⟩
  · intro k hk hlt
    rw [← inBounds_iff_inPeriod hk (hbelow k hlt.le)]
    exact hnot k hk (by omega)
  · unfold daysElapsed at hfit
    rw [periodBounds_exact h1 hmonths] at hfit
    exact hfit

theorem Scheduled.defined (hs : h.Sound) (hstart : ¬ t.Before h.startDate)
    (hd : h.Scheduled t) : h.Defined t := by
  obtain ⟨n, h1, h63, hmonths, hin, hfirst, hfit⟩ := hd
  have hbelow : ∀ k, k ≤ n → k * h.months < 2 ^ 63 := by
    intro k hk
    exact (mul_months_mono hk).trans_lt hmonths
  have hsearch : h.searchPeriod t 1000 1 = n := by
    refine searchPeriod_eq_of_first h1 (by omega) ((inBounds_iff_inPeriod h1 hmonths).mpr hin) ?_
    intro k hk hlt
    rw [inBounds_iff_inPeriod hk (hbelow k hlt.le)]
    exact hfirst k hk hlt
  have hn : h.currentPeriod t = .ok n := currentPeriod_eq_ok.mpr ⟨hstart, hsearch.symm⟩
  have hfit' : h.maxSupply / 2 ^ n * h.daysElapsed n t < intBound := by
    unfold daysElapsed
    rw [periodBounds_exact h1 hmonths]
    exact hfit
  -- the search has one answer, so the three other parts are about period `n`
  refine ⟨⟨_, (totalDistributableAt_eq_ok hs).mpr ⟨n, h63, hn, hfit', rfl⟩⟩, ?_, ?_, ?_⟩
  · intro m hm k hk hkm
    cases hn.symm.trans hm
    rw [divisor_eq (by omega)]
    positivity
  · intro m hm k hk hkm
    cases hn.symm.trans hm
    exact offsets_exact hk (hbelow k hkm)
  · intro m hm
    cases hn.symm.trans hm
    have hdays := (currentPeriod_inBounds hn (by omega)).2.days
    have hprod : 0 ≤ h.maxSupply / 2 ^ n * h.daysElapsed n t :=
      mul_nonneg (Int.ediv_nonneg hs.supply.1.le (by positivity)) (by omega)
    have hpos := intBound_pos
    rw [divisor_eq (by omega)]
    exact ⟨by omega, hfit'⟩

end HalvingSchedule

/-- Over accepted parameters and days from the start on, the schedule is defined
exactly where `Scheduled` says. -/
theorem schedule_defined_iff (x : Texts) (p : Params) (hv : p.validate x = .ok ()) :
    ∃ h, newHalvingSchedule x p = .ok h ∧ ∀ day, ¬ (Time.ofDay day).Before h.startDate →
      (h.Defined (Time.ofDay day) ↔ h.Scheduled (Time.ofDay day)) := by
  obtain ⟨h, hnew, hs, -⟩ := newHalvingSchedule_sound hv
  refine ⟨h, hnew, ?_⟩
  intro day hstart
  exact ⟨HalvingSchedule.Defined.scheduled hs, HalvingSchedule.Scheduled.defined hs hstart⟩

/-! ### The default parameters -/

def decimalFrom : ℤ → Bytes → Option ℤ
  | acc, [] => some acc
  | acc, b :: bs => if isDigit b then decimalFrom (10 * acc + digitVal b) bs else none

/-- Readings of texts to evaluate the module with: decimal numerals, and addresses
that are their own text. -/
def decimalTexts : Texts where
  accAddressFromBech32 := .ok
  accAddressString := id
  newIntFromString s := (decimalFrom 0 s).filter fun n => InRange n
  newIntFromString_inRange s n h := by simpa using (Option.filter_eq_some_iff.mp h).2

/-- On the first day of its 64th period, 2277-07-22, the schedule of the default
parameters divides by zero. -/
theorem default_schedule_panics :
    defaultParams.validate decimalTexts = .ok () ∧
      ∃ h, newHalvingSchedule decimalTexts defaultParams = .ok h ∧
        ¬ (Time.ofDay 112332).Before h.startDate ∧
        h.totalDistributableAt (Time.ofDay 112332) = .error (.panic "division by zero") := by
  refine ⟨by decide +kernel, ⟨Time.ofDay 20291, 48, 21000000000000000000000000⟩, ?_, ?_, ?_⟩
  · decide +kernel
  · decide +kernel
  · decide +kernel

/-- The day before, the last of the 63rd period, it is defined. -/
theorem schedule_defined_day_before :
    ∃ h, newHalvingSchedule decimalTexts defaultParams = .ok h ∧
      h.Defined (Time.ofDay 112331) := by
  obtain ⟨h, hnew, hiff⟩ := schedule_defined_iff decimalTexts defaultParams (by decide +kernel)
  have hval : newHalvingSchedule decimalTexts defaultParams =
      .ok ⟨Time.ofDay 20291, 48, 21000000000000000000000000⟩ := by decide +kernel
  cases hnew.symm.trans hval
  refine ⟨_, hnew, (hiff 112331 (by decide +kernel)).mpr ⟨63, ?_⟩⟩
  decide +kernel

end Tsc.Distro
