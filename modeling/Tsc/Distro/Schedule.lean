import Tsc.Distro.Types

/-!
# The halving schedule (`x/distro/keeper/msg_server_mint.go`)

`HalvingSchedule` and its methods, with the 64-bit arithmetic of the source: the
divisor `1 << period` is a `uint64`, a month offset is a `uint64` product turned
into an `int`, and durations are cut off at the ends of an `int64`.

`int(d.Hours()/24)` is the quotient of the duration by a day, truncated towards
zero. The floating point of the source does not show there: the durations are
whole seconds, so a quotient that is not a whole number of days is further from
the next one than the rounding of its 53 bits.
-/

namespace Tsc.Distro

open Go Sdk

structure HalvingSchedule where
  startDate : Time
  monthsPerPeriod : UInt64
  maxSupply : ℤ
  deriving DecidableEq

def parseDate (dateStr : Bytes) : Option Time := parseDateOnly dateStr

def newHalvingSchedule (x : Texts) (params : Params) : Out HalvingSchedule := do
  let startDate ← ofOption
    (fail .errInvalidRequest "invalid distribution start date: %v"
      [.parseError params.distributionStartDate]) (parseDate params.distributionStartDate)
  let maxSupply ← ofOption (fail .errInvalidRequest "invalid max supply" [])
    (x.newIntFromString params.maxSupply)
  failIf (params.monthsInHalvingPeriod = 0)
    (fail .errInvalidRequest "param MonthsInHalvingPeriod must be greater than zero" [])
  .ok ⟨startDate, params.monthsInHalvingPeriod, maxSupply⟩

/-- `1 << period` in `uint64`: zero from 64 on. -/
def divisor (period : ℕ) : ℤ := wrapU64 (2 ^ period)

def daysInRange (start stop : Time) : ℤ := Int.tdiv (stop.sub start) nanosPerDay + 1

def daysSinceStart (start target : Time) : ℤ :=
  let days := Int.tdiv (target.sub start) nanosPerDay
  if days < 0 then 0 else days

namespace HalvingSchedule

variable (h : HalvingSchedule)

def months : ℤ := h.monthsPerPeriod.toNat

def periodAllocation (period : ℕ) : Out ℤ :=
  if period = 0 then .ok 0 else intQuo h.maxSupply (divisor period)

/-- `int((period - 1) * h.MonthsPerPeriod)`. -/
def monthsOffset (period : ℕ) : ℤ := wrap64 (wrapU64 (wrapU64 (period - 1) * h.months))

def periodBounds (period : ℕ) : Time × Time :=
  (h.startDate.addDate 0 (h.monthsOffset period) 0,
    h.startDate.addDate 0 (wrap64 (h.monthsOffset period + wrap64 h.months)) (-1))

/-- The test of the loop in `CurrentPeriod`. -/
def InBounds (period : ℕ) (targetDate : Time) : Prop :=
  ¬ targetDate.Before (h.periodBounds period).1 ∧ ¬ targetDate.After (h.periodBounds period).2

instance (period : ℕ) (t : Time) : Decidable (h.InBounds period t) :=
  inferInstanceAs (Decidable (_ ∧ _))

/-- The loop of `CurrentPeriod` at `period`, with `left` rounds before the cut-off. -/
def searchPeriod (targetDate : Time) : ℕ → ℕ → ℕ
  | 0, period => period
  | left + 1, period =>
    if h.InBounds period targetDate then period else searchPeriod targetDate left (period + 1)

def currentPeriod (targetDate : Time) : Out ℕ := do
  failIf (targetDate.Before h.startDate)
    (fail .errInvalidRequest "target date is before distribution start date" [])
  .ok (h.searchPeriod targetDate 1000 1)

def totalDistributableAt (targetDate : Time) : Out ℤ := do
  let currentPeriod ← h.currentPeriod targetDate
  -- for period := uint64(1); period < currentPeriod; period++
  let total ← forRange (fun total period => h.periodAllocation period >>= intAdd total) 0
    (List.range' 1 (currentPeriod - 1))
  let (periodStart, periodEnd) := h.periodBounds currentPeriod
  let daysInPeriod := daysInRange periodStart periodEnd
  let daysElapsed := daysSinceStart periodStart targetDate + 1
  if 0 < daysInPeriod then do
    let periodAllocation ← h.periodAllocation currentPeriod
    let product ← intMul periodAllocation daysElapsed
    let currentPeriodAmount ← intQuo product daysInPeriod
    intAdd total currentPeriodAmount
  else .ok total

end HalvingSchedule

/-! ### Schedules of accepted parameters -/

/-- What `Validate` guarantees of a schedule: it starts at midnight of a date of
the years 0000 to 9999, the supply is positive with at most 256 bits, and a period
has at least one month. -/
structure HalvingSchedule.Sound (h : HalvingSchedule) : Prop where
  midnight : h.startDate = Time.ofDay h.startDate.dayNumber
  year : 0 ≤ h.startDate.civil.year ∧ h.startDate.civil.year ≤ 9999
  supply : 0 < h.maxSupply ∧ h.maxSupply < intBound
  months_pos : 0 < h.months

/-- What `newHalvingSchedule` itself makes sure of, without `Validate`. -/
structure HalvingSchedule.Dated (h : HalvingSchedule) : Prop where
  midnight : h.startDate = Time.ofDay h.startDate.dayNumber
  year : 0 ≤ h.startDate.civil.year ∧ h.startDate.civil.year ≤ 9999
  months_pos : 0 < h.months

theorem HalvingSchedule.Sound.dated {h : HalvingSchedule} (hs : h.Sound) : h.Dated :=
  ⟨hs.midnight, hs.year, hs.months_pos⟩

theorem newHalvingSchedule_ok {x : Texts} {p : Params} {h : HalvingSchedule}
    (hnew : newHalvingSchedule x p = .ok h) :
    h.Dated ∧ h.maxSupply < intBound ∧ h.monthsPerPeriod = p.monthsInHalvingPeriod := by
  simp only [newHalvingSchedule, parseDate, bind_eq_ok, ofOption_eq_ok, failIf_eq_ok,
    exists_and_left, exists_const, Except.ok.injEq] at hnew
  obtain ⟨start, hstart, maxSupply, hsupply, hmonths, rfl⟩ := hnew
  obtain ⟨c, hc, hday⟩ := (parseDateOnly_eq_some_iff _ _).mp hstart
  obtain ⟨hvalid, hyear⟩ := parseCivil_valid hc
  have hciv : start.civil = c := by
    rw [hday]
    unfold Time.civil
    rw [Time.dayNumber_ofDay]
    exact civilOfDays_daysOfCivil hvalid
  have hnat : p.monthsInHalvingPeriod.toNat ≠ 0 := by
    intro h0
    exact hmonths (UInt64.toNat_inj.mp h0)
  refine ⟨⟨parseDateOnly_ofDay hstart, ?_, ?_⟩, (x.newIntFromString_inRange _ _ hsupply).2, rfl⟩
  · rw [hciv]
    exact hyear
  · unfold HalvingSchedule.months
    dsimp only
    omega

theorem newHalvingSchedule_sound {x : Texts} {p : Params} (hv : p.validate x = .ok ()) :
    ∃ h : HalvingSchedule, newHalvingSchedule x p = .ok h ∧ h.Sound ∧
      parseDateOnly p.distributionStartDate = some h.startDate ∧
      x.newIntFromString p.maxSupply = some h.maxSupply ∧
      h.monthsPerPeriod = p.monthsInHalvingPeriod := by
  obtain ⟨-, ⟨maxSupply, hsupply, hpos⟩, ⟨start, hstart⟩, hmonths⟩ := Params.validate_ok hv
  have hnew : newHalvingSchedule x p = .ok ⟨start, p.monthsInHalvingPeriod, maxSupply⟩ := by
    simp [newHalvingSchedule, parseDate, hstart, hsupply, ofOption, failIf, hmonths]
  obtain ⟨hdated, hbound, -⟩ := newHalvingSchedule_ok hnew
  exact ⟨_, hnew, ⟨hdated.midnight, hdated.year, ⟨hpos, hbound⟩, hdated.months_pos⟩, hstart, hsupply,
    rfl⟩

/-! ### The period search -/

theorem divisor_eq {n : ℕ} (h : n < 64) : divisor n = 2 ^ n := by
  have hlt : (2 : ℤ) ^ n < 2 ^ 64 := pow_lt_pow_right₀ (by norm_num) h
  exact wrapU64_of_range ⟨by positivity, by norm_num at hlt ⊢; exact hlt⟩

theorem divisor_eq_zero {n : ℕ} (h : 64 ≤ n) : divisor n = 0 := by
  obtain ⟨k, rfl⟩ := Nat.exists_eq_add_of_le h
  unfold divisor wrapU64
  rw [pow_add]
  exact Int.mul_emod_right (2 ^ 64) _

namespace HalvingSchedule

variable {h : HalvingSchedule} {t : Time}

theorem searchPeriod_spec (left period : ℕ) :
    period ≤ h.searchPeriod t left period ∧ h.searchPeriod t left period ≤ period + left ∧
      (∀ k, period ≤ k → k < h.searchPeriod t left period → ¬ h.InBounds k t) ∧
      (h.searchPeriod t left period < period + left →
        h.InBounds (h.searchPeriod t left period) t) := by
  induction left generalizing period with
  | zero =>
    refine ⟨le_rfl, le_rfl, ?_, ?_⟩
    · intro k hk hlt
      exact absurd hlt (not_lt.mpr hk)
    · intro hlt
      exact absurd hlt (lt_irrefl _)
  | succ left ih =>
    unfold searchPeriod
    by_cases hin : h.InBounds period t
    · rw [if_pos hin]
      refine ⟨le_rfl, by omega, ?_, fun _ => hin⟩
      intro k hk hlt
      exact absurd hlt (not_lt.mpr hk)
    · rw [if_neg hin]
      obtain ⟨hlo, hhi, hnot, hfound⟩ := ih (period + 1)
      refine ⟨by omega, by omega, ?_, ?_⟩
      · intro k hk hlt
        rcases hk.eq_or_lt with rfl | hk
        · exact hin
        · exact hnot k hk hlt
      · intro hlt
        exact hfound (by omega)

theorem searchPeriod_eq_of_first {n : ℕ} (h1 : 1 ≤ n) (hn : n ≤ 1000) (hin : h.InBounds n t)
    (hfirst : ∀ k, 1 ≤ k → k < n → ¬ h.InBounds k t) : h.searchPeriod t 1000 1 = n := by
  obtain ⟨hlo, hhi, hnot, hfound⟩ := searchPeriod_spec (h := h) (t := t) 1000 1
  rcases lt_trichotomy (h.searchPeriod t 1000 1) n with hlt | heq | hgt
  · exact absurd (hfound (by omega)) (hfirst _ hlo hlt)
  · exact heq
  · exact absurd hin (hnot n h1 hgt)

theorem currentPeriod_eq_ok {n : ℕ} :
    h.currentPeriod t = .ok n ↔ ¬ t.Before h.startDate ∧ n = h.searchPeriod t 1000 1 := by
  simp only [currentPeriod, bind_eq_ok, failIf_eq_ok, Except.ok.injEq, exists_const]
  rw [eq_comm (a := n)]

end HalvingSchedule

end Tsc.Distro
