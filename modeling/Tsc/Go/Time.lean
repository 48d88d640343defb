import Tsc.Go.Calendar
import Tsc.Go.Word
import Tsc.Go.ByteString

/-!
# Instants and dates of Go's `time` package

An instant is its number of nanoseconds since 1970-01-01T00:00:00Z; everything
here is in UTC. `Time.date` follows `time.Date` of Go 1.24 down to its 64-bit
arithmetic, so that a month count far outside the calendar wraps as it does
there; `date_eq` is the calendar meaning inside the range where nothing wraps.
`parseDateOnly` is `time.Parse` with the layout `2006-01-02`, `formatDateOnly` is
`Format` with it.
-/

namespace Tsc.Go

structure Time where
  nanos : ℤ
  deriving Repr, DecidableEq

def nanosPerSecond : ℤ := 1000000000

def nanosPerDay : ℤ := 86400000000000

namespace Time

def Before (t u : Time) : Prop := t.nanos < u.nanos

def After (t u : Time) : Prop := u.nanos < t.nanos

instance (t u : Time) : Decidable (t.Before u) := by unfold Before; infer_instance

instance (t u : Time) : Decidable (t.After u) := by unfold After; infer_instance

def unix (t : Time) : ℤ := t.nanos / nanosPerSecond

/-- `time.Unix(sec, 0)`. -/
def ofUnix (sec : ℤ) : Time := ⟨sec * nanosPerSecond⟩

def dayNumber (t : Time) : ℤ := t.nanos / nanosPerDay

def ofDay (n : ℤ) : Time := ⟨n * nanosPerDay⟩

/-- `t.Truncate(24 * time.Hour)`. -/
def truncateDay (t : Time) : Time := ofDay t.dayNumber

/-- `t.Sub(u)`: a `Duration` is an `int64`, and a difference outside its range
is cut off at its ends. -/
def sub (t u : Time) : ℤ :=
  let d := t.nanos - u.nanos
  if d < minInt64 then minInt64 else if maxInt64 < d then maxInt64 else d

/-- `t.Date()`. -/
def civil (t : Time) : Civil := civilOfDays t.dayNumber

@[simp] theorem dayNumber_ofDay (n : ℤ) : (ofDay n).dayNumber = n := by
  unfold dayNumber ofDay nanosPerDay
  dsimp only
  omega

@[simp] theorem unix_ofDay (n : ℤ) : (ofDay n).unix = 86400 * n := by
  unfold unix ofDay nanosPerDay nanosPerSecond
  dsimp only
  omega

@[simp] theorem before_ofDay (m n : ℤ) : (ofDay m).Before (ofDay n) ↔ m < n := by
  unfold Before ofDay nanosPerDay
  dsimp only
  omega

@[simp] theorem after_ofDay (m n : ℤ) : (ofDay m).After (ofDay n) ↔ n < m := by
  unfold After ofDay nanosPerDay
  dsimp only
  omega

theorem dayNumber_mono {t u : Time} (h : t.nanos ≤ u.nanos) : t.dayNumber ≤ u.dayNumber := by
  unfold dayNumber nanosPerDay
  omega

/-! ### Durations -/

theorem sub_nonneg {t u : Time} (h : ¬ t.Before u) : 0 ≤ t.sub u := by
  unfold Before at h
  unfold sub minInt64 maxInt64
  dsimp only
  split_ifs <;> omega

theorem sub_le_sub {t u : Time} (h : ¬ t.After u) (s : Time) : t.sub s ≤ u.sub s := by
  unfold After at h
  unfold sub minInt64 maxInt64
  dsimp only
  split_ifs <;> omega

theorem sub_ofDay {m n : ℤ} (h : 0 ≤ m - n ∧ m - n ≤ 106751) :
    (ofDay m).sub (ofDay n) = (m - n) * nanosPerDay := by
  unfold sub ofDay minInt64 maxInt64 nanosPerDay
  dsimp only
  split_ifs <;> omega

/-! ### `time.Date` -/

def absoluteYears : ℤ := 292277022400

/-- Seconds from the absolute epoch, the first of March of year `-absoluteYears`,
to the zero time, negated. -/
def absoluteToInternal : ℤ := -9223371966606163200

def unixToInternal : ℤ := 62135596800

/-- `dateToAbsDays`: days since the absolute epoch, in `uint64` arithmetic. -/
def dateToAbsDays (year month day : ℤ) : ℤ :=
  let janFeb := if month < 3 then 1 else 0
  let amonth := month + 12 * janFeb
  let y := wrapU64 (year - janFeb + absoluteYears)
  let ayday := (979 * amonth - 2919) / 32
  let century := y / 100
  let cyear := y % 100
  let cday := 1461 * cyear / 4
  let centurydays := wrapU64 (146097 * century) / 4
  wrapU64 (centurydays + (cday + ayday + day - 1))

/-- `time.Date(year, month, day, …, time.UTC)`; `clock` is the time of day in
nanoseconds. Months overflow into years, and the seconds since the zero time are
an `int64`. -/
def date (year month day clock : ℤ) : Time :=
  let m := wrap64 (month - 1)
  let y := wrap64 (year + m / 12)
  let internal := wrap64
    (dateToAbsDays y (m % 12 + 1) day * 86400 + clock / nanosPerSecond + absoluteToInternal)
  ⟨(internal - unixToInternal) * nanosPerSecond + clock % nanosPerSecond⟩

def addDate (t : Time) (years months days : ℤ) : Time :=
  let c := t.civil
  date (wrap64 (c.year + years)) (wrap64 (c.month + months)) (wrap64 (c.day + days))
    (t.nanos % nanosPerDay)

theorem centuryDays_eq (y : ℤ) :
    146097 * ((y + absoluteYears) / 100) / 4 + 1461 * ((y + absoluteYears) % 100) / 4 =
      yearStart y + 106751990353932 := by
  obtain ⟨c, r, hr0, hr, rfl⟩ : ∃ c r, 0 ≤ r ∧ r < 100 ∧ y = 100 * c + r :=
    ⟨y / 100, y % 100, by omega, by omega, by omega⟩
  have hc : (100 * c + r + absoluteYears) / 100 = c + 2922770224 := by
    unfold absoluteYears
    omega
  have hm : (100 * c + r + absoluteYears) % 100 = r := by
    unfold absoluteYears
    omega
  have h100 : (100 * c + r) / 100 = c := by omega
  have h400 : (100 * c + r) / 400 = c / 4 := by omega
  have h4 : (100 * c + r) / 4 = 25 * c + r / 4 := by omega
  have hq : 146097 * (c + 2922770224) / 4 = 36524 * c + c / 4 + 106751990353932 := by omega
  unfold yearStart
  rw [hc, hm, h100, h400, h4, hq]
  omega

theorem dateToAbsDays_eq (y m d : ℤ) (hy : -1000000000 ≤ y ∧ y ≤ 400000000000)
    (hm : 1 ≤ m ∧ m ≤ 12) (hd : -1000000000 ≤ d ∧ d ≤ 1000000000) :
    dateToAbsDays y m d = daysOfCivil y m d + 106751991073400 := by
  -- `mp` is the month of the March year `ym`
  obtain ⟨ym, mp, hmp, hym, hnum⟩ : ∃ ym mp, (0 ≤ mp ∧ mp < 12) ∧
      (m < 3 ∧ ym = y - 1 ∧ mp = m + 9 ∨ ¬ m < 3 ∧ ym = y ∧ mp = m - 3) ∧
      monthNumber y m = 12 * ym + mp := by
    rcases lt_or_ge m 3 with h | h
    · exact ⟨y - 1, m + 9, by omega, by omega, by unfold monthNumber; omega⟩
    · exact ⟨y, m - 3, by omega, by omega, by unfold monthNumber; omega⟩
  have hay : (979 * (mp + 3) - 2919) / 32 = (153 * mp + 2) / 5 := by
    have hc : mp = 0 ∨ mp = 1 ∨ mp = 2 ∨ mp = 3 ∨ mp = 4 ∨ mp = 5 ∨ mp = 6 ∨ mp = 7 ∨ mp = 8 ∨
      mp = 9 ∨ mp = 10 ∨ mp = 11 := by omega
    rcases hc with rfl | rfl | rfl | rfl | rfl | rfl | rfl | rfl | rfl | rfl | rfl | rfl <;> rfl
  have hu : wrapU64 (ym + absoluteYears) = ym + absoluteYears :=
    wrapU64_of_range (by unfold absoluteYears; omega)
  have hc : wrapU64 (146097 * ((ym + absoluteYears) / 100)) =
      146097 * ((ym + absoluteYears) / 100) :=
    wrapU64_of_range (by unfold absoluteYears; omega)
  have hsum := centuryDays_eq ym
  have hyb : -1000000000000 ≤ yearStart ym ∧ yearStart ym ≤ 200000000000000 := by
    unfold yearStart
    omega
  have hmain : wrapU64 (146097 * ((ym + absoluteYears) / 100) / 4 +
      (1461 * ((ym + absoluteYears) % 100) / 4 + (153 * mp + 2) / 5 + d - 1)) =
      daysOfCivil y m d + 106751991073400 := by
    rw [wrapU64_of_range (by omega)]
    unfold daysOfCivil
    rw [hnum, monthStart_split ym mp hmp.1 hmp.2]
    omega
  unfold dateToAbsDays
  dsimp only
  rcases hym with ⟨h3, hy', hm'⟩ | ⟨h3, hy', hm'⟩
  · rw [if_pos h3, ← hy', hu, hc, show m + 12 * 1 = mp + 3 by omega, hay]
    exact hmain
  · subst hy'
    rw [if_neg h3, sub_zero, hu, hc, show m + 12 * 0 = mp + 3 by omega, hay]
    exact hmain

/-- The last day whose first second, counted from year 1, is an `int64`. -/
def lastDay : ℤ := 106751990448138

/-- The calendar meaning of `time.Date`, up to where the seconds leave an `int64`. -/
theorem date_of_fits (year month day clock : ℤ) (hy : -100000000 ≤ year ∧ year ≤ 10000000000)
    (hm : -1000000000 ≤ month ∧ month ≤ 4000000000000)
    (hd : -1000000000 ≤ day ∧ day ≤ 1000000000) (hc : 0 ≤ clock ∧ clock < nanosPerDay)
    (hlast : daysOfCivil year month day * 86400 + clock / nanosPerSecond ≤ lastDay * 86400) :
    date year month day clock = ⟨daysOfCivil year month day * nanosPerDay + clock⟩ := by
  have hw : wrap64 (month - 1) = month - 1 :=
    wrap64_of_range (by omega)
  have hyw : wrap64 (year + (month - 1) / 12) = year + (month - 1) / 12 :=
    wrap64_of_range (by omega)
  have habs := dateToAbsDays_eq (year + (month - 1) / 12) ((month - 1) % 12 + 1) day
    (by omega) (by omega) hd
  have hnum : monthNumber (year + (month - 1) / 12) ((month - 1) % 12 + 1) =
      monthNumber year month := by
    unfold monthNumber
    omega
  have hdays : daysOfCivil (year + (month - 1) / 12) ((month - 1) % 12 + 1) day =
      daysOfCivil year month day := by
    unfold daysOfCivil
    rw [hnum]
  have hbound : -40000000000000 ≤ daysOfCivil year month day := by
    unfold daysOfCivil monthStart yearStart monthNumber
    omega
  unfold nanosPerDay at hc
  unfold nanosPerSecond lastDay at hlast
  unfold date nanosPerSecond nanosPerDay unixToInternal absoluteToInternal
  dsimp only
  rw [hw, hyw, habs, hdays, wrap64_of_range (by omega)]
  congr 1
  omega

theorem daysOfCivil_bound (year month day : ℤ) (hy : -100000000 ≤ year ∧ year ≤ 10000000000)
    (hm : -1000000000 ≤ month ∧ month ≤ 1000000000000)
    (hd : -1000000000 ≤ day ∧ day ≤ 1000000000) : daysOfCivil year month day ≤ 40000000000000 := by
  unfold daysOfCivil monthStart yearStart monthNumber
  omega

theorem date_eq (year month day clock : ℤ) (hy : -100000000 ≤ year ∧ year ≤ 10000000000)
    (hm : -1000000000 ≤ month ∧ month ≤ 1000000000000)
    (hd : -1000000000 ≤ day ∧ day ≤ 1000000000) (hc : 0 ≤ clock ∧ clock < nanosPerDay) :
    date year month day clock = ⟨daysOfCivil year month day * nanosPerDay + clock⟩ := by
  have hbound := daysOfCivil_bound year month day hy hm hd
  apply date_of_fits _ _ _ _ hy (by omega) hd hc
  unfold nanosPerDay at hc
  unfold nanosPerSecond lastDay
  omega

theorem addDate_of_fits (n years months days : ℤ)
    (hn : -100000000 ≤ (civilOfDays n).year ∧ (civilOfDays n).year ≤ 1000000000)
    (hy : 0 ≤ years ∧ years ≤ 1000000000) (hm : 0 ≤ months ∧ months ≤ 3900000000000)
    (hd : -1000 ≤ days ∧ days ≤ 1000)
    (hlast : daysOfCivil ((civilOfDays n).year + years) ((civilOfDays n).month + months)
      ((civilOfDays n).day + days) ≤ lastDay) :
    (ofDay n).addDate years months days =
      ofDay (daysOfCivil ((civilOfDays n).year + years) ((civilOfDays n).month + months)
        ((civilOfDays n).day + days)) := by
  obtain ⟨⟨hm1, hm12, hd1, hd2⟩, _⟩ := civilOfDays_spec n
  have hl := monthLen_bounds (monthNumber (civilOfDays n).year (civilOfDays n).month)
  have hclock : (ofDay n).nanos % nanosPerDay = 0 := by
    unfold ofDay nanosPerDay
    dsimp only
    omega
  have hciv : (ofDay n).civil = civilOfDays n := by
    unfold civil
    rw [dayNumber_ofDay]
  unfold addDate
  dsimp only
  rw [hciv, hclock, wrap64_of_range (by omega),
    wrap64_of_range (by omega),
    wrap64_of_range (by omega),
    date_of_fits _ _ _ _ (by omega) (by omega) (by omega) (by unfold nanosPerDay; omega)
      (by unfold nanosPerSecond; omega)]
  unfold ofDay
  simp

theorem addDate_ofDay (n years months days : ℤ)
    (hn : -100000000 ≤ (civilOfDays n).year ∧ (civilOfDays n).year ≤ 1000000000)
    (hy : 0 ≤ years ∧ years ≤ 1000000000) (hm : 0 ≤ months ∧ months ≤ 100000000000)
    (hd : -1000 ≤ days ∧ days ≤ 1000) :
    (ofDay n).addDate years months days =
      ofDay (daysOfCivil ((civilOfDays n).year + years) ((civilOfDays n).month + months)
        ((civilOfDays n).day + days)) := by
  obtain ⟨⟨hm1, hm12, hd1, hd2⟩, _⟩ := civilOfDays_spec n
  have hl := monthLen_bounds (monthNumber (civilOfDays n).year (civilOfDays n).month)
  apply addDate_of_fits n years months days hn hy (by omega) hd
  refine (daysOfCivil_bound _ _ _ (by omega) (by omega) (by omega)).trans ?_
  unfold lastDay
  omega

end Time

/-! ### `time.Parse(time.DateOnly, ·)` -/

def isDigit (b : Byte) : Prop := 48 ≤ b.val ∧ b.val ≤ 57

instance (b : Byte) : Decidable (isDigit b) := by unfold isDigit; infer_instance

def digitVal (b : Byte) : ℤ := (b.val : ℤ) - 48

/-- The date written `yyyy-mm-dd`: four, two and two digits, the month and the
day within their ranges, and nothing else. -/
def parseCivil : Bytes → Option Civil
  | [y1, y2, y3, y4, s1, m1, m2, s2, d1, d2] =>
    let year := 1000 * digitVal y1 + 100 * digitVal y2 + 10 * digitVal y3 + digitVal y4
    let month := 10 * digitVal m1 + digitVal m2
    let day := 10 * digitVal d1 + digitVal d2
    if (isDigit y1 ∧ isDigit y2 ∧ isDigit y3 ∧ isDigit y4) ∧ s1 = 45 ∧
        (isDigit m1 ∧ isDigit m2) ∧ s2 = 45 ∧ (isDigit d1 ∧ isDigit d2) ∧
        (1 ≤ month ∧ month ≤ 12) ∧ 1 ≤ day ∧ day ≤ daysIn month year
    then some ⟨year, month, day⟩
    else none
  | _ => none

def parseDateOnly (s : Bytes) : Option Time :=
  (parseCivil s).map fun c => Time.date c.year c.month c.day 0

theorem parseCivil_eq_some {s : Bytes} {c : Civil} (h : parseCivil s = some c) :
    ∃ y1 y2 y3 y4 m1 m2 d1 d2 : Byte,
      s = [y1, y2, y3, y4, 45, m1, m2, 45, d1, d2] ∧
      (isDigit y1 ∧ isDigit y2 ∧ isDigit y3 ∧ isDigit y4) ∧
      (isDigit m1 ∧ isDigit m2) ∧ (isDigit d1 ∧ isDigit d2) ∧
      c.year = 1000 * digitVal y1 + 100 * digitVal y2 + 10 * digitVal y3 + digitVal y4 ∧
      c.month = 10 * digitVal m1 + digitVal m2 ∧ c.day = 10 * digitVal d1 + digitVal d2 ∧
      c.Valid := by
  unfold parseCivil at h
  split at h
  · rename_i y1 y2 y3 y4 s1 m1 m2 s2 d1 d2
    dsimp only at h
    split_ifs at h with hc
    obtain ⟨hy, rfl, hm, rfl, hd, ⟨hm1, hm12⟩, hd1, hd2⟩ := hc
    cases h
    refine ⟨y1, y2, y3, y4, m1, m2, d1, d2, rfl, hy, hm, hd, rfl, rfl, rfl, hm1, hm12, hd1, ?_⟩
    dsimp only
    rw [monthLen_eq_daysIn _ _ hm1 hm12]
    exact hd2
  · cases h

theorem parseCivil_valid {s : Bytes} {c : Civil} (h : parseCivil s = some c) :
    c.Valid ∧ 0 ≤ c.year ∧ c.year ≤ 9999 := by
  obtain ⟨y1, y2, y3, y4, m1, m2, d1, d2, -, hy, -, -, hyear, -, -, hv⟩ := parseCivil_eq_some h
  unfold isDigit at hy
  unfold digitVal at hyear
  exact ⟨hv, by omega, by omega⟩

theorem digits2_lt (a b a' b' : Byte) (h : isDigit a ∧ isDigit b) (h' : isDigit a' ∧ isDigit b') :
    ([a, b] : Bytes) < [a', b'] ↔
      10 * digitVal a + digitVal b < 10 * digitVal a' + digitVal b' := by
  unfold isDigit at h h'
  unfold digitVal
  simp only [List.cons_lt_cons_iff, Fin.lt_def, Fin.ext_iff, List.not_lt_nil, and_false, or_false]
  omega

theorem digits4_lt (a b c d a' b' c' d' : Byte)
    (h : isDigit a ∧ isDigit b ∧ isDigit c ∧ isDigit d)
    (h' : isDigit a' ∧ isDigit b' ∧ isDigit c' ∧ isDigit d') :
    ([a, b, c, d] : Bytes) < [a', b', c', d'] ↔
      1000 * digitVal a + 100 * digitVal b + 10 * digitVal c + digitVal d <
        1000 * digitVal a' + 100 * digitVal b' + 10 * digitVal c' + digitVal d' := by
  unfold isDigit at h h'
  unfold digitVal
  simp only [List.cons_lt_cons_iff, Fin.lt_def, Fin.ext_iff, List.not_lt_nil, and_false, or_false]
  omega

theorem parseCivil_lt_iff {s s' : Bytes} {c c' : Civil} (h : parseCivil s = some c)
    (h' : parseCivil s' = some c') :
    s < s' ↔ daysOfCivil c.year c.month c.day < daysOfCivil c'.year c'.month c'.day := by
  obtain ⟨y1, y2, y3, y4, m1, m2, d1, d2, rfl, hy, hm, hd, ey, em, ed, hv⟩ := parseCivil_eq_some h
  obtain ⟨y1', y2', y3', y4', m1', m2', d1', d2', rfl, hy', hm', hd', ey', em', ed', hv'⟩ :=
    parseCivil_eq_some h'
  rw [daysOfCivil_lt_iff hv hv']
  have hy4 := digits4_lt y1 y2 y3 y4 y1' y2' y3' y4' hy hy'
  have hy4' := digits4_lt y1' y2' y3' y4' y1 y2 y3 y4 hy' hy
  have hm2 := digits2_lt m1 m2 m1' m2' hm hm'
  have hm2' := digits2_lt m1' m2' m1 m2 hm' hm
  have hd2 := digits2_lt d1 d2 d1' d2' hd hd'
  rw [← ey, ← ey'] at hy4 hy4'
  rw [← em, ← em'] at hm2 hm2'
  rw [← ed, ← ed'] at hd2
  -- frame the text as year, dash, month, dash, day
  have hframe : ([y1, y2, y3, y4, 45, m1, m2, 45, d1, d2] : Bytes) <
        [y1', y2', y3', y4', 45, m1', m2', 45, d1', d2'] ↔
      ([y1, y2, y3, y4] : Bytes) < [y1', y2', y3', y4'] ∨
        ([y1, y2, y3, y4] : Bytes) = [y1', y2', y3', y4'] ∧
        (([m1, m2] : Bytes) < [m1', m2'] ∨
          ([m1, m2] : Bytes) = [m1', m2'] ∧ ([d1, d2] : Bytes) < [d1', d2']) := by
    have e1 := append_lt_append_iff [y1, y2, y3, y4] [y1', y2', y3', y4']
      (45 :: [m1, m2, 45, d1, d2]) (45 :: [m1', m2', 45, d1', d2']) rfl
    have e2 := append_left_lt_iff [45] [m1, m2, 45, d1, d2] [m1', m2', 45, d1', d2']
    have e3 := append_lt_append_iff [m1, m2] [m1', m2'] [45, d1, d2] [45, d1', d2'] rfl
    have e4 := append_left_lt_iff [45] [d1, d2] [d1', d2']
    simp only [List.cons_append, List.nil_append] at e1 e2 e3 e4
    rw [e1, e2, e3, e4]
  have hyeq : ([y1, y2, y3, y4] : Bytes) = [y1', y2', y3', y4'] ↔ c.year = c'.year := by
    constructor
    · intro he
      have h1 := hy4.not.mp (by rw [he]; exact lt_irrefl _)
      have h2 := hy4'.not.mp (by rw [he]; exact lt_irrefl _)
      omega
    · intro he
      exact le_antisymm (not_lt.mp (hy4'.not.mpr (by omega))) (not_lt.mp (hy4.not.mpr (by omega)))
  have hmeq : ([m1, m2] : Bytes) = [m1', m2'] ↔ c.month = c'.month := by
    constructor
    · intro he
      have h1 := hm2.not.mp (by rw [he]; exact lt_irrefl _)
      have h2 := hm2'.not.mp (by rw [he]; exact lt_irrefl _)
      omega
    · intro he
      exact le_antisymm (not_lt.mp (hm2'.not.mpr (by omega))) (not_lt.mp (hm2.not.mpr (by omega)))
  rw [hframe, hy4, hyeq, hm2, hmeq, hd2]

theorem parseDateOnly_eq_some_iff (s : Bytes) (t : Time) :
    parseDateOnly s = some t ↔
      ∃ c, parseCivil s = some c ∧ t = Time.ofDay (daysOfCivil c.year c.month c.day) := by
  unfold parseDateOnly
  rw [Option.map_eq_some_iff]
  have hdate : ∀ c, parseCivil s = some c →
      Time.date c.year c.month c.day 0 = Time.ofDay (daysOfCivil c.year c.month c.day) := by
    intro c hc
    obtain ⟨⟨h1, h2, h3, h4⟩, h5, h6⟩ := parseCivil_valid hc
    have hl := monthLen_bounds (monthNumber c.year c.month)
    rw [Time.date_eq _ _ _ _ (by omega) (by omega) (by omega) (by unfold nanosPerDay; omega)]
    simp [Time.ofDay]
  constructor
  · rintro ⟨c, hc, rfl⟩
    exact ⟨c, hc, hdate c hc⟩
  · rintro ⟨c, hc, rfl⟩
    exact ⟨c, hc, hdate c hc⟩

theorem parseDateOnly_ofDay {s : Bytes} {t : Time} (h : parseDateOnly s = some t) :
    t = Time.ofDay t.dayNumber := by
  obtain ⟨c, _, rfl⟩ := (parseDateOnly_eq_some_iff s t).mp h
  rw [Time.dayNumber_ofDay]

theorem parseDateOnly_before_iff {s s' : Bytes} {t t' : Time} (h : parseDateOnly s = some t)
    (h' : parseDateOnly s' = some t') : t.Before t' ↔ t.dayNumber < t'.dayNumber := by
  rw [parseDateOnly_ofDay h, parseDateOnly_ofDay h', Time.before_ofDay, Time.dayNumber_ofDay,
    Time.dayNumber_ofDay]

/-- Texts of an earlier and a later date differ. -/
theorem parseDateOnly_ne {s s' : Bytes} {t t' : Time} (h : parseDateOnly s = some t)
    (h' : parseDateOnly s' = some t') (hlt : t.dayNumber < t'.dayNumber) : s ≠ s' := by
  intro heq
  rw [heq, h'] at h
  cases h
  exact lt_irrefl _ hlt

theorem parseDateOnly_range {s : Bytes} {t : Time} (h : parseDateOnly s = some t) :
    -719600 ≤ t.dayNumber ∧ t.dayNumber ≤ 2933000 := by
  obtain ⟨c, hc, rfl⟩ := (parseDateOnly_eq_some_iff s t).mp h
  obtain ⟨⟨h1, h2, h3, h4⟩, h5, h6⟩ := parseCivil_valid hc
  have hl := monthLen_bounds (monthNumber c.year c.month)
  rw [Time.dayNumber_ofDay]
  unfold daysOfCivil monthStart yearStart monthNumber at *
  omega

/-- The byte-wise order of accepted texts is chronological. -/
theorem parseDateOnly_lt_iff {s s' : Bytes} {t t' : Time} (h : parseDateOnly s = some t)
    (h' : parseDateOnly s' = some t') : s < s' ↔ t.dayNumber < t'.dayNumber := by
  obtain ⟨c, hc, rfl⟩ := (parseDateOnly_eq_some_iff s t).mp h
  obtain ⟨c', hc', rfl⟩ := (parseDateOnly_eq_some_iff s' t').mp h'
  rw [parseCivil_lt_iff hc hc', Time.dayNumber_ofDay, Time.dayNumber_ofDay]

theorem parseDateOnly_injective {s s' : Bytes} {t : Time} (h : parseDateOnly s = some t)
    (h' : parseDateOnly s' = some t) : s = s' := by
  rcases lt_trichotomy s s' with hlt | heq | hlt
  · rw [parseDateOnly_lt_iff h h'] at hlt
    omega
  · exact heq
  · rw [parseDateOnly_lt_iff h' h] at hlt
    omega

/-! ### `Format(time.DateOnly)` -/

def digitByte (n : ℕ) : Byte := Fin.ofNat 256 (48 + n)

/-- `appendInt(nil, x, width)`: in decimal, padded with zeros up to the width. -/
def appendInt (x : ℤ) (width : ℕ) : Bytes :=
  let u := x.natAbs
  let sign := if x < 0 then [45] else []
  if width = 2 ∧ u < 100 then sign ++ [digitByte (u / 10), digitByte (u % 10)]
  else if width = 4 ∧ u < 10000 then
    sign ++ [digitByte (u / 1000), digitByte (u / 100 % 10), digitByte (u / 10 % 10),
      digitByte (u % 10)]
  else
    let digits := ((10).digits u).reverse.map digitByte
    sign ++ List.replicate (width - digits.length) 48 ++ digits

def formatDateOnly (t : Time) : Bytes :=
  let c := t.civil
  appendInt c.year 4 ++ [45] ++ appendInt c.month 2 ++ [45] ++ appendInt c.day 2

theorem digitByte_eq {b : Byte} (hb : isDigit b) {n : ℕ} (hn : (n : ℤ) = digitVal b) :
    digitByte n = b := by
  have hlt := b.isLt
  unfold isDigit at hb
  unfold digitVal at hn
  apply Fin.ext
  show (48 + n) % 256 = b.val
  omega

theorem digitVal_range {b : Byte} (hb : isDigit b) : 0 ≤ digitVal b ∧ digitVal b ≤ 9 := by
  unfold isDigit at hb
  unfold digitVal
  omega

theorem appendInt_two {a b : Byte} (h : isDigit a ∧ isDigit b) {x : ℤ}
    (hx : x = 10 * digitVal a + digitVal b) : appendInt x 2 = [a, b] := by
  have ha := digitVal_range h.1
  have hb := digitVal_range h.2
  have hsign : ¬ x < 0 := by omega
  have hwidth : x.natAbs < 100 := by omega
  simp only [appendInt, if_neg hsign, hwidth, and_self, if_true, List.nil_append]
  rw [digitByte_eq h.1 (by omega), digitByte_eq h.2 (by omega)]

theorem appendInt_four {a b c d : Byte} (h : isDigit a ∧ isDigit b ∧ isDigit c ∧ isDigit d)
    {x : ℤ} (hx : x = 1000 * digitVal a + 100 * digitVal b + 10 * digitVal c + digitVal d) :
    appendInt x 4 = [a, b, c, d] := by
  have ha := digitVal_range h.1
  have hb := digitVal_range h.2.1
  have hc := digitVal_range h.2.2.1
  have hd := digitVal_range h.2.2.2
  have hsign : ¬ x < 0 := by omega
  have hwidth : x.natAbs < 10000 := by omega
  have htwo : ¬ (4 = 2 ∧ x.natAbs < 100) := by omega
  simp only [appendInt, if_neg hsign, if_neg htwo, hwidth, and_self, if_true, List.nil_append]
  rw [digitByte_eq h.1 (by omega), digitByte_eq h.2.1 (by omega), digitByte_eq h.2.2.1 (by omega),
    digitByte_eq h.2.2.2 (by omega)]

/-- A parsed date is written back as it was. -/
theorem formatDateOnly_of_parse {s : Bytes} {t : Time} (h : parseDateOnly s = some t) :
    formatDateOnly t = s := by
  obtain ⟨c, hc, ht⟩ := (parseDateOnly_eq_some_iff s t).mp h
  obtain ⟨y1, y2, y3, y4, m1, m2, d1, d2, hs, hy, hm, hd, ey, em, ed, hv⟩ := parseCivil_eq_some hc
  have hciv : t.civil = c := by
    unfold Time.civil
    rw [ht, Time.dayNumber_ofDay, civilOfDays_daysOfCivil hv]
  unfold formatDateOnly
  dsimp only
  rw [hciv, appendInt_four hy ey, appendInt_two hm em, appendInt_two hd ed, hs]
  rfl

theorem isDigit_digitByte {n : ℕ} (h : n ≤ 9) : isDigit (digitByte n) := by
  have hval : (digitByte n).val = 48 + n := Nat.mod_eq_of_lt (by omega)
  unfold isDigit
  omega

theorem digitVal_digitByte {n : ℕ} (h : n ≤ 9) : digitVal (digitByte n) = n := by
  have hval : (digitByte n).val = 48 + n := Nat.mod_eq_of_lt (by omega)
  unfold digitVal
  omega

theorem two_digits {x : ℤ} (h : 0 ≤ x ∧ x ≤ 99) :
    ∃ a b, (isDigit a ∧ isDigit b) ∧ x = 10 * digitVal a + digitVal b := by
  have hdigit : x.natAbs / 10 ≤ 9 ∧ x.natAbs % 10 ≤ 9 := by omega
  refine ⟨_, _, ⟨isDigit_digitByte hdigit.1, isDigit_digitByte hdigit.2⟩, ?_⟩
  rw [digitVal_digitByte hdigit.1, digitVal_digitByte hdigit.2]
  omega

theorem four_digits {x : ℤ} (h : 0 ≤ x ∧ x ≤ 9999) :
    ∃ a b c d, (isDigit a ∧ isDigit b ∧ isDigit c ∧ isDigit d) ∧
      x = 1000 * digitVal a + 100 * digitVal b + 10 * digitVal c + digitVal d := by
  obtain ⟨a, b, hab, hhigh⟩ := two_digits (x := x / 100) (by omega)
  obtain ⟨c, d, hcd, hlow⟩ := two_digits (x := x % 100) (by omega)
  exact ⟨a, b, c, d, ⟨hab.1, hab.2, hcd⟩, by omega⟩

theorem civilOfDays_year_digits {n : ℤ} (h : -719000 ≤ n ∧ n ≤ 2932000) :
    0 ≤ (civilOfDays n).year ∧ (civilOfDays n).year ≤ 9999 := by
  obtain ⟨⟨h1, h2, h3, h4⟩, hd⟩ := civilOfDays_spec n
  have hlen := monthLen_bounds (monthNumber (civilOfDays n).year (civilOfDays n).month)
  unfold daysOfCivil monthStart yearStart monthNumber at hd
  omega

/-- A date of the years with four digits is read back as it was. -/
theorem parseDateOnly_formatDateOnly {n : ℤ}
    (h : 0 ≤ (civilOfDays n).year ∧ (civilOfDays n).year ≤ 9999) :
    parseDateOnly (formatDateOnly (Time.ofDay n)) = some (Time.ofDay n) := by
  obtain ⟨hv, hn⟩ := civilOfDays_spec n
  have hlen := monthLen_bounds (monthNumber (civilOfDays n).year (civilOfDays n).month)
  obtain ⟨y1, y2, y3, y4, hy, ey⟩ := four_digits h
  have hrange := hv
  obtain ⟨hm1, hm12, hd1, hd2⟩ := hrange
  obtain ⟨m1, m2, hm, em⟩ := two_digits (x := (civilOfDays n).month) (by omega)
  obtain ⟨d1, d2, hd, ed⟩ := two_digits (x := (civilOfDays n).day) (by omega)
  have hciv : (Time.ofDay n).civil = civilOfDays n := by
    unfold Time.civil
    rw [Time.dayNumber_ofDay]
  rw [monthLen_eq_daysIn _ _ hm1 hm12] at hd2
  refine (parseDateOnly_eq_some_iff _ _).mpr ⟨civilOfDays n, ?_, by rw [hn]⟩
  unfold formatDateOnly
  dsimp only
  rw [hciv, appendInt_four hy ey, appendInt_two hm em, appendInt_two hd ed]
  show parseCivil [y1, y2, y3, y4, 45, m1, m2, 45, d1, d2] = _
  unfold parseCivil
  dsimp only
  rw [← ey, ← em, ← ed, if_pos ⟨hy, rfl, hm, rfl, hd, ⟨hm1, hm12⟩, hd1, hd2⟩]

example : parseDateOnly (ascii "2024-02-29") = some (Time.ofDay 19782) := by decide

example : parseDateOnly (ascii "2023-02-29") = none := by decide

end Tsc.Go
