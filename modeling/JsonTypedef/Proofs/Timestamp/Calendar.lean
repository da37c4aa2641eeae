import JsonTypedef.Timestamp.Calendar
import Mathlib.Order.Basic

/-!
# Dates and their numbers

The days of the calendar are numbered without gaps and in their order:
`dayNumber` and `ofDayNumber` are inverse to each other on the days that the
calendar has, and the number grows with the date.

Both are taken apart at the year that begins with March.  `daysBefore` counts
the days in front of such a year and `dayOfYear` those in front of a day within
it, where the months begin at fixed places, as the leap day stands at the end.
-/

namespace JsonTypedef
namespace Date

/-- The number of days from the first of March of year zero to that of another
year. -/
def daysBefore (year : Int) : Int :=
  year * 365 + year / 4 - year / 100 + year / 400

/-- The number of days of a year that begins with March. -/
def yearLength (year : Int) : Int :=
  if isLeapYear (year + 1) then 366 else 365

/-- The day of such a year that a month begins with, months being counted from
March. -/
def monthStart (monthFromMarch : Int) : Int :=
  (153 * monthFromMarch + 2) / 5

/-- The year of a date where years begin with March. -/
def marchYear (d : Date) : Int :=
  if d.month ≤ 2 then d.year - 1 else d.year

/-- The month of a date, counted from March. -/
def monthFromMarch (d : Date) : Int :=
  ((d.month : Int) + 9) % 12

/-- The number of days from the first of March to a date. -/
def dayOfYear (d : Date) : Int :=
  monthStart d.monthFromMarch + (d.day : Int) - 1

/-- The day of its year that stands behind the last one of a date's month. -/
def monthEnd (d : Date) : Int :=
  if d.month = 2 then yearLength d.marchYear
  else monthStart (d.monthFromMarch + 1)

theorem isLeapYear_iff (year : Int) :
    isLeapYear year ↔ year % 4 = 0 ∧ (year % 100 ≠ 0 ∨ year % 400 = 0) := by
  simp [isLeapYear]

theorem dayNumber_eq (d : Date) :
    d.dayNumber = daysBefore d.marchYear + d.dayOfYear - 719468 := by
  unfold dayNumber daysBefore dayOfYear monthStart monthFromMarch marchYear
  dsimp only
  generalize (if d.month ≤ 2 then d.year - 1 else d.year) = year
  generalize (153 * (((d.month : Int) + 9) % 12) + 2) / 5 = start
  omega

theorem daysBefore_succ (year : Int) :
    daysBefore (year + 1) = daysBefore year + yearLength year := by
  have hleap := isLeapYear_iff (year + 1)
  unfold daysBefore yearLength
  split_ifs with h
  · rw [hleap] at h
    omega
  · rw [hleap] at h
    omega

theorem yearLength_mem (year : Int) :
    365 ≤ yearLength year ∧ yearLength year ≤ 366 := by
  unfold yearLength
  split_ifs <;> omega

theorem daysBefore_mono {y z : Int} (h : y ≤ z) :
    daysBefore y ≤ daysBefore z := by
  unfold daysBefore
  omega

/-! ## Days of the calendar -/

theorem monthFromMarch_mem (d : Date) :
    0 ≤ d.monthFromMarch ∧ d.monthFromMarch < 12 := by
  unfold monthFromMarch
  omega

/-- February ends with the year, and every other month where the next one
begins. -/
theorem daysInMonth_eq {d : Date} (h : 1 ≤ d.month ∧ d.month ≤ 12) :
    (daysInMonth d.year d.month : Int) =
      d.monthEnd - monthStart d.monthFromMarch := by
  by_cases hmonth : d.month = 2
  · have hyear : d.marchYear + 1 = d.year := by
      rw [marchYear, if_pos (by omega)]
      omega
    rw [monthEnd, if_pos hmonth, yearLength, hyear, monthFromMarch, hmonth,
      daysInMonth, monthStart]
    split_ifs <;> rfl
  · rw [monthEnd, if_neg hmonth]
    unfold daysInMonth monthStart monthFromMarch
    grind

theorem isValid_iff (d : Date) :
    d.isValid ↔ (1 ≤ d.month ∧ d.month ≤ 12) ∧ 1 ≤ d.day ∧
      d.dayOfYear < d.monthEnd := by
  have hvalid : d.isValid ↔ 1 ≤ d.day ∧ d.day ≤ daysInMonth d.year d.month := by
    simp [isValid]
  rw [hvalid, dayOfYear]
  by_cases hmonth : 1 ≤ d.month ∧ d.month ≤ 12
  · have := daysInMonth_eq hmonth
    omega
  · have hnone : daysInMonth d.year d.month = 0 := by
      unfold daysInMonth
      split <;> omega
    omega

section

variable {d : Date} (h : d.isValid)

include h

theorem monthFromMarch_eq :
    d.marchYear * 12 + d.monthFromMarch = d.year * 12 + (d.month : Int) - 3 := by
  obtain ⟨hmonth, -⟩ := d.isValid_iff.mp h
  unfold monthFromMarch marchYear
  split_ifs <;> omega

theorem monthStart_le : monthStart d.monthFromMarch ≤ d.dayOfYear := by
  obtain ⟨-, hday, -⟩ := d.isValid_iff.mp h
  unfold dayOfYear
  omega

theorem day_le : d.day ≤ 31 := by
  obtain ⟨hmonth, -, hend⟩ := d.isValid_iff.mp h
  have hyear := yearLength_mem d.marchYear
  unfold dayOfYear monthEnd monthStart monthFromMarch at hend
  split_ifs at hend <;> omega

theorem dayOfYear_lt : d.dayOfYear < yearLength d.marchYear := by
  obtain ⟨hmonth, -, hend⟩ := d.isValid_iff.mp h
  have hyear := yearLength_mem d.marchYear
  unfold monthEnd monthStart monthFromMarch at hend
  split_ifs at hend <;> omega

end

/-- Order of dates by year, month and day. -/
def order (d e : Date) : Ordering :=
  (compare d.year e.year).then
    ((compare d.month e.month).then (compare d.day e.day))

theorem order_eq_lt {d e : Date} :
    order d e = .lt ↔ d.year < e.year ∨ d.year = e.year ∧
      (d.month < e.month ∨ d.month = e.month ∧ d.day < e.day) := by
  simp [order, Ordering.then_eq_lt, Int.compare_eq_lt, Nat.compare_eq_lt]

theorem order_eq_eq {d e : Date} : order d e = .eq ↔ d = e := by
  cases d
  cases e
  simp [order, Ordering.then_eq_eq]

theorem order_swap (d e : Date) : (order d e).swap = order e d := by
  simp only [order, Ordering.swap_then, Int.compare_swap, Nat.compare_swap]

/-- The number of a day grows with the date. -/
theorem dayNumber_lt {d e : Date} (hd : d.isValid) (he : e.isValid)
    (h : order d e = .lt) : d.dayNumber < e.dayNumber := by
  have hdmonth := d.monthFromMarch_mem
  have hemonth := e.monthFromMarch_mem
  have hestart := monthStart_le he
  obtain ⟨hdrange, -, hdend⟩ := d.isValid_iff.mp hd
  obtain ⟨herange, -⟩ := e.isValid_iff.mp he
  -- The months since year zero are counted alike from January and from March.
  have horder : d.marchYear < e.marchYear ∨ d.marchYear = e.marchYear ∧
      (d.monthFromMarch < e.monthFromMarch ∨
        d.monthFromMarch = e.monthFromMarch ∧ d.day < e.day) := by
    rw [order_eq_lt] at h
    have := monthFromMarch_eq hd
    have := monthFromMarch_eq he
    omega
  rw [dayNumber_eq, dayNumber_eq]
  obtain hyear | ⟨hyear, hmonth | ⟨hmonth, hday⟩⟩ := horder
  · have hend := dayOfYear_lt hd
    have hyears : daysBefore (d.marchYear + 1) ≤ daysBefore e.marchYear :=
      daysBefore_mono hyear
    rw [daysBefore_succ] at hyears
    unfold monthStart at hestart
    omega
  · have hfebruary : d.month ≠ 2 := by
      unfold monthFromMarch at hmonth hemonth
      omega
    rw [monthEnd, if_neg hfebruary, monthStart] at hdend
    rw [monthStart] at hestart
    rw [hyear]
    omega
  · rw [hyear, dayOfYear, dayOfYear, hmonth]
    omega

theorem compare_dayNumber {d e : Date} (hd : d.isValid) (he : e.isValid) :
    compare d.dayNumber e.dayNumber = order d e := by
  cases h : order d e with
  | lt => exact Int.compare_eq_lt.mpr (dayNumber_lt hd he h)
  | eq => rw [order_eq_eq.mp h, Int.compare_eq_eq]
  | gt =>
      have hswap : order e d = .lt := by rw [← order_swap, h, Ordering.swap_gt]
      exact Int.compare_eq_gt.mpr (dayNumber_lt he hd hswap)

theorem dayNumber_lt_iff {d e : Date} (hd : d.isValid) (he : e.isValid) :
    d.dayNumber < e.dayNumber ↔ order d e = .lt := by
  rw [← compare_dayNumber hd he, Int.compare_eq_lt]

theorem eq_of_dayNumber_eq {d e : Date} (hd : d.isValid) (he : e.isValid)
    (h : d.dayNumber = e.dayNumber) : d = e := by
  rw [← order_eq_eq, ← compare_dayNumber hd he, h, Int.compare_eq_eq]

/-! ## Days of an era -/

/-- A day of an era of 400 years, in centuries, cycles of four years, years and
days.  A cycle ends with its leap day, which the last cycle of a century lacks
unless the century is the last one. -/
structure EraDay where
  century : Int
  cycle : Int
  year : Int
  day : Int
  century_mem : 0 ≤ century ∧ century ≤ 3
  cycle_mem : 0 ≤ cycle ∧ cycle ≤ 24
  year_mem : 0 ≤ year ∧ year ≤ 3
  day_nonneg : 0 ≤ day
  day_lt : day < 365 ∨ day = 365 ∧ year = 3 ∧ (cycle < 24 ∨ century = 3)

namespace EraDay

/-- The number of days from the beginning of the era. -/
def number (d : EraDay) : Int :=
  36524 * d.century + 1461 * d.cycle + 365 * d.year + d.day

/-- The number of years from the beginning of the era. -/
def yearOfEra (d : EraDay) : Int :=
  100 * d.century + 4 * d.cycle + d.year

theorem exists_number {n : Int} (hn : 0 ≤ n ∧ n < 146097) :
    ∃ d : EraDay, d.number = n := by
  obtain ⟨c, s, rfl, hc, hs⟩ : ∃ c s, n = 36524 * c + s ∧
      (0 ≤ c ∧ c ≤ 3) ∧ 0 ≤ s ∧ (s < 36524 ∨ s = 36524 ∧ c = 3) :=
    ⟨min (n / 36524) 3, n - 36524 * min (n / 36524) 3, by omega, by omega,
      by omega⟩
  obtain ⟨y, r, hr, hy, hday⟩ : ∃ y r, s % 1461 = 365 * y + r ∧
      (0 ≤ y ∧ y ≤ 3) ∧ 0 ≤ r ∧ (r < 365 ∨ r = 365 ∧ y = 3) :=
    ⟨min (s % 1461 / 365) 3, s % 1461 - 365 * min (s % 1461 / 365) 3, by omega,
      by omega, by omega⟩
  refine ⟨⟨c, s / 1461, y, r, hc, by omega, hy, hday.1, by omega⟩, ?_⟩
  change 36524 * c + 1461 * (s / 1461) + 365 * y + r = 36524 * c + s
  omega

/-- The leap days are taken off first, then all years have 365 days. -/
theorem yearOfEra_eq (d : EraDay) {n : Int} (h : d.number = n) :
    (n - n / 1460 + n / 36524 - n / 146096) / 365 = d.yearOfEra := by
  obtain ⟨c, k, y, r, hc, hk, hy, hr, hday⟩ := d
  change 36524 * c + 1461 * k + 365 * y + r = n at h
  change _ = 100 * c + 4 * k + y
  obtain ⟨hera, hcentury⟩ | hlast :
      n / 146096 = 0 ∧ n / 36524 = c ∨ n = 146096 := by
    omega
  · have hcycles : n / 1460 = 25 * c + k ∨
        n / 1460 = 25 * c + k + 1 ∧ 1460 ≤ 24 * c + k + 365 * y + r := by
      omega
    rw [hera, hcentury]
    omega
  · omega

theorem daysBefore_yearOfEra (d : EraDay) :
    daysBefore d.yearOfEra + d.day = d.number := by
  have := d.century_mem
  have := d.cycle_mem
  have := d.year_mem
  unfold daysBefore yearOfEra number
  omega

theorem yearOfEra_mem (d : EraDay) : 0 ≤ d.yearOfEra ∧ d.yearOfEra < 400 := by
  have := d.century_mem
  have := d.cycle_mem
  have := d.year_mem
  unfold yearOfEra
  omega

theorem day_lt_yearLength (d : EraDay) : d.day < yearLength d.yearOfEra := by
  have := d.century_mem
  have := d.cycle_mem
  have := d.year_mem
  have hday := d.day_lt
  have hleap := isLeapYear_iff (d.yearOfEra + 1)
  unfold yearLength
  unfold yearOfEra at hleap ⊢
  split_ifs with h
  · omega
  · rw [hleap] at h
    omega

end EraDay

theorem daysBefore_add_era (year era : Int) :
    daysBefore (year + era * 400) = daysBefore year + era * 146097 := by
  unfold daysBefore
  omega

theorem yearLength_add_era (year era : Int) :
    yearLength (year + era * 400) = yearLength year := by
  have hshifted := daysBefore_succ (year + era * 400)
  have hyear := daysBefore_succ year
  rw [Int.add_right_comm, daysBefore_add_era, daysBefore_add_era] at hshifted
  omega

/-! ## The day of a number -/

/-- The date of a day in a year that begins with March. -/
def ofDayOfYear (year dayOfYear : Int) : Date :=
  let monthFromMarch := (5 * dayOfYear + 2) / 153
  let month := if monthFromMarch < 10 then monthFromMarch + 3 else monthFromMarch - 9
  ⟨if month ≤ 2 then year + 1 else year, month.toNat,
    (dayOfYear - monthStart monthFromMarch + 1).toNat⟩

theorem exists_ofDayNumber (n : Int) :
    ∃ year dayOfYear, 0 ≤ dayOfYear ∧ dayOfYear < yearLength year ∧
      daysBefore year + dayOfYear - 719468 = n ∧
      ofDayNumber n = ofDayOfYear year dayOfYear := by
  obtain ⟨d, hd⟩ := EraDay.exists_number (n := (n + 719468) % 146097) (by omega)
  have hbefore := d.daysBefore_yearOfEra
  have hera := daysBefore_add_era d.yearOfEra ((n + 719468) / 146097)
  refine ⟨d.yearOfEra + (n + 719468) / 146097 * 400, d.day, d.day_nonneg, ?_, ?_, ?_⟩
  · rw [yearLength_add_era]
    exact d.day_lt_yearLength
  · omega
  · have hdays : (n + 719468) % 146097 -
        (365 * d.yearOfEra + d.yearOfEra / 4 - d.yearOfEra / 100) = d.day := by
      have := d.yearOfEra_mem
      unfold daysBefore at hbefore
      omega
    unfold ofDayNumber
    dsimp only
    rw [d.yearOfEra_eq hd, hdays]
    rfl

section

variable {year n : Int} (hn : 0 ≤ n ∧ n < yearLength year)

include hn

theorem month_ofDayOfYear :
    1 ≤ (ofDayOfYear year n).month ∧ (ofDayOfYear year n).month ≤ 12 := by
  have := yearLength_mem year
  unfold ofDayOfYear
  dsimp only
  split_ifs <;> omega

theorem monthFromMarch_ofDayOfYear :
    (ofDayOfYear year n).monthFromMarch = (5 * n + 2) / 153 := by
  have := yearLength_mem year
  unfold monthFromMarch ofDayOfYear
  dsimp only
  split_ifs <;> omega

theorem marchYear_ofDayOfYear : (ofDayOfYear year n).marchYear = year := by
  have := yearLength_mem year
  unfold marchYear ofDayOfYear
  dsimp only
  split_ifs <;> omega

theorem dayOfYear_ofDayOfYear : (ofDayOfYear year n).dayOfYear = n := by
  rw [dayOfYear, monthFromMarch_ofDayOfYear hn]
  unfold ofDayOfYear monthStart
  dsimp only
  omega

theorem isValid_ofDayOfYear : (ofDayOfYear year n).isValid := by
  have hmonth := monthFromMarch_ofDayOfYear hn
  rw [isValid_iff, monthEnd, dayOfYear_ofDayOfYear hn, marchYear_ofDayOfYear hn,
    hmonth]
  refine ⟨month_ofDayOfYear hn, ?_, ?_⟩
  · unfold ofDayOfYear monthStart
    dsimp only
    omega
  · unfold monthStart
    split_ifs
    · exact hn.2
    · omega

end

theorem isValid_ofDayNumber (n : Int) : (ofDayNumber n).isValid := by
  obtain ⟨year, day, hday, hyear, -, heq⟩ := exists_ofDayNumber n
  rw [heq]
  exact isValid_ofDayOfYear ⟨hday, hyear⟩

theorem dayNumber_ofDayNumber (n : Int) : (ofDayNumber n).dayNumber = n := by
  obtain ⟨year, day, hday, hyear, hn, heq⟩ := exists_ofDayNumber n
  rw [heq, dayNumber_eq, marchYear_ofDayOfYear ⟨hday, hyear⟩,
    dayOfYear_ofDayOfYear ⟨hday, hyear⟩, hn]

end Date
end JsonTypedef
