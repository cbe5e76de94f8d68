import Mathlib

/-! # The proleptic Gregorian calendar

Dates with the 4/100/400 leap rule in every year, and the numbering of days in eras of 400 years that begin in March:
there the leap day is the last day of its year.
-/

namespace Thera.Gregorian

@[ext]
structure CivilDate where
  year : ℤ
  month : ℤ
  day : ℤ
  deriving DecidableEq

def IsLeap (year : ℤ) : Prop := year % 4 = 0 ∧ (year % 100 ≠ 0 ∨ year % 400 = 0)

instance (year : ℤ) : Decidable (IsLeap year) := inferInstanceAs (Decidable (_ ∧ _))

def monthLength (year month : ℤ) : ℤ :=
  if month = 2 then if IsLeap year then 29 else 28
  else if month = 4 ∨ month = 6 ∨ month = 9 ∨ month = 11 then 30
  else 31

namespace CivilDate

structure Valid (date : CivilDate) : Prop where
  one_le_month : 1 ≤ date.month
  month_le : date.month ≤ 12
  one_le_day : 1 ≤ date.day
  day_le : date.day ≤ monthLength date.year date.month

/-- The calendar date behind this one. -/
def next (date : CivilDate) : CivilDate :=
  if date.day < monthLength date.year date.month then ⟨date.year, date.month, date.day + 1⟩
  else if date.month < 12 then ⟨date.year, date.month + 1, 1⟩
  else ⟨date.year + 1, 1, 1⟩

end CivilDate

/-! ## Years of an era -/

/-- The first day of a year, counted from year 0, before the rule of 400 years. -/
def yearStart (year : ℤ) : ℤ := 365 * year + year / 4 - year / 100

/-- The days of a year that begins in March. -/
def yearLength (year : ℤ) : ℤ := if IsLeap (year + 1) then 366 else 365

theorem yearLength_cases (year : ℤ) :
    (IsLeap (year + 1) ∧ yearLength year = 366) ∨ (¬ IsLeap (year + 1) ∧ yearLength year = 365) := by
  unfold yearLength
  split
  · exact .inl ⟨‹_›, rfl⟩
  · exact .inr ⟨‹_›, rfl⟩

def yearOfEra (doe : ℤ) : ℤ := (doe - doe / 1460 + doe / 36524 - doe / 146096) / 365

/-- A day of an era lies in some century, block of four years, and year. -/
structure Located (doe century block rest doy : ℤ) : Prop where
  century_bounds : 0 ≤ century ∧ century ≤ 3
  block_bounds : 0 ≤ block ∧ block ≤ 24
  rest_bounds : 0 ≤ rest ∧ rest ≤ 3
  doy_bounds : 0 ≤ doy ∧ doy ≤ 365
  leap : doy = 365 → rest = 3 ∧ (block = 24 → century = 3)
  day : doe = 36524 * century + 1461 * block + 365 * rest + doy

theorem exists_located {doe : ℤ} (nonneg : 0 ≤ doe) (below : doe < 146097) :
    ∃ century block rest doy, Located doe century block rest doy := by
  obtain ⟨c, hc⟩ : ∃ c, c = min 3 (doe / 36524) := ⟨_, rfl⟩
  obtain ⟨b, hb⟩ : ∃ b, b = (doe - 36524 * c) / 1461 := ⟨_, rfl⟩
  obtain ⟨r, hr⟩ : ∃ r, r = min 3 ((doe - 36524 * c - 1461 * b) / 365) := ⟨_, rfl⟩
  refine ⟨c, b, r, doe - 36524 * c - 1461 * b - 365 * r, ?_, ?_, ?_, ?_, ?_, ?_⟩ <;> omega

section Located

variable {doe century block rest doy : ℤ} (located : Located doe century block rest doy)

include located

theorem Located.yearOfEra : yearOfEra doe = 100 * century + 4 * block + rest := by
  obtain ⟨hc, hb, hr, hd, leap, day⟩ := located
  have within : 1461 * block + 365 * rest + doy < 36524 ∨
      (1461 * block + 365 * rest + doy = 36524 ∧ century = 3) := by omega
  have centuries : doe / 36524 - doe / 146096 = century := by
    obtain rfl | rfl | rfl | rfl : century = 0 ∨ century = 1 ∨ century = 2 ∨ century = 3 := by omega
    all_goals omega
  have blocks : doe / 1460 = 25 * century + block + (24 * century + block + 365 * rest + doy) / 1460 := by omega
  have carry : 0 ≤ doy - (24 * century + block + 365 * rest + doy) / 1460 ∧
      doy - (24 * century + block + 365 * rest + doy) / 1460 ≤ 364 := by omega
  unfold Gregorian.yearOfEra
  omega

theorem Located.yearStart : doe = yearStart (100 * century + 4 * block + rest) + doy := by
  obtain ⟨hc, hb, hr, hd, leap, day⟩ := located
  unfold Gregorian.yearStart
  omega

theorem Located.doy_lt : doy < yearLength (100 * century + 4 * block + rest) := by
  obtain ⟨hc, hb, hr, hd, leap, day⟩ := located
  obtain ⟨leapYear, length⟩ | ⟨leapYear, length⟩ := yearLength_cases (100 * century + 4 * block + rest)
  all_goals
    unfold IsLeap at leapYear
    omega

end Located

theorem located_of_year {year doy : ℤ} (year_nonneg : 0 ≤ year) (year_lt : year < 400) (doy_nonneg : 0 ≤ doy)
    (doy_lt : doy < yearLength year) :
    Located (yearStart year + doy) (year / 100) (year % 100 / 4) (year % 4) doy := by
  unfold yearStart
  obtain ⟨leapYear, length⟩ | ⟨leapYear, length⟩ := yearLength_cases year
  all_goals
    unfold IsLeap at leapYear
    refine ⟨?_, ?_, ?_, ?_, ?_, ?_⟩ <;> omega

/-- The formula for the year of an era finds the year whose days contain the given one. -/
theorem yearOfEra_yearStart {year doy : ℤ} (year_nonneg : 0 ≤ year) (year_lt : year < 400) (doy_nonneg : 0 ≤ doy)
    (doy_lt : doy < yearLength year) : yearOfEra (yearStart year + doy) = year := by
  rw [(located_of_year year_nonneg year_lt doy_nonneg doy_lt).yearOfEra]
  omega

theorem yearStart_yearOfEra {doe : ℤ} (nonneg : 0 ≤ doe) (below : doe < 146097) :
    0 ≤ yearOfEra doe ∧ yearOfEra doe < 400 ∧ yearStart (yearOfEra doe) ≤ doe ∧
      doe - yearStart (yearOfEra doe) < yearLength (yearOfEra doe) := by
  obtain ⟨c, b, r, doy, located⟩ := exists_located nonneg below
  have start := located.yearStart
  have length := located.doy_lt
  rw [← located.yearOfEra] at start length
  have year := located.yearOfEra
  obtain ⟨hc, hb, hr, hd, -, -⟩ := located
  omega

/-! ## Months of a year that begins in March -/

def monthStart (mp : ℤ) : ℤ := (153 * mp + 2) / 5

def monthOfYear (doy : ℤ) : ℤ := (5 * doy + 2) / 153

/-- January is the eleventh month, counted from March as 0. -/
def fromMarch (month : ℤ) : ℤ := if month ≤ 2 then month + 9 else month - 3

def fromJanuary (mp : ℤ) : ℤ := if mp ≥ 10 then mp - 9 else mp + 3

/-- The year that began in the March before. -/
def marchYear (year month : ℤ) : ℤ := if month ≤ 2 then year - 1 else year

theorem day_of_month {doy : ℤ} (nonneg : 0 ≤ doy) (below : doy ≤ 365) :
    0 ≤ monthOfYear doy ∧ monthOfYear doy ≤ 11 ∧ monthStart (monthOfYear doy) ≤ doy ∧
      doy < monthStart (monthOfYear doy + 1) := by
  unfold monthStart monthOfYear
  omega

theorem monthStart_add_length (year : ℤ) {mp : ℤ} (nonneg : 0 ≤ mp) (le : mp ≤ 10) :
    monthStart mp + monthLength year (fromJanuary mp) = monthStart (mp + 1) := by
  have february : fromJanuary mp ≠ 2 := by unfold fromJanuary; split <;> omega
  interval_cases mp <;> simp [monthStart, monthLength, fromJanuary] 

theorem monthStart_add_february (year : ℤ) : monthStart 11 + monthLength (year + 1) 2 = yearLength year := by
  simp only [monthStart, monthLength, yearLength, if_true]
  split <;> norm_num

theorem monthOfYear_eq {mp doy : ℤ} (start : monthStart mp ≤ doy) (stop : doy < monthStart (mp + 1)) : monthOfYear doy = mp := by
  unfold monthStart at start stop
  unfold monthOfYear
  omega

theorem fromMarch_bounds {month : ℤ} (one_le : 1 ≤ month) (le : month ≤ 12) :
    0 ≤ fromMarch month ∧ fromMarch month ≤ 11 ∧ fromJanuary (fromMarch month) = month := by
  unfold fromMarch fromJanuary
  split <;> split <;> omega

theorem fromJanuary_bounds {mp : ℤ} (nonneg : 0 ≤ mp) (le : mp ≤ 11) :
    1 ≤ fromJanuary mp ∧ fromJanuary mp ≤ 12 ∧ fromMarch (fromJanuary mp) = mp ∧ (fromJanuary mp ≤ 2 ↔ 10 ≤ mp) := by
  unfold fromJanuary fromMarch
  split <;> split <;> omega

theorem yearLength_emod (year : ℤ) : yearLength (year % 400) = yearLength year := by
  have same : IsLeap (year % 400 + 1) ↔ IsLeap (year + 1) := by unfold IsLeap; omega
  simp only [yearLength, same]

/-! ## Numbering the days -/

/-- The days from 1970-01-01. -/
def CivilDate.number (date : CivilDate) : ℤ :=
  marchYear date.year date.month / 400 * 146097 +
    (yearStart (marchYear date.year date.month % 400) + (monthStart (fromMarch date.month) + date.day - 1)) - 719468

/-- A day of a year that begins in March. -/
def ofMarch (year doy : ℤ) : CivilDate :=
  ⟨if fromJanuary (monthOfYear doy) ≤ 2 then year + 1 else year, fromJanuary (monthOfYear doy),
    doy - monthStart (monthOfYear doy) + 1⟩

def ofNumber (n : ℤ) : CivilDate :=
  let doe := (n + 719468) % 146097
  ofMarch (yearOfEra doe + (n + 719468) / 146097 * 400) (doe - yearStart (yearOfEra doe))

theorem CivilDate.Valid.day_of_year {date : CivilDate} (valid : date.Valid) :
    0 ≤ monthStart (fromMarch date.month) + date.day - 1 ∧
      monthStart (fromMarch date.month) + date.day - 1 < yearLength (marchYear date.year date.month) ∧
      monthOfYear (monthStart (fromMarch date.month) + date.day - 1) = fromMarch date.month := by
  obtain ⟨one_le_month, month_le, one_le_day, day_le⟩ := valid
  obtain ⟨mp_nonneg, mp_le, back⟩ := fromMarch_bounds one_le_month month_le
  have start_nonneg : 0 ≤ monthStart (fromMarch date.month) := by unfold monthStart; omega
  have length_ge : 365 ≤ yearLength (marchYear date.year date.month) := by
    obtain ⟨-, length⟩ | ⟨-, length⟩ := yearLength_cases (marchYear date.year date.month) <;> omega
  obtain mp_le | february : fromMarch date.month ≤ 10 ∨ fromMarch date.month = 11 := by omega
  · have stop := monthStart_add_length date.year mp_nonneg mp_le
    rw [back] at stop
    have before : monthStart (fromMarch date.month + 1) ≤ 337 := by unfold monthStart; omega
    exact ⟨by omega, by omega, monthOfYear_eq (by omega) (by omega)⟩
  · have two : date.month = 2 := by rw [← back, february]; rfl
    have stop := monthStart_add_february (date.year - 1)
    rw [sub_add_cancel] at stop
    rw [two] at day_le
    rw [february]
    have year : marchYear date.year date.month = date.year - 1 := by rw [two]; rfl
    rw [year]
    have after : monthStart 11 = 337 ∧ monthStart (11 + 1) = 367 := ⟨rfl, rfl⟩
    have length_le : yearLength (date.year - 1) ≤ 366 := by
      obtain ⟨-, length⟩ | ⟨-, length⟩ := yearLength_cases (date.year - 1) <;> omega
    exact ⟨by omega, by omega, monthOfYear_eq (by omega) (by omega)⟩

theorem CivilDate.Valid.ofNumber_number {date : CivilDate} (valid : date.Valid) : ofNumber date.number = date := by
  obtain ⟨doy_nonneg, doy_lt, month⟩ := valid.day_of_year
  obtain ⟨-, -, back⟩ := fromMarch_bounds valid.one_le_month valid.month_le
  rw [← yearLength_emod] at doy_lt
  have located := yearOfEra_yearStart (Int.emod_nonneg _ (by decide)) (Int.emod_lt_of_pos _ (by decide)) doy_nonneg doy_lt
  have doe_bounds : 0 ≤ yearStart (marchYear date.year date.month % 400) + (monthStart (fromMarch date.month) + date.day - 1) ∧
      yearStart (marchYear date.year date.month % 400) + (monthStart (fromMarch date.month) + date.day - 1) < 146097 := by
    obtain ⟨leapYear, length⟩ | ⟨leapYear, length⟩ := yearLength_cases (marchYear date.year date.month % 400)
    all_goals
      unfold IsLeap at leapYear
      unfold yearStart
      omega
  have shifted : date.number + 719468 = marchYear date.year date.month / 400 * 146097 +
      (yearStart (marchYear date.year date.month % 400) + (monthStart (fromMarch date.month) + date.day - 1)) := by
    unfold number
    omega
  have era : (date.number + 719468) / 146097 = marchYear date.year date.month / 400 := by omega
  have doe : (date.number + 719468) % 146097 =
      yearStart (marchYear date.year date.month % 400) + (monthStart (fromMarch date.month) + date.day - 1) := by omega
  simp only [ofNumber, ofMarch, era, doe, located, add_sub_cancel_left, month, back]
  ext
  · show (if date.month ≤ 2 then _ else _) = date.year
    unfold marchYear
    split <;> omega
  · rfl
  · show monthStart (fromMarch date.month) + date.day - 1 - monthStart (fromMarch date.month) + 1 = date.day
    omega

theorem marchYear_ofMarch (year doy : ℤ) : marchYear (ofMarch year doy).year (ofMarch year doy).month = year := by
  unfold marchYear
  by_cases low : fromJanuary (monthOfYear doy) ≤ 2
  · simp only [ofMarch, if_pos low]
    omega
  · simp only [ofMarch, if_neg low]

section Days

variable {year doy : ℤ} (nonneg : 0 ≤ doy) (lt : doy < yearLength year)

include nonneg lt

theorem month_of_doy : 0 ≤ monthOfYear doy ∧ monthOfYear doy ≤ 11 ∧ monthStart (monthOfYear doy) ≤ doy ∧
    doy < monthStart (monthOfYear doy + 1) := by
  apply day_of_month nonneg
  obtain ⟨-, length⟩ | ⟨-, length⟩ := yearLength_cases year <;> omega

theorem doy_ofMarch : monthStart (fromMarch (ofMarch year doy).month) + (ofMarch year doy).day - 1 = doy := by
  obtain ⟨mp_nonneg, mp_le, -, -⟩ := month_of_doy nonneg lt
  obtain ⟨-, -, back, -⟩ := fromJanuary_bounds mp_nonneg mp_le
  simp only [ofMarch, back]
  omega

theorem ofMarch_valid : (ofMarch year doy).Valid := by
  obtain ⟨mp_nonneg, mp_le, start, stop⟩ := month_of_doy nonneg lt
  obtain ⟨one_le, month_le, -, early⟩ := fromJanuary_bounds mp_nonneg mp_le
  refine ⟨one_le, month_le, ?_, ?_⟩
  · show 1 ≤ doy - monthStart (monthOfYear doy) + 1
    omega
  · show doy - monthStart (monthOfYear doy) + 1 ≤ monthLength (ofMarch year doy).year (fromJanuary (monthOfYear doy))
    obtain before | february : monthOfYear doy ≤ 10 ∨ monthOfYear doy = 11 := by omega
    · have length := monthStart_add_length (ofMarch year doy).year mp_nonneg before
      omega
    · have length := monthStart_add_february year
      have next_year : (ofMarch year doy).year = year + 1 := if_pos (early.mpr (by omega))
      rw [next_year, february]
      change doy - monthStart 11 + 1 ≤ monthLength (year + 1) 2
      omega

end Days

/-- The day of its year that a number falls on. -/
theorem day_of_number (n : ℤ) :
    0 ≤ (n + 719468) % 146097 - yearStart (yearOfEra ((n + 719468) % 146097)) ∧
      (n + 719468) % 146097 - yearStart (yearOfEra ((n + 719468) % 146097)) <
        yearLength (yearOfEra ((n + 719468) % 146097) + (n + 719468) / 146097 * 400) ∧
      (yearOfEra ((n + 719468) % 146097) + (n + 719468) / 146097 * 400) % 400 = yearOfEra ((n + 719468) % 146097) ∧
      (yearOfEra ((n + 719468) % 146097) + (n + 719468) / 146097 * 400) / 400 = (n + 719468) / 146097 := by
  have doe_nonneg : 0 ≤ (n + 719468) % 146097 := Int.emod_nonneg _ (by decide)
  have doe_lt : (n + 719468) % 146097 < 146097 := Int.emod_lt_of_pos _ (by decide)
  obtain ⟨year_nonneg, year_lt, start, stop⟩ := yearStart_yearOfEra doe_nonneg doe_lt
  have year : (yearOfEra ((n + 719468) % 146097) + (n + 719468) / 146097 * 400) % 400 =
      yearOfEra ((n + 719468) % 146097) := by omega
  rw [← yearLength_emod, year]
  exact ⟨by omega, stop, rfl, by omega⟩

theorem ofNumber_valid (n : ℤ) : (ofNumber n).Valid := by
  obtain ⟨nonneg, lt, -, -⟩ := day_of_number n
  exact ofMarch_valid nonneg lt

@[simp]
theorem number_ofNumber (n : ℤ) : (ofNumber n).number = n := by
  obtain ⟨nonneg, lt, year, era⟩ := day_of_number n
  simp only [CivilDate.number, ofNumber, marchYear_ofMarch, doy_ofMarch nonneg lt, year, era]
  omega

/-! ## Consecutive days -/

theorem number_eq (date : CivilDate) : date.number = yearStart (marchYear date.year date.month) +
    marchYear date.year date.month / 400 + monthStart (fromMarch date.month) + date.day - 719469 := by
  unfold CivilDate.number yearStart
  omega

theorem le_monthLength (year month : ℤ) : 28 ≤ monthLength year month := by
  unfold monthLength
  split_ifs <;> norm_num

theorem monthLength_le (year month : ℤ) : monthLength year month ≤ 31 := by
  unfold monthLength
  split_ifs <;> norm_num

theorem CivilDate.Valid.next {date : CivilDate} (valid : date.Valid) : date.next.Valid := by
  obtain ⟨one_le_month, month_le, one_le_day, day_le⟩ := valid
  have length := le_monthLength date.year (date.month + 1)
  have january := le_monthLength (date.year + 1) 1
  unfold CivilDate.next
  split
  · constructor <;> dsimp only <;> omega
  · split
    · constructor <;> dsimp only <;> omega
    · constructor <;> dsimp only <;> omega

theorem yearStart_succ (year : ℤ) :
    yearStart (year + 1) + (year + 1) / 400 = yearStart year + year / 400 + yearLength year := by
  obtain ⟨leapYear, length⟩ | ⟨leapYear, length⟩ := yearLength_cases year
  all_goals
    unfold IsLeap at leapYear
    unfold yearStart
    omega

/-- The first day of a month is the day behind the last one of the month before. -/
theorem number_month_succ (year : ℤ) {month : ℤ} (one_le : 1 ≤ month) (lt : month < 12) :
    (⟨year, month + 1, 1⟩ : CivilDate).number = (⟨year, month, monthLength year month⟩ : CivilDate).number + 1 := by
  simp only [number_eq]
  obtain rfl | other : month = 2 ∨ month ≠ 2 := by omega
  · have turn := yearStart_succ (year - 1)
    have last := monthStart_add_february (year - 1)
    rw [sub_add_cancel] at turn last
    have first : monthStart (fromMarch (2 + 1)) = 0 := rfl
    have before : marchYear year 2 = year - 1 ∧ marchYear year (2 + 1) = year := ⟨rfl, rfl⟩
    have eleven : fromMarch 2 = 11 := rfl
    rw [before.1, before.2, eleven, first]
    omega
  · obtain ⟨mp_nonneg, mp_le, back⟩ := fromMarch_bounds one_le lt.le
    have same_year : marchYear year (month + 1) = marchYear year month := by unfold marchYear; split <;> split <;> omega
    have succ : fromMarch (month + 1) = fromMarch month + 1 := by unfold fromMarch; split <;> split <;> omega
    have not_last : fromMarch month ≤ 10 := by unfold fromMarch; split <;> omega
    have length := monthStart_add_length year mp_nonneg not_last
    rw [back] at length
    rw [same_year, succ]
    omega

theorem number_year_succ (year : ℤ) :
    (⟨year + 1, 1, 1⟩ : CivilDate).number = (⟨year, 12, monthLength year 12⟩ : CivilDate).number + 1 := by
  have january : marchYear (year + 1) 1 = year := add_sub_cancel_right year 1
  have december : marchYear year 12 = year := rfl
  have starts : monthStart (fromMarch 1) = 306 ∧ monthStart (fromMarch 12) = 275 := ⟨rfl, rfl⟩
  have length : monthLength year 12 = 31 := rfl
  simp only [number_eq, january, december, starts.1, starts.2, length]
  omega

theorem CivilDate.Valid.number_next {date : CivilDate} (valid : date.Valid) : date.next.number = date.number + 1 := by
  obtain ⟨year, month, day⟩ := date
  obtain ⟨one_le_month, month_le, one_le_day, day_le⟩ := valid
  dsimp only at *
  unfold CivilDate.next
  split
  · simp only [number_eq]
    omega
  · rename_i last
    obtain rfl : day = monthLength year month := by dsimp only at last; omega
    split
    · exact number_month_succ year one_le_month ‹_›
    · rename_i december
      obtain rfl : month = 12 := by dsimp only at december; omega
      exact number_year_succ year

theorem ofNumber_succ (n : ℤ) : ofNumber (n + 1) = (ofNumber n).next := by
  have valid := ofNumber_valid n
  rw [← valid.next.ofNumber_number, valid.number_next, number_ofNumber]

/-- Calendar order: by year, then by month, then by day. -/
def CivilDate.order (date : CivilDate) : ℤ ×ₗ ℤ ×ₗ ℤ := toLex (date.year, toLex (date.month, date.day))

theorem CivilDate.order_lt_next (date : CivilDate) : date.order < date.next.order := by
  unfold CivilDate.next CivilDate.order
  split
  · simp [Prod.Lex.toLex_lt_toLex]
  · split
    · simp [Prod.Lex.toLex_lt_toLex]
    · simp [Prod.Lex.toLex_lt_toLex]

theorem order_ofNumber_strictMono : StrictMono fun n => (ofNumber n).order := by
  apply strictMono_int_of_lt_succ
  intro n
  rw [ofNumber_succ]
  exact CivilDate.order_lt_next _

/-- Valid dates are numbered in calendar order. -/
theorem CivilDate.Valid.order_le_iff {first second : CivilDate} (valid : first.Valid) (valid' : second.Valid) :
    first.order ≤ second.order ↔ first.number ≤ second.number := by
  rw [← order_ofNumber_strictMono.le_iff_le (a := first.number), valid.ofNumber_number, valid'.ofNumber_number]

end Thera.Gregorian
