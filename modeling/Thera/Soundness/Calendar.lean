import Thera.Proofs.Sdk.Civil

/-! # The calendar is exact

`civil_from_days` and `days_from_civil` are inverse to each other between the day numbers on which no step leaves 64 bits and the
valid dates from the first of them to the last.
-/

namespace Thera.Soundness

open Sdk Sdk.Time Gregorian

/-- The day numbers that can be shifted to the start of the eras. -/
def DayNumbers : Set I64 := {n | InRange (n.1 + 719468)}

def firstDay : I64 := wrapI64 (-2 ^ 63)

def lastDay : I64 := wrapI64 (2 ^ 63 - 1 - 719468)

/-- The valid dates of those days. -/
def CivilDates : Set Date :=
  {date | date.civil.Valid ∧ (civilFromDays firstDay).civil.order ≤ date.civil.order ∧
    date.civil.order ≤ (civilFromDays lastDay).civil.order}

def dayOf (date : Date) : I64 := daysFromCivil date.year date.month date.day

theorem mem_dayNumbers {n : I64} : n ∈ DayNumbers ↔ n.1 + 719468 < 2 ^ 63 := by
  have range := n.2
  constructor
  · rintro ⟨-, high⟩
    exact high
  · intro high
    exact ⟨by omega, high⟩

theorem civil_of_day {n : I64} (member : n ∈ DayNumbers) : (civilFromDays n).civil = ofNumber n.1 :=
  civilFromDays_val (mem_dayNumbers.mp member)

theorem firstDay_mem : firstDay ∈ DayNumbers := mem_dayNumbers.mpr (by decide)

theorem lastDay_mem : lastDay ∈ DayNumbers := mem_dayNumbers.mpr (by decide)

theorem mem_civilDates {date : Date} :
    date ∈ CivilDates ↔ date.civil.Valid ∧ -2 ^ 63 ≤ date.civil.number ∧ date.civil.number + 719468 < 2 ^ 63 := by
  have first : firstDay.1 = -2 ^ 63 := by decide
  have last : lastDay.1 = 2 ^ 63 - 1 - 719468 := by decide
  refine and_congr_right fun valid => ?_
  rw [civil_of_day firstDay_mem, civil_of_day lastDay_mem, (ofNumber_valid _).order_le_iff valid,
    valid.order_le_iff (ofNumber_valid _), number_ofNumber, number_ofNumber, first, last]
  omega

theorem dayOf_val {date : Date} (member : date ∈ CivilDates) : (dayOf date).1 = date.civil.number := by
  obtain ⟨valid, range⟩ := mem_civilDates.mp member
  have length := monthLength_le date.civil.year date.civil.month
  exact daysFromCivil_val ⟨valid.one_le_month, valid.month_le⟩ ⟨valid.one_le_day, valid.day_le.trans length⟩ range

theorem civilFromDays_mapsTo : Set.MapsTo civilFromDays DayNumbers CivilDates := by
  intro n member
  apply mem_civilDates.mpr
  rw [civil_of_day member, number_ofNumber]
  exact ⟨ofNumber_valid n.1, n.2.1, mem_dayNumbers.mp member⟩

theorem dayOf_mapsTo : Set.MapsTo dayOf CivilDates DayNumbers := by
  intro date member
  apply mem_dayNumbers.mpr
  rw [dayOf_val member]
  exact (mem_civilDates.mp member).2.2

theorem dayOf_civilFromDays : Set.LeftInvOn dayOf civilFromDays DayNumbers := by
  intro n member
  apply I64.ext
  rw [dayOf_val (civilFromDays_mapsTo member), civil_of_day member, number_ofNumber]

theorem civilFromDays_dayOf : Set.LeftInvOn civilFromDays dayOf CivilDates := by
  intro date member
  apply Date.civil_injective
  rw [civil_of_day (dayOf_mapsTo member), dayOf_val member]
  exact (mem_civilDates.mp member).1.ofNumber_number

theorem civil_next {n : I64} (member : n ∈ DayNumbers) (succ : n + 1 ∈ DayNumbers) :
    (civilFromDays (n + 1)).civil = (civilFromDays n).civil.next := by
  have range := mem_dayNumbers.mp member
  have successor : (n + 1).1 = n.1 + 1 := add_val rfl rfl ⟨by have := n.2; omega, by omega⟩
  rw [civil_of_day succ, civil_of_day member, successor, ofNumber_succ]

/-- The two conversions are mutually inverse bijections, day 0 is 1970-01-01, and the day behind a day has the date behind its date. -/
theorem calendar_is_exact :
    Set.BijOn civilFromDays DayNumbers CivilDates ∧ Set.BijOn dayOf CivilDates DayNumbers ∧
      Set.InvOn dayOf civilFromDays DayNumbers CivilDates ∧
      (civilFromDays 0).civil = ⟨1970, 1, 1⟩ ∧
      ∀ n ∈ DayNumbers, n + 1 ∈ DayNumbers → (civilFromDays (n + 1)).civil = (civilFromDays n).civil.next := by
  have inverse : Set.InvOn dayOf civilFromDays DayNumbers CivilDates := ⟨dayOf_civilFromDays, civilFromDays_dayOf⟩
  refine ⟨inverse.bijOn civilFromDays_mapsTo dayOf_mapsTo, inverse.symm.bijOn dayOf_mapsTo civilFromDays_mapsTo, inverse, ?_, ?_⟩
  · decide
  · intro n member succ
    exact civil_next member succ

end Thera.Soundness
