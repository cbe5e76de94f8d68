import Thera.Model.Sdk.Time
import Thera.Proofs.Sdk.Int64
import Thera.ToMathlib.Gregorian

/-! # The civil calendar in 64 bits

In range, no step of the two conversions wraps around, and they compute the exact numbering of days.
-/

namespace Thera.Sdk.Time

open Gregorian

/-- The calendar date that a triple of numbers writes. -/
def Date.civil (date : Date) : CivilDate := ⟨date.year.1, date.month.1, date.day.1⟩

theorem Date.civil_injective : Function.Injective Date.civil := by
  rintro ⟨y, m, d⟩ ⟨y', m', d'⟩ same
  obtain ⟨year, month, day⟩ := CivilDate.mk.inj same
  obtain rfl := I64.ext year
  obtain rfl := I64.ext month
  obtain rfl := I64.ext day
  rfl

theorem ediv_eq_of_bounds {x y q : ℤ} (pos : 0 < y) (low : y * q ≤ x) (high : x < y * q + y) : x / y = q :=
  ((Int.ediv_emod_unique (r := x - y * q) pos).mpr ⟨by omega, by omega, by omega⟩).1

/-- Rounding down by a correction of the quotient. -/
theorem floorDiv_val {a b : I64} {x y : ℤ} (left : a.1 = x) (right : b.1 = y) (one_lt : 1 < y) :
    (floorDiv a b).1 = x / y := by
  have range := a.2
  unfold floorDiv
  extract_lets q
  obtain nonneg | neg : 0 ≤ x ∨ x < 0 := by omega
  · have not_neg : ¬ (a % b ≠ 0 ∧ a < 0) := fun both => by
      have below : a.1 < 0 := both.2
      omega
    rw [if_neg not_neg]
    exact div_val left right nonneg (by omega)
  · have below : a < 0 := show a.1 < 0 by omega
    have quotient : q.1 = -(-x / y) := div_val_neg left right neg.le one_lt
    have rest : (a % b).1 = -(-x % y) := mod_val_neg left right neg.le (by omega)
    have parts := Int.emod_add_mul_ediv (-x) y
    have rest_nonneg := Int.emod_nonneg (-x) (show y ≠ 0 by omega)
    have rest_lt := Int.emod_lt_of_pos (-x) (show 0 < y by omega)
    have quotient_le : -x / y ≤ -x := Int.ediv_le_self _ (by omega)
    have quotient_lt : -x / y < -x := by nlinarith
    split
    · rename_i inexact
      have rest_ne : -x % y ≠ 0 := fun zero => inexact.1 (I64.ext (by rw [rest, zero]; rfl))
      rw [sub_val (y := 1) quotient rfl (by omega)]
      symm
      apply ediv_eq_of_bounds (by omega)
      · linarith
      · have rest_pos : 0 < -x % y := by omega
        linarith
    · rename_i not_inexact
      have rest_zero : -x % y = 0 := by
        by_contra rest_ne
        refine not_inexact ⟨fun zero => rest_ne ?_, below⟩
        have zero_val : (a % b).1 = 0 := congrArg Subtype.val zero
        omega
      rw [quotient]
      symm
      apply ediv_eq_of_bounds (by omega) <;> linarith

/-- Rounding down by a shift of a negative dividend. -/
theorem era_val {a length last : I64} {x y : ℤ} (dividend : a.1 = x) (divisor : length.1 = y) (shift : last.1 = y - 1)
    (one_lt : 1 < y) (range : InRange (x - (y - 1))) :
    (if a < 0 then (a - last) / length else a / length).1 = x / y := by
  obtain nonneg | neg : 0 ≤ x ∨ x < 0 := by omega
  · have not_neg : ¬ a < 0 := fun below => by
      have below : a.1 < 0 := below
      omega
    rw [if_neg not_neg]
    exact div_val dividend divisor nonneg (by omega)
  · have below : a < 0 := show a.1 < 0 by omega
    rw [if_pos below, div_val_neg (sub_val dividend shift range) divisor (by omega) one_lt]
    have parts := Int.emod_add_mul_ediv (-(x - (y - 1))) y
    have rest_nonneg := Int.emod_nonneg (-(x - (y - 1))) (show y ≠ 0 by omega)
    have rest_lt := Int.emod_lt_of_pos (-(x - (y - 1))) (show 0 < y by omega)
    symm
    apply ediv_eq_of_bounds (by omega) <;> linarith

theorem marchYear_val {y m : I64} (range : InRange (y.1 - 1)) : (if m ≤ 2 then y - 1 else y).1 = marchYear y.1 m.1 := by
  have early_iff : m ≤ 2 ↔ m.1 ≤ 2 := Iff.rfl
  simp only [early_iff, marchYear]
  split
  · exact sub_val rfl rfl range
  · rfl

theorem fromMarch_val {m : I64} (month : 1 ≤ m.1 ∧ m.1 ≤ 12) : (if m ≤ 2 then m + 9 else m - 3).1 = fromMarch m.1 := by
  have early_iff : m ≤ 2 ↔ m.1 ≤ 2 := Iff.rfl
  simp only [early_iff, fromMarch]
  split
  · exact add_val rfl rfl (by omega)
  · exact sub_val rfl rfl (by omega)

theorem monthStart_val {a : I64} {mp : ℤ} (val : a.1 = mp) (nonneg : 0 ≤ mp) (le : mp ≤ 11) :
    ((153 * a + 2) / 5).1 = monthStart mp :=
  div_val (add_val (mul_val rfl val (by omega)) rfl (by omega)) rfl (by omega) (by decide)

theorem yearStart_val {a days : I64} {year : ℤ} (val : a.1 = year) (days_val : days.1 = 365 * year) (nonneg : 0 ≤ year)
    (lt : year < 400) : (days + a / 4 - a / 100).1 = yearStart year :=
  sub_val (add_val days_val (div_val val rfl nonneg (by decide)) (by omega)) (div_val val rfl nonneg (by decide)) (by omega)

theorem yearOfEra_val {a : I64} {doe : ℤ} (val : a.1 = doe) (nonneg : 0 ≤ doe) (lt : doe < 146097) :
    ((a - a / 1460 + a / 36524 - a / 146096) / 365).1 = yearOfEra doe := by
  have quotient (n : ℕ) (pos : 0 < (n : ℤ)) : doe / n ≤ doe := Int.ediv_le_self _ nonneg
  refine div_val (sub_val (add_val (sub_val val (div_val val rfl nonneg (by decide)) ?_) (div_val val rfl nonneg (by decide)) ?_)
    (div_val val rfl nonneg (by decide)) ?_) rfl ?_ (by decide)
  all_goals omega

theorem fromJanuary_val {a : I64} {mp : ℤ} (val : a.1 = mp) (nonneg : 0 ≤ mp) (le : mp ≤ 11) :
    (if a ≥ 10 then a - 9 else a + 3).1 = fromJanuary mp := by
  have late_iff : a ≥ 10 ↔ mp ≥ 10 := by rw [← val]; rfl
  simp only [late_iff, fromJanuary]
  split
  · exact sub_val val rfl (by omega)
  · exact add_val val rfl (by omega)

theorem daysFromCivil_val {y m d : I64} (month : 1 ≤ m.1 ∧ m.1 ≤ 12) (day : 1 ≤ d.1 ∧ d.1 ≤ 31)
    (range : -2 ^ 63 ≤ (CivilDate.mk y.1 m.1 d.1).number ∧ (CivilDate.mk y.1 m.1 d.1).number + 719468 < 2 ^ 63) :
    (daysFromCivil y m d).1 = (CivilDate.mk y.1 m.1 d.1).number := by
  have exact_range := range
  unfold CivilDate.number at exact_range
  dsimp only at exact_range
  rw [number_eq] at range
  unfold daysFromCivil
  extract_lets y' era yoe mq doy doe
  have month_start : 0 ≤ monthStart (fromMarch m.1) ∧ monthStart (fromMarch m.1) ≤ 337 := by
    unfold monthStart fromMarch
    split <;> omega
  unfold yearStart at range
  dsimp only at range
  have year_bounds : -2 ^ 55 ≤ marchYear y.1 m.1 ∧ marchYear y.1 m.1 ≤ 2 ^ 55 := by omega
  have y_val : y'.1 = marchYear y.1 m.1 := marchYear_val (by unfold marchYear at year_bounds; split at year_bounds <;> omega)
  have era_val : era.1 = marchYear y.1 m.1 / 400 := era_val y_val rfl rfl (by norm_num) (by omega)
  have yoe_val : yoe.1 = marchYear y.1 m.1 % 400 := by
    rw [show marchYear y.1 m.1 % 400 = marchYear y.1 m.1 - marchYear y.1 m.1 / 400 * 400 by omega]
    exact sub_val y_val (mul_val era_val rfl (by omega)) (by omega)
  obtain ⟨mp_nonneg, mp_le, -⟩ := fromMarch_bounds month.1 month.2
  have doy_val : doy.1 = monthStart (fromMarch m.1) + d.1 - 1 :=
    sub_val (add_val (monthStart_val (fromMarch_val month) mp_nonneg mp_le) rfl (by omega)) rfl (by omega)
  have year_start : 0 ≤ yearStart (marchYear y.1 m.1 % 400) ∧ yearStart (marchYear y.1 m.1 % 400) ≤ 145731 := by
    unfold yearStart
    omega
  have year_days : (yoe * 365).1 = 365 * (marchYear y.1 m.1 % 400) := by
    rw [mul_comm]
    exact mul_val yoe_val rfl (by omega)
  have doe_val : doe.1 = yearStart (marchYear y.1 m.1 % 400) + (monthStart (fromMarch m.1) + d.1 - 1) :=
    add_val (yearStart_val yoe_val year_days (by omega) (by omega)) doy_val (by omega)
  unfold CivilDate.number
  dsimp only
  exact sub_val (add_val (mul_val era_val rfl (by omega)) doe_val (by omega)) rfl (by omega)

theorem ofMarch_val {y doy : I64} {year day : ℤ} (y_val : y.1 = year) (doy_val : doy.1 = day) (nonneg : 0 ≤ day)
    (lt : day < yearLength year) (range : InRange (year + 1)) :
    let mp := (5 * doy + 2) / 153
    let m := if mp ≥ 10 then mp - 9 else mp + 3
    (Date.mk (if m ≤ 2 then y + 1 else y) m (doy - (153 * mp + 2) / 5 + 1)).civil = ofMarch year day := by
  intro mp m
  obtain ⟨mp_nonneg, mp_le, start, stop⟩ := month_of_doy nonneg lt
  have start_nonneg : 0 ≤ monthStart (monthOfYear day) := by unfold monthStart; omega
  have day_le : day ≤ 365 := by obtain ⟨-, length⟩ | ⟨-, length⟩ := yearLength_cases year <;> omega
  have mp_val : mp.1 = monthOfYear day :=
    div_val (add_val (mul_val rfl doy_val (by omega)) rfl (by omega)) rfl (by omega) (by decide)
  have m_val : m.1 = fromJanuary (monthOfYear day) := fromJanuary_val mp_val mp_nonneg mp_le
  unfold ofMarch
  ext
  · have early_iff : m ≤ 2 ↔ fromJanuary (monthOfYear day) ≤ 2 := by rw [← m_val]; rfl
    simp only [Date.civil, early_iff]
    split
    · exact add_val y_val rfl range
    · exact y_val
  · exact m_val
  · exact add_val (sub_val doy_val (monthStart_val mp_val mp_nonneg mp_le) (by omega)) rfl (by omega)

theorem civilFromDays_val {days : I64} (range : days.1 + 719468 < 2 ^ 63) :
    (civilFromDays days).civil = ofNumber days.1 := by
  have low := days.2.1
  unfold civilFromDays
  extract_lets z era doe yoe y doy mp d m year
  have z_val : z.1 = days.1 + 719468 := add_val rfl rfl (by omega)
  have era_val : era.1 = (days.1 + 719468) / 146097 := era_val z_val rfl rfl (by norm_num) (by omega)
  have doe_val : doe.1 = (days.1 + 719468) % 146097 := by
    rw [show (days.1 + 719468) % 146097 = days.1 + 719468 - (days.1 + 719468) / 146097 * 146097 by omega]
    exact sub_val z_val (mul_val era_val rfl (by omega)) (by omega)
  have doe_nonneg : 0 ≤ (days.1 + 719468) % 146097 := Int.emod_nonneg _ (by decide)
  have doe_lt : (days.1 + 719468) % 146097 < 146097 := Int.emod_lt_of_pos _ (by decide)
  obtain ⟨year_nonneg, year_lt, start, stop⟩ := yearStart_yearOfEra doe_nonneg doe_lt
  obtain ⟨nonneg, lt, -, -⟩ := day_of_number days.1
  have start_nonneg : 0 ≤ yearStart (yearOfEra ((days.1 + 719468) % 146097)) := by unfold yearStart; omega
  have yoe_val : yoe.1 = yearOfEra ((days.1 + 719468) % 146097) := yearOfEra_val doe_val doe_nonneg doe_lt
  have y_val : y.1 = yearOfEra ((days.1 + 719468) % 146097) + (days.1 + 719468) / 146097 * 400 :=
    add_val yoe_val (mul_val era_val rfl (by omega)) (by omega)
  have doy_val : doy.1 = (days.1 + 719468) % 146097 - yearStart (yearOfEra ((days.1 + 719468) % 146097)) :=
    sub_val doe_val (yearStart_val yoe_val (mul_val rfl yoe_val (by omega)) year_nonneg year_lt) (by omega)
  exact ofMarch_val y_val doy_val nonneg lt (by omega)

end Thera.Sdk.Time
