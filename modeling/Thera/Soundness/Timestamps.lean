import Thera.Proofs.Sdk.Timestamps

/-! # Timestamps

What `format_rfc3339` writes is read back, for every instant of the years 0 to 9999. What `parse_rfc3339` accepts has the form of a
timestamp, but the day need not exist in its month, and the offset need not be one of a clock.
-/

namespace Thera.Sdk.Time

open Gregorian Scanning

/-! ## Padding -/

theorem fixed_snoc (width n : ℕ) : fixed (width + 1) n = fixed width (n / 10) ++ [digit (n % 10)] := by
  induction width with
  | zero =>
    show [digit (n / 1 % 10)] = [digit (n % 10)]
    rw [Nat.div_one]
  | succ width ih =>
    have first : n / 10 ^ (width + 1) = n / 10 / 10 ^ width := by rw [pow_succ', Nat.div_div_eq_div_mul]
    rw [fixed, ih, first, fixed, List.cons_append]

theorem decimalDigits_eq_fixed {width n : ℕ} (low : 10 ^ width ≤ n ∨ width = 0) (high : n < 10 ^ (width + 1)) :
    decimalDigits n = fixed (width + 1) n := by
  induction width generalizing n with
  | zero =>
    have small : n < 10 := high
    rw [decimalDigits, if_pos small, fixed_snoc, Nat.mod_eq_of_lt small]
    rfl
  | succ width ih =>
    have large : 10 ^ (width + 1) ≤ n := low.resolve_right (Nat.succ_ne_zero width)
    have power : 1 ≤ 10 ^ width := Nat.one_le_pow _ _ (by decide)
    rw [pow_succ] at large high
    rw [decimalDigits, if_neg (by omega), fixed_snoc, ih (.inl (by omega)) (by omega)]
    rfl

theorem fixed_zero_cons {width n : ℕ} (small : n < 10 ^ width) : '0' :: fixed width n = fixed (width + 1) n := by
  rw [fixed, Nat.div_eq_of_lt small]
  rfl

theorem intText_eq {value : I64} {w n : ℕ} (val : value.1 = n) (low : 10 ^ w ≤ n ∨ w = 0) (high : n < 10 ^ (w + 1)) :
    intText value = fixed (w + 1) n := by
  have nonneg : ¬ value.1 < 0 := by omega
  have magnitude : value.1.natAbs = n := by omega
  rw [intText, displayInt, if_neg nonneg, magnitude, String.toList_ofList]
  exact decimalDigits_eq_fixed low high

theorem below_iff {value bound : I64} {n b : ℕ} (val : value.1 = n) (bound_val : bound.1 = b) : value < bound ↔ n < b := by
  show value.1 < bound.1 ↔ n < b
  omega

section

variable {value : I64} {n : ℕ} (val : value.1 = n)

include val

theorem pad2_eq (small : n < 100) : pad2 value = fixed 2 n := by
  simp only [pad2, below_iff val (show (10 : I64).1 = (10 : ℕ) from rfl)]
  split
  · rw [intText_eq (w := 0) val (.inr rfl) (by omega), fixed_zero_cons (by omega)]
  · exact intText_eq val (.inl (by omega)) (by omega)

theorem pad3_eq (small : n < 1000) : pad3 value = fixed 3 n := by
  simp only [pad3, below_iff val (show (10 : I64).1 = (10 : ℕ) from rfl), below_iff val (show (100 : I64).1 = (100 : ℕ) from rfl)]
  split
  · rw [intText_eq (w := 0) val (.inr rfl) (by omega), fixed_zero_cons (by omega), fixed_zero_cons (by omega)]
  · split
    · rw [intText_eq (w := 1) val (.inl (by omega)) (by omega), fixed_zero_cons (by omega)]
    · exact intText_eq val (.inl (by omega)) (by omega)

theorem pad4_eq (small : n < 10000) : pad4 value = fixed 4 n := by
  simp only [pad4, below_iff val (show (10 : I64).1 = (10 : ℕ) from rfl), below_iff val (show (100 : I64).1 = (100 : ℕ) from rfl),
    below_iff val (show (1000 : I64).1 = (1000 : ℕ) from rfl)]
  split
  · rw [intText_eq (w := 0) val (.inr rfl) (by omega), fixed_zero_cons (by omega), fixed_zero_cons (by omega),
      fixed_zero_cons (by omega)]
  · split
    · rw [intText_eq (w := 1) val (.inl (by omega)) (by omega), fixed_zero_cons (by omega), fixed_zero_cons (by omega)]
    · split
      · rw [intText_eq (w := 2) val (.inl (by omega)) (by omega), fixed_zero_cons (by omega)]
      · exact intText_eq val (.inl (by omega)) (by omega)

end

/-! ## Formatting -/

/-- The calendar date of an instant, in UTC. -/
def utcDate (d : DateTime) : CivilDate := ofNumber (d.millis.1 / 86400000)

/-- The digits of a fraction of `ms` milliseconds; none for a whole second. -/
def millisDigits (ms : ℕ) : List (Fin 10) :=
  if ms = 0 then [] else [⟨ms / 100 % 10, Nat.mod_lt _ (by decide)⟩, ⟨ms / 10 % 10, Nat.mod_lt _ (by decide)⟩, ⟨ms % 10, Nat.mod_lt _ (by decide)⟩]

theorem fractionMs_millisDigits {ms : ℕ} (small : ms < 1000) : fractionMs (millisDigits ms) = ms := by
  unfold millisDigits
  split
  · rename_i zero
    rw [zero]
    rfl
  · simp only [fractionMs, valueOf, List.length_cons, List.length_nil]
    omega

theorem fractionText_millisDigits {ms : ℕ} (positive : ms ≠ 0) : fractionText (millisDigits ms) = '.' :: fixed 3 ms := by
  rw [millisDigits, if_neg positive]
  simp [fractionText, digitsText, fixed]

/-- The timestamp of an instant in UTC. -/
structure Stamp.Of (stamp : Stamp) (d : DateTime) : Prop where
  date : stamp.date = utcDate d
  hour : (stamp.hour : ℤ) = d.millis.1 / 1000 % 86400 / 3600
  minute : (stamp.minute : ℤ) = d.millis.1 / 1000 % 86400 % 3600 / 60
  second : (stamp.second : ℤ) = d.millis.1 / 1000 % 86400 % 60
  fraction : stamp.fraction = millisDigits (d.millis.1 % 1000).toNat
  zone : stamp.zone = .utc

theorem exists_stamp {d : DateTime} (year : 0 ≤ (utcDate d).year ∧ (utcDate d).year ≤ 9999) : ∃ stamp : Stamp, stamp.Of d := by
  have valid := ofNumber_valid (d.millis.1 / 86400000)
  have month_ge := valid.one_le_month
  have month_le := valid.month_le
  have day_ge := valid.one_le_day
  have day_le := valid.day_le.trans (monthLength_le _ _)
  change 1 ≤ (utcDate d).month at month_ge
  change (utcDate d).month ≤ 12 at month_le
  change 1 ≤ (utcDate d).day at day_ge
  change (utcDate d).day ≤ 31 at day_le
  refine ⟨⟨⟨(utcDate d).year.toNat, by omega⟩, ⟨(utcDate d).month.toNat, by omega⟩, ⟨(utcDate d).day.toNat, by omega⟩,
    ⟨(d.millis.1 / 1000 % 86400 / 3600).toNat, by omega⟩, ⟨(d.millis.1 / 1000 % 86400 % 3600 / 60).toNat, by omega⟩,
    ⟨(d.millis.1 / 1000 % 86400 % 60).toNat, by omega⟩, millisDigits (d.millis.1 % 1000).toNat, .utc⟩, ?_, ?_, ?_, ?_, rfl, rfl⟩
  · rw [Stamp.date]
    ext
    · exact Int.toNat_of_nonneg year.1
    · exact Int.toNat_of_nonneg (by omega)
    · exact Int.toNat_of_nonneg (by omega)
  · exact Int.toNat_of_nonneg (by omega)
  · exact Int.toNat_of_nonneg (by omega)
  · exact Int.toNat_of_nonneg (by omega)

theorem Stamp.Of.checked {stamp : Stamp} {d : DateTime} (here : stamp.Of d) : stamp.Checked := by
  have valid : stamp.date.Valid := by
    rw [here.date]
    exact ofNumber_valid _
  have month_ge : (1 : ℤ) ≤ stamp.month := valid.one_le_month
  have month_le : (stamp.month : ℤ) ≤ 12 := valid.month_le
  have day_ge : (1 : ℤ) ≤ stamp.day := valid.one_le_day
  have day_le : (stamp.day : ℤ) ≤ 31 := valid.day_le.trans (monthLength_le _ _)
  have hour := here.hour
  have minute := here.minute
  have second := here.second
  exact ⟨⟨by omega, by omega⟩, ⟨by omega, by omega⟩, by omega, by omega, by omega⟩

theorem Stamp.Of.instant {stamp : Stamp} {d : DateTime} (here : stamp.Of d) : stamp.instant = d.millis.1 := by
  have number : stamp.date.number = d.millis.1 / 86400000 := by rw [here.date, utcDate, number_ofNumber]
  have ahead : stamp.zone.ahead = 0 := by rw [here.zone]; rfl
  have fraction : (fractionMs stamp.fraction : ℤ) = d.millis.1 % 1000 := by
    rw [here.fraction, fractionMs_millisDigits (by omega)]
    omega
  have hour := here.hour
  have minute := here.minute
  have second := here.second
  rw [Stamp.instant, number, ahead, fraction, hour, minute, second]
  omega

theorem Stamp.Of.text {stamp : Stamp} {d : DateTime} (here : stamp.Of d) : formatRfc3339 d = stamp.text := by
  have number : stamp.date.number = d.millis.1 / 86400000 := by rw [here.date, utcDate, number_ofNumber]
  have days_range := here.checked.number_bounds
  rw [number] at days_range
  unfold formatRfc3339
  extract_lets totalSecs ms days sod hour minute second date shown
  have total_val : totalSecs.1 = d.millis.1 / 1000 := floorDiv_val rfl rfl (by decide)
  have ms_val : ms.1 = d.millis.1 % 1000 := by
    rw [show d.millis.1 % 1000 = d.millis.1 - d.millis.1 / 1000 * 1000 by omega]
    exact sub_val rfl (mul_val total_val rfl (by omega)) (by omega)
  have days_val : days.1 = d.millis.1 / 86400000 := by
    rw [show d.millis.1 / 86400000 = d.millis.1 / 1000 / 86400 by omega]
    exact floorDiv_val total_val rfl (by decide)
  have sod_val : sod.1 = d.millis.1 / 1000 % 86400 := by
    rw [show d.millis.1 / 1000 % 86400 = d.millis.1 / 1000 - d.millis.1 / 86400000 * 86400 by omega]
    exact sub_val total_val (mul_val days_val rfl (by omega)) (by omega)
  have hour_val : hour.1 = stamp.hour := by
    rw [here.hour]
    exact div_val sod_val rfl (by omega) (by decide)
  have minute_val : minute.1 = stamp.minute := by
    rw [here.minute]
    exact div_val (mod_val sod_val rfl (by omega) (by decide)) rfl (by omega) (by decide)
  have second_val : second.1 = stamp.second := by
    rw [here.second]
    exact mod_val sod_val rfl (by omega) (by decide)
  have date_val : date.civil = stamp.date := by
    rw [here.date, utcDate, ← days_val]
    exact civilFromDays_val (by omega)
  obtain ⟨year_val, month_val, day_val⟩ := CivilDate.mk.inj date_val
  have shown_eq (zone : Text) : shown ++ zone = fixed 4 stamp.year ++ '-' :: (fixed 2 stamp.month ++ '-' :: (fixed 2 stamp.day ++
      'T' :: (fixed 2 stamp.hour ++ ':' :: (fixed 2 stamp.minute ++ ':' :: (fixed 2 stamp.second ++ zone))))) := by
    simp only [shown, pad4_eq year_val stamp.year.2, pad2_eq month_val stamp.month.2, pad2_eq day_val stamp.day.2,
      pad2_eq hour_val stamp.hour.2, pad2_eq minute_val stamp.minute.2, pad2_eq second_val stamp.second.2, List.append_assoc,
      List.cons_append, List.nil_append]
  have zero_iff : ms = 0 ↔ (d.millis.1 % 1000).toNat = 0 := by
    rw [← Subtype.val_inj, ms_val]
    show d.millis.1 % 1000 = 0 ↔ _
    omega
  rw [Stamp.text, here.zone, here.fraction]
  split
  · rename_i whole
    rw [shown_eq, zero_iff.mp whole]
    rfl
  · rename_i part
    have digits : pad3 ms = fixed 3 (d.millis.1 % 1000).toNat := pad3_eq (by rw [ms_val]; omega) (by omega)
    rw [digits, fractionText_millisDigits (mt zero_iff.mpr part), List.append_assoc, List.append_assoc, shown_eq]
    rfl

theorem parse_format {d : DateTime} (year : 0 ≤ (utcDate d).year ∧ (utcDate d).year ≤ 9999) :
    parseRfc3339 (formatRfc3339 d) = .ok d := by
  obtain ⟨stamp, here⟩ := exists_stamp year
  obtain ⟨d', run, val⟩ := parse_stamp here.text here.checked
  have same : d' = d := by
    obtain ⟨millis⟩ := d
    obtain ⟨millis'⟩ := d'
    exact congrArg DateTime.mk (I64.ext (val.trans here.instant))
  rw [run, same]

/-! ## One reading -/

theorem field_inj {w : ℕ} (narrow : w ≤ 4) {n m : Fin (10 ^ w)} {c : Char} {rest rest' : Text}
    (same : fixed w n ++ c :: rest = fixed w m ++ c :: rest') : n = m ∧ rest = rest' := by
  obtain ⟨value, behind⟩ := fixed_append_inj narrow n.2 m.2 same
  exact ⟨Fin.ext value, (List.cons.inj behind).2⟩

theorem digitsText_append_inj {digits digits' : List (Fin 10)} {rest rest' : Text} (stops : isDigit (front rest) = false)
    (stops' : isDigit (front rest') = false) (same : digitsText digits ++ rest = digitsText digits' ++ rest') :
    digits = digits' ∧ rest = rest' := by
  have alike (digits : List (Fin 10)) : ∀ c ∈ digitsText digits, isDigit (codePoint c) = true := by
    simp [digitsText, isDigit_digit]
  have fronts := congrArg (List.takeWhile fun c => isDigit (codePoint c)) same
  rw [takeWhile_exact (alike digits) stops, takeWhile_exact (alike digits') stops'] at fronts
  have distinct : Function.Injective fun d : Fin 10 => digit d.val := by decide
  obtain rfl := List.map_injective_iff.mpr distinct fronts
  exact ⟨rfl, List.append_cancel_left same⟩

theorem zone_text_injective {zone zone' : Zone} (same : zone.text = zone'.text) : zone = zone' := by
  cases zone with
  | utc =>
    cases zone' with
    | utc => rfl
    | offset west hours minutes => cases west <;> exact absurd (List.cons.inj same).1 (by decide)
  | offset west hours minutes =>
    cases zone' with
    | utc => cases west <;> exact absurd (List.cons.inj same).1 (by decide)
    | offset west' hours' minutes' =>
      obtain ⟨sign, behind⟩ := List.cons.inj same
      obtain ⟨hours_eq, behind⟩ := field_inj (w := 2) (by decide) behind
      obtain ⟨minutes_eq, -⟩ := fixed_append_inj (by decide) minutes.2 minutes'.2 (congrArg (· ++ []) behind)
      have west_eq : west = west' := by
        cases west <;> cases west' <;> first | rfl | exact absurd sign (by decide)
      rw [west_eq, hours_eq, Fin.ext minutes_eq]

theorem fraction_zone_inj {fraction fraction' : List (Fin 10)} {zone zone' : Zone}
    (same : fractionText fraction ++ zone.text = fractionText fraction' ++ zone'.text) : fraction = fraction' ∧ zone = zone' := by
  have stops (zone : Zone) := front_zone zone []
  simp only [List.append_nil] at stops
  have not_dot {zone : Zone} {others : Text} (starts : zone.text = '.' :: others) : False := by
    have front_ne := (stops zone).2
    rw [starts] at front_ne
    exact front_ne rfl
  cases fraction with
  | nil =>
    cases fraction' with
    | nil => exact ⟨rfl, zone_text_injective same⟩
    | cons d digits => exact (not_dot same).elim
  | cons d digits =>
    cases fraction' with
    | nil => exact (not_dot same.symm).elim
    | cons d' digits' =>
      obtain ⟨digits_eq, zone_eq⟩ := digitsText_append_inj (stops zone).1 (stops zone').1 (List.cons.inj same).2
      exact ⟨digits_eq, zone_text_injective zone_eq⟩

theorem Stamp.text_injective {stamp stamp' : Stamp} (same : stamp.text = stamp'.text) : stamp = stamp' := by
  obtain ⟨year, rest⟩ := field_inj (w := 4) (by decide) same
  obtain ⟨month, rest⟩ := field_inj (w := 2) (by decide) rest
  obtain ⟨day, rest⟩ := field_inj (w := 2) (by decide) rest
  obtain ⟨hour, rest⟩ := field_inj (w := 2) (by decide) rest
  obtain ⟨minute, rest⟩ := field_inj (w := 2) (by decide) rest
  obtain ⟨second, rest⟩ := fixed_append_inj (by decide) stamp.second.2 stamp'.second.2 rest
  obtain ⟨fraction, zone⟩ := fraction_zone_inj rest
  exact Stamp.ext year month day hour minute (Fin.ext second) fraction zone

/-! ## Timestamps -/

/-- The date exists and the offset is one of a clock. -/
def Stamp.Proper (stamp : Stamp) : Prop :=
  (stamp.day : ℤ) ≤ monthLength stamp.year stamp.month ∧
    ∀ west hours minutes, stamp.zone = .offset west hours minutes → hours.val ≤ 23 ∧ minutes.val ≤ 59

/-- Formatting and parsing round-trip, and a text is accepted as a well-formed timestamp only, with its instant, exactly if no
timestamp that it writes has a day beyond its month or an offset beyond 23 hours or 59 minutes. -/
theorem timestamps_iff (s : Text) :
    (∀ d : DateTime, 0 ≤ (utcDate d).year ∧ (utcDate d).year ≤ 9999 → parseRfc3339 (formatRfc3339 d) = .ok d) ∧
      ((∀ d, parseRfc3339 s = .ok d → ∃ stamp : Stamp, s = stamp.text ∧ stamp.Checked ∧ stamp.Proper ∧ d.millis.1 = stamp.instant) ↔
        ∀ stamp : Stamp, s = stamp.text → stamp.Checked → stamp.Proper) := by
  refine ⟨fun d year => parse_format year, fun accepted stamp written checked => ?_, fun proper d run => ?_⟩
  · obtain ⟨d, run, -⟩ := parse_stamp written checked
    obtain ⟨stamp', written', -, proper, -⟩ := accepted d run
    rwa [Stamp.text_injective (written.symm.trans written')]
  · obtain ⟨stamp, written, checked, val⟩ := stamp_of_parse run
    exact ⟨stamp, written, checked, proper stamp written checked, val⟩

theorem february_thirtieth_accepted :
    (∃ d, parseRfc3339 "2023-02-30T00:00:00Z".toList = .ok d) ∧ (∃ d, parseRfc3339 "2023-02-28T00:00:00+99:99".toList = .ok d) ∧
      (∀ stamp : Stamp, "2023-02-30T00:00:00Z".toList = stamp.text → ¬ stamp.Proper) ∧
      ∀ stamp : Stamp, "2023-02-28T00:00:00+99:99".toList = stamp.text → ¬ stamp.Proper := by
  refine ⟨⟨⟨1677715200000⟩, by decide +kernel⟩, ⟨⟨1677180060000⟩, by decide +kernel⟩, ?_, ?_⟩
  · intro stamp written proper
    obtain rfl := Stamp.text_injective (written.symm.trans
      (show _ = (Stamp.mk 2023 2 30 0 0 0 [] .utc).text by decide +kernel))
    exact absurd proper.1 (by decide)
  · intro stamp written proper
    obtain rfl := Stamp.text_injective (written.symm.trans
      (show _ = (Stamp.mk 2023 2 28 0 0 0 [] (.offset false 99 99)).text by decide +kernel))
    exact absurd (proper.2 false 99 99 rfl).1 (by decide)

end Thera.Sdk.Time
