import Thera.Proofs.Sdk.Civil
import Thera.Proofs.Sdk.Scan

/-! # The grammar of timestamps

The texts that `parse_rfc3339` takes: numbers of a fixed width, an optional fraction of a second and a zone. Each reader is stated by
what remains of the text at its position.
-/

namespace Thera.Sdk.Time

open Gregorian Scanning

/-! ## Numbers of a fixed width -/

def digit (n : ℕ) : Char := Char.ofNat (48 + n)

/-- The last `width` decimal digits of a number. -/
def fixed : ℕ → ℕ → Text
  | 0, _ => []
  | width + 1, n => digit (n / 10 ^ width % 10) :: fixed width n

@[simp]
theorem length_fixed (width n : ℕ) : (fixed width n).length = width := by
  induction width with
  | zero => rfl
  | succ width ih => rw [fixed, List.length_cons, ih]

theorem fixed_add_mul (width n m : ℕ) : fixed width (n + m * 10 ^ width) = fixed width n := by
  induction width generalizing m with
  | zero => rfl
  | succ width ih =>
    have shifted : n + m * 10 ^ (width + 1) = n + m * 10 * 10 ^ width := by ring
    have first : (n + m * 10 * 10 ^ width) / 10 ^ width % 10 = n / 10 ^ width % 10 := by
      rw [Nat.add_mul_div_right _ _ (by positivity)]
      omega
    rw [shifted, fixed, fixed, ih, first]

theorem fixed_cons {width n k : ℕ} (n_lt : n < 10 ^ width) (small : k < 10) :
    fixed (width + 1) (k * 10 ^ width + n) = digit k :: fixed width n := by
  rw [add_comm (k * 10 ^ width), fixed, fixed_add_mul, Nat.add_mul_div_right _ _ (by positivity), Nat.div_eq_of_lt n_lt, zero_add,
    Nat.mod_eq_of_lt small]

theorem codePoint_of_digit {n : ℕ} (small : n < 10) : codePoint (digit n) = 48 + n := codePoint_digit small

theorem isDigit_digit {n : ℕ} (small : n < 10) : isDigit (codePoint (digit n)) = true := by
  rw [codePoint_of_digit small, isDigit, Bool.and_eq_true, decide_eq_true_eq, decide_eq_true_eq]
  omega

theorem exists_digit {c : Char} (isDig : isDigit (codePoint c) = true) : ∃ n < 10, c = digit n := by
  rw [isDigit, Bool.and_eq_true, decide_eq_true_eq, decide_eq_true_eq, codePoint] at isDig
  refine ⟨c.toNat - 48, by omega, ?_⟩
  rw [digit, show 48 + (c.toNat - 48) = c.toNat by omega, Char.ofNat_toNat]

theorem digitAt_val {n : ℕ} (small : n < 10) : (digitAt (codePoint (digit n))).1 = n := by
  rw [codePoint_of_digit small, digitAt, add_sub_cancel_left]
  exact wrapI64_val (by omega)

/-! ## Reading at a position -/

section

variable {s rest : Text} {i : ℕ} {c : Char}

theorem digitsLoop_step {width k : ℕ} {value : I64} (here : At s i (c :: rest)) (digits : c = digit k) (small : k < 10) :
    digitsLoop (codePoints s) i (i + (width + 1)) value (width + 2) =
      digitsLoop (codePoints s) (i + 1) (i + 1 + width) (value * 10 + digitAt (codePoint c)) (width + 1) := by
  subst digits
  have inside : i < i + (width + 1) := by omega
  rw [digitsLoop, if_pos inside, codeAt_run here, show i + (width + 1) = i + 1 + width by omega]
  exact if_pos (isDigit_digit small)

/-- One more digit of a number that stays small. -/
theorem digits_acc {width k : ℕ} {value : I64} (digits : c = digit k) (small : k < 10) (nonneg : 0 ≤ value.1)
    (bound : (value.1 + 1) * 10 ^ (width + 1) ≤ 10 ^ 4) :
    (value * 10 + digitAt (codePoint c)).1 = value.1 * 10 + k ∧ (value.1 * 10 + k + 1) * 10 ^ width ≤ 10 ^ 4 := by
  have power : (1 : ℤ) ≤ 10 ^ width := one_le_pow₀ (by norm_num)
  have spread : (value.1 + 1) * 10 ^ (width + 1) = (value.1 * 10 + 10) * 10 ^ width := by ring
  rw [spread] at bound
  have value_small : value.1 * 10 + 10 ≤ 10 ^ 4 := by nlinarith
  subst digits
  refine ⟨add_val (mul_val rfl rfl ?_) (digitAt_val small) ?_, ?_⟩
  · exact ⟨by omega, by omega⟩
  · exact ⟨by omega, by omega⟩
  · have digit_le : value.1 * 10 + k + 1 ≤ value.1 * 10 + 10 := by omega
    exact (mul_le_mul_of_nonneg_right digit_le (by omega)).trans bound

theorem digitsLoop_run {width n : ℕ} {value : I64} (here : At s i (fixed width n ++ rest)) (nonneg : 0 ≤ value.1)
    (bound : (value.1 + 1) * 10 ^ width ≤ 10 ^ 4) :
    ∃ v : I64, digitsLoop (codePoints s) i (i + width) value (width + 1) = .ok v ∧
      v.1 = value.1 * 10 ^ width + (n % 10 ^ width : ℕ) := by
  induction width generalizing i value with
  | zero =>
    refine ⟨value, ?_, ?_⟩
    · rw [digitsLoop, if_neg (by omega)]
      rfl
    · rw [pow_zero, mul_one, pow_zero, Nat.mod_one, Nat.cast_zero, add_zero]
  | succ width ih =>
    have small : n / 10 ^ width % 10 < 10 := Nat.mod_lt _ (by decide)
    obtain ⟨acc, acc_bound⟩ := digits_acc rfl small nonneg bound
    rw [fixed, List.cons_append] at here
    have acc_nonneg : 0 ≤ (value * 10 + digitAt (codePoint (digit (n / 10 ^ width % 10)))).1 := by omega
    rw [← acc] at acc_bound
    obtain ⟨v, run, v_val⟩ := ih here.step acc_nonneg acc_bound
    refine ⟨v, ?_, ?_⟩
    · rw [digitsLoop_step here rfl small]
      exact run
    · rw [v_val, acc, Nat.pow_succ, Nat.mod_mul]
      push_cast
      ring

theorem digitsLoop_ok {width : ℕ} {value v : I64} (here : At s i rest)
    (read : digitsLoop (codePoints s) i (i + width) value (width + 1) = .ok v) :
    ∃ n < 10 ^ width, ∃ rest', rest = fixed width n ++ rest' := by
  induction width generalizing i value rest with
  | zero => exact ⟨0, by decide, rest, rfl⟩
  | succ width ih =>
    have inside : i < i + (width + 1) := by omega
    cases rest with
    | nil =>
      rw [digitsLoop, if_pos inside, codeAt_end here] at read
      cases read
    | cons c rest =>
      by_cases isDig : isDigit (codePoint c) = true
      · obtain ⟨k, small, digits⟩ := exists_digit isDig
        rw [digitsLoop_step here digits small] at read
        obtain ⟨n, n_lt, rest', split⟩ := ih here.step read
        refine ⟨k * 10 ^ width + n, ?_, rest', ?_⟩
        · rw [pow_succ]
          nlinarith
        · rw [fixed_cons n_lt small, digits, split]
          rfl
      · rw [digitsLoop, if_pos inside, codeAt_run here] at read
        change (if isDigit (codePoint c) then _ else _) = _ at read
        rw [if_neg isDig] at read
        cases read

theorem readDigits_run {width n : ℕ} (here : At s i (fixed width n ++ rest)) (narrow : width ≤ 4) (n_lt : n < 10 ^ width) :
    ∃ v : I64, readDigits (codePoints s) i width = .ok v ∧ v.1 = n := by
  have length := here.length
  rw [List.length_append, length_fixed] at length
  have bound : ((0 : I64).1 + 1) * 10 ^ width ≤ 10 ^ 4 := by
    rw [show (0 : I64).1 = 0 from rfl, zero_add, one_mul]
    exact pow_le_pow_right₀ (by norm_num) narrow
  obtain ⟨v, run, v_val⟩ := digitsLoop_run here (show 0 ≤ (0 : I64).1 from le_refl 0) bound
  refine ⟨v, ?_, ?_⟩
  · rw [readDigits, if_neg (by rw [length_codePoints]; omega)]
    exact run
  · rw [v_val, show (0 : I64).1 = 0 from rfl, zero_mul, zero_add, Nat.mod_eq_of_lt n_lt]

theorem fixed_append_inj {width n m : ℕ} {rest rest' : Text} (narrow : width ≤ 4) (n_lt : n < 10 ^ width) (m_lt : m < 10 ^ width)
    (same : fixed width n ++ rest = fixed width m ++ rest') : n = m ∧ rest = rest' := by
  have again : At (fixed width n ++ rest) 0 (fixed width m ++ rest') := by
    rw [← same]
    exact At.start _
  obtain ⟨v, read, n_val⟩ := readDigits_run (At.start _) narrow n_lt
  obtain ⟨v', read', m_val⟩ := readDigits_run again narrow m_lt
  cases read.symm.trans read'
  obtain rfl : n = m := by omega
  exact ⟨rfl, List.append_cancel_left same⟩

theorem readDigits_ok {width : ℕ} {v : I64} (here : At s i rest) (narrow : width ≤ 4)
    (read : readDigits (codePoints s) i width = .ok v) :
    ∃ n : ℕ, n < 10 ^ width ∧ v.1 = n ∧ ∃ rest', rest = fixed width n ++ rest' ∧ At s (i + width) rest' := by
  have loop := read
  rw [readDigits] at loop
  split at loop
  · cases loop
  · obtain ⟨n, n_lt, rest', rfl⟩ := digitsLoop_ok here loop
    obtain ⟨v', run, v_val⟩ := readDigits_run here narrow n_lt
    rw [read] at run
    cases run
    have behind := here.append
    rw [length_fixed] at behind
    exact ⟨n, n_lt, v_val, rest', rfl, behind⟩

theorem inside (here : At s i (c :: rest)) : i < (codePoints s).length := by
  rw [length_codePoints]
  exact here.lt

theorem beyond (here : At s i []) : i ≥ (codePoints s).length := by
  rw [length_codePoints]
  exact here.end_.ge

theorem expectCode_run (here : At s i (c :: rest)) : expectCode (codePoints s) i (codePoint c) = .ok () := by
  rw [expectCode, if_neg (inside here).not_ge, codeAt_run here]
  exact if_neg (not_not.mpr rfl)

theorem expectCode_ok (here : At s i rest) (read : expectCode (codePoints s) i (codePoint c) = .ok ()) :
    ∃ rest', rest = c :: rest' ∧ At s (i + 1) rest' := by
  cases rest with
  | nil =>
    rw [expectCode, if_pos (beyond here)] at read
    cases read
  | cons d rest =>
    rw [expectCode, if_neg (inside here).not_ge, codeAt_run here] at read
    change (if codePoint d ≠ codePoint c then _ else _) = _ at read
    split at read
    · cases read
    · rename_i same
      exact ⟨rest, by rw [codePoint_inj.mp (not_not.mp same)], here.step⟩

/-! ## Fractions -/

def digitsText (digits : List (Fin 10)) : Text := digits.map fun d : Fin 10 => digit d.val

/-- The number that digits write. -/
def valueOf : List (Fin 10) → ℕ
  | [] => 0
  | d :: digits => d * 10 ^ digits.length + valueOf digits

theorem valueOf_lt (digits : List (Fin 10)) : valueOf digits < 10 ^ digits.length := by
  induction digits with
  | nil => exact Nat.one_pos
  | cons d digits ih =>
    have d_le : (d : ℕ) ≤ 9 := by omega
    rw [valueOf, List.length_cons, pow_succ]
    nlinarith

/-- The milliseconds of a fraction of a second, rounded down. -/
def fractionMs (digits : List (Fin 10)) : ℕ := valueOf digits * 1000 / 10 ^ digits.length

/-- What the digits add, the first one counting `place` times. -/
def placed : ℕ → List (Fin 10) → ℕ
  | _, [] => 0
  | place, d :: digits => d * place + placed (place / 10) digits

theorem placed_eq {place : ℕ} (digits : List (Fin 10)) (power : place = 100 ∨ place = 10 ∨ place = 1 ∨ place = 0) :
    placed place digits = valueOf digits * (place * 10) / 10 ^ digits.length := by
  induction digits generalizing place with
  | nil => simp [placed, valueOf]
  | cons d digits ih =>
    have positive : 0 < 10 ^ digits.length := by positivity
    have value_lt := valueOf_lt digits
    have factored : valueOf (d :: digits) * (place * 10) / 10 ^ (d :: digits).length =
        d * place + valueOf digits * place / 10 ^ digits.length := by
      rw [valueOf, List.length_cons, pow_succ, ← mul_assoc, Nat.mul_div_mul_right _ _ (by decide), add_mul,
        mul_right_comm, Nat.add_comm, Nat.add_mul_div_right _ _ positive, Nat.add_comm]
    rw [factored, placed, ih (by omega)]
    obtain rfl | rfl | rfl | rfl := power
    · rfl
    · rfl
    · rw [Nat.div_eq_of_lt (show valueOf digits * 1 < _ by omega)]
      simp
    · simp

theorem placed_hundred (digits : List (Fin 10)) : placed 100 digits = fractionMs digits := placed_eq digits (.inl rfl)

theorem exists_digits (rest : Text) :
    ∃ digits rest', rest = digitsText digits ++ rest' ∧ isDigit (front rest') = false := by
  induction rest with
  | nil => exact ⟨[], [], rfl, rfl⟩
  | cons c rest ih =>
    cases isDig : isDigit (codePoint c) with
    | false => exact ⟨[], c :: rest, rfl, isDig⟩
    | true =>
      obtain ⟨k, small, digits⟩ := exists_digit isDig
      obtain ⟨others, rest', split, stops⟩ := ih
      exact ⟨⟨k, small⟩ :: others, rest', by rw [split, digits]; rfl, stops⟩

theorem fractionLoop_stop {fracMs place : I64} {seen : Bool} {fuel : ℕ} (here : At s i rest) (stops : isDigit (front rest) = false) :
    fractionLoop (codePoints s) i fracMs place seen (fuel + 1) = .ok (i, fracMs, seen) := by
  rw [fractionLoop]
  cases rest with
  | nil =>
    rw [if_neg (beyond here).not_gt]
    rfl
  | cons c rest =>
    rw [if_pos (inside here), codeAt_run here]
    change (if isDigit (codePoint c) then _ else _) = _
    rw [if_neg (by rw [show isDigit (codePoint c) = false from stops]; exact Bool.false_ne_true)]
    rfl

theorem fractionLoop_step {fracMs place : I64} {seen : Bool} {fuel k : ℕ} (here : At s i (digit k :: rest)) (small : k < 10) :
    fractionLoop (codePoints s) i fracMs place seen (fuel + 1) =
      if place ≥ 1 then fractionLoop (codePoints s) (i + 1) (fracMs + digitAt (codePoint (digit k)) * place) (place / 10) true fuel
      else fractionLoop (codePoints s) (i + 1) fracMs place true fuel := by
  rw [fractionLoop, if_pos (inside here), codeAt_run here]
  exact if_pos (isDigit_digit small)

theorem fractionLoop_run {digits : List (Fin 10)} {fracMs place : I64} {p fuel : ℕ} {seen : Bool}
    (here : At s i (digitsText digits ++ rest)) (stops : isDigit (front rest) = false) (enough : digits.length < fuel)
    (place_val : place.1 = p) (bounds : 0 ≤ fracMs.1 ∧ fracMs.1 + p * 10 ≤ 1000) :
    ∃ v : I64, fractionLoop (codePoints s) i fracMs place seen fuel = .ok (i + digits.length, v, seen || !digits.isEmpty) ∧
      v.1 = fracMs.1 + placed p digits := by
  induction digits generalizing i fracMs place p fuel seen with
  | nil =>
    obtain ⟨fuel, rfl⟩ := Nat.exists_eq_add_of_lt enough
    refine ⟨fracMs, ?_, ?_⟩
    · rw [fractionLoop_stop here stops, List.isEmpty_nil, Bool.not_true, Bool.or_false]
      rfl
    · rw [placed, Nat.cast_zero, add_zero]
  | cons d digits ih =>
    obtain ⟨fuel, rfl⟩ : ∃ k, fuel = k + 1 := ⟨fuel - 1, by rw [List.length_cons] at enough; omega⟩
    have enough' : digits.length < fuel := by
      rw [List.length_cons] at enough
      omega
    have d_mul : (d : ℤ) * p ≤ 9 * p := mul_le_mul_of_nonneg_right (by omega) (by omega)
    have d_mul_nonneg : 0 ≤ (d : ℤ) * p := by positivity
    have positions : i + 1 + digits.length = i + (d :: digits).length := by
      rw [List.length_cons]
      omega
    rw [digitsText, List.map_cons, List.cons_append] at here
    rw [fractionLoop_step here d.2, placed]
    split
    · rename_i counts
      have place_val' : (place / 10).1 = (p / 10 : ℕ) := by
        rw [div_val place_val rfl (by omega) (by decide)]
        rfl
      have added : (fracMs + digitAt (codePoint (digit d)) * place).1 = fracMs.1 + d * p :=
        add_val rfl (mul_val (digitAt_val d.2) place_val (by omega)) (by omega)
      obtain ⟨v, run, v_val⟩ := @ih (i + 1) _ _ _ fuel true here.step enough' place_val' (by rw [added]; omega)
      refine ⟨v, ?_, ?_⟩
      · rw [run, positions]
        simp
      · rw [v_val, added]
        push_cast
        ring
    · rename_i done
      have zero : p = 0 := by
        have below : ¬ 1 ≤ place.1 := done
        omega
      subst zero
      obtain ⟨v, run, v_val⟩ := @ih (i + 1) fracMs place 0 fuel true here.step enough' place_val bounds
      refine ⟨v, ?_, ?_⟩
      · rw [run, positions]
        simp
      · rw [v_val, mul_zero, zero_add, Nat.zero_div]

def fractionText : List (Fin 10) → Text
  | [] => []
  | d :: digits => '.' :: digitsText (d :: digits)

theorem readFraction_dot {j : ℕ} {v : I64} {seen : Bool} (here : At s i ('.' :: rest))
    (run : fractionLoop (codePoints s) (i + 1) 0 100 false ((codePoints s).length + 1) = .ok (j, v, seen)) :
    readFraction (codePoints s) i = if seen then .ok (j, v) else parseFail "fractional seconds need at least one digit" := by
  rw [readFraction, if_pos (inside here), codeAt_run here, ok_bind, if_pos (show codePoint '.' = 46 from rfl), run]
  rfl

theorem readFraction_bare (here : At s i rest) (bare : front rest ≠ 46) : readFraction (codePoints s) i = .ok (i, 0) := by
  rw [readFraction]
  cases rest with
  | nil =>
    rw [if_neg (beyond here).not_gt]
    rfl
  | cons c rest =>
    rw [if_pos (inside here), codeAt_run here]
    exact if_neg bare

theorem fractionLoop_all {digits : List (Fin 10)} (here : At s i (digitsText digits ++ rest)) (stops : isDigit (front rest) = false) :
    ∃ v : I64, fractionLoop (codePoints s) i 0 100 false ((codePoints s).length + 1) = .ok (i + digits.length, v, !digits.isEmpty) ∧
      v.1 = fractionMs digits := by
  have length := here.length
  rw [List.length_append, digitsText, List.length_map] at length
  obtain ⟨v, run, v_val⟩ := @fractionLoop_run s rest i digits 0 100 100 ((codePoints s).length + 1) false here stops
    (by rw [length_codePoints]; omega) rfl ⟨le_refl 0, le_refl 1000⟩
  exact ⟨v, run, by rw [v_val, placed_hundred, show (0 : I64).1 = 0 from rfl, zero_add]⟩

theorem readFraction_run {digits : List (Fin 10)} (here : At s i (fractionText digits ++ rest)) (stops : isDigit (front rest) = false)
    (bare : front rest ≠ 46) :
    ∃ v : I64, readFraction (codePoints s) i = .ok (i + (fractionText digits).length, v) ∧ v.1 = fractionMs digits := by
  cases digits with
  | nil => exact ⟨0, readFraction_bare here bare, rfl⟩
  | cons d digits =>
    obtain ⟨v, run, v_val⟩ := fractionLoop_all here.step stops
    refine ⟨v, ?_, v_val⟩
    have positions : i + 1 + (d :: digits).length = i + (fractionText (d :: digits)).length := by
      rw [fractionText, List.length_cons, List.length_cons, digitsText, List.length_map, List.length_cons]
      omega
    rw [readFraction_dot here run, positions]
    rfl

theorem readFraction_ok {j : ℕ} {v : I64} (here : At s i rest) (read : readFraction (codePoints s) i = .ok (j, v)) :
    ∃ digits rest', rest = fractionText digits ++ rest' ∧ At s j rest' ∧ v.1 = fractionMs digits := by
  by_cases dot : front rest = codePoint '.'
  · obtain ⟨rest, rfl⟩ := front_eq.mp dot
    obtain ⟨digits, rest', rfl, stops⟩ := exists_digits rest
    obtain ⟨v', run, v_val⟩ := fractionLoop_all here.step stops
    rw [readFraction_dot here run] at read
    cases digits with
    | nil => cases read
    | cons d digits =>
      cases read
      have behind := here.step.append
      rw [digitsText, List.length_map] at behind
      exact ⟨d :: digits, rest', rfl, behind, v_val⟩
  · rw [readFraction_bare here dot] at read
    cases read
    exact ⟨[], rest, rfl, here, rfl⟩

/-! ## Zones -/

inductive Zone where
  | utc
  | offset (west : Bool) (hours minutes : Fin 100)
  deriving DecidableEq

namespace Zone

def text : Zone → Text
  | utc => ['Z']
  | offset west hours minutes => (if west then '-' else '+') :: (fixed 2 hours ++ ':' :: fixed 2 minutes)

/-- Minutes ahead of UTC. -/
def ahead : Zone → ℤ
  | utc => 0
  | offset west hours minutes => if west then -(hours * 60 + minutes) else hours * 60 + minutes

end Zone

theorem signed_val {offset : I64} {n : ℤ} (west : Bool) (val : offset.1 = n) (small : 0 ≤ n ∧ n ≤ 10000) :
    (if codePoint (if west then '-' else '+') = 45 then -offset else offset).1 = if west then -n else n := by
  cases west with
  | false => exact val
  | true => exact neg_val val (by omega)

theorem readZone_offset {west : Bool} (here : At s i ((if west then '-' else '+') :: rest)) :
    readZone (codePoints s) i = do
      let oh ← readDigits (codePoints s) (i + 1) 2
      expectCode (codePoints s) (i + 3) 58
      let om ← readDigits (codePoints s) (i + 4) 2
      return (i + 6, if codePoint (if west then '-' else '+') = 45 then -(oh * 60 + om) else oh * 60 + om) := by
  rw [readZone, if_neg (inside here).not_ge, codeAt_run here]
  cases west with
  | false | true => rfl

theorem readZone_run {zone : Zone} (here : At s i (zone.text ++ rest)) :
    ∃ v : I64, readZone (codePoints s) i = .ok (i + zone.text.length, v) ∧ v.1 = zone.ahead := by
  cases zone with
  | utc =>
    refine ⟨0, ?_, rfl⟩
    rw [readZone, if_neg (inside here).not_ge, codeAt_run here]
    rfl
  | offset west hours minutes =>
    rw [Zone.text, List.cons_append, List.append_assoc, List.cons_append] at here
    obtain ⟨oh, hours_read, oh_val⟩ := readDigits_run here.step (by decide) hours.2
    have colon := here.step.append
    rw [length_fixed] at colon
    obtain ⟨om, minutes_read, om_val⟩ := readDigits_run colon.step (by decide) minutes.2
    have colon_read := expectCode_run colon
    refine ⟨if codePoint (if west then '-' else '+') = 45 then -(oh * 60 + om) else oh * 60 + om, ?_, ?_⟩
    · rw [readZone_offset here, hours_read]
      change (expectCode (codePoints s) (i + 1 + 2) (codePoint ':') >>= _) = _
      rw [colon_read]
      change (readDigits (codePoints s) (i + 1 + 2 + 1) 2 >>= _) = _
      rw [minutes_read]
      have length : (Zone.offset west hours minutes).text.length = 6 := by
        rw [Zone.text, List.length_cons, List.length_append, List.length_cons, length_fixed, length_fixed]
      rw [length]
      rfl
    · have product : (oh * 60).1 = hours * 60 := mul_val oh_val rfl (by omega)
      exact signed_val west (add_val product om_val (by omega)) (by omega)

theorem readZone_ok {j : ℕ} {v : I64} (here : At s i rest) (read : readZone (codePoints s) i = .ok (j, v)) :
    ∃ zone rest', rest = Zone.text zone ++ rest' ∧ At s j rest' ∧ v.1 = zone.ahead := by
  -- the text decides the shape; the values are those of the run on that shape
  obtain ⟨zone, rest', rfl⟩ : ∃ zone rest', rest = Zone.text zone ++ rest' := by
    cases rest with
    | nil =>
      rw [readZone, if_pos (beyond here)] at read
      cases read
    | cons c rest =>
      by_cases utc : codePoint c = 90
      · exact ⟨.utc, rest, by rw [codePoint_inj.mp (show codePoint c = codePoint 'Z' from utc)]; rfl⟩
      · obtain ⟨west, rfl⟩ : ∃ west : Bool, c = if west then '-' else '+' := by
          by_cases sign : codePoint c = 43 ∨ codePoint c = 45
          · obtain plus | minus := sign
            · exact ⟨false, codePoint_inj.mp plus⟩
            · exact ⟨true, codePoint_inj.mp minus⟩
          · rw [readZone, if_neg (inside here).not_ge, codeAt_run here, ok_bind, if_neg utc, if_neg sign] at read
            cases read
        rw [readZone_offset here] at read
        obtain ⟨oh, hours_read, read⟩ := bind_ok read
        obtain ⟨⟨⟩, colon_read, read⟩ := bind_ok read
        obtain ⟨om, minutes_read, -⟩ := bind_ok read
        obtain ⟨hours, hours_lt, -, rest, rfl, colon⟩ := readDigits_ok here.step (by decide) hours_read
        obtain ⟨rest, rfl, behind⟩ := expectCode_ok (c := ':') colon colon_read
        obtain ⟨minutes, minutes_lt, -, rest, rfl, -⟩ := readDigits_ok behind (by decide) minutes_read
        exact ⟨.offset west ⟨hours, hours_lt⟩ ⟨minutes, minutes_lt⟩, rest, by simp [Zone.text]⟩
  obtain ⟨v', run, v_val⟩ := readZone_run here
  rw [read] at run
  cases run
  exact ⟨zone, rest', rfl, here.append, v_val⟩

end

/-! ## Timestamps -/

/-- The fields of a timestamp, as many digits as each has. -/
@[ext]
structure Stamp where
  year : Fin 10000
  month : Fin 100
  day : Fin 100
  hour : Fin 100
  minute : Fin 100
  second : Fin 100
  fraction : List (Fin 10)
  zone : Zone

namespace Stamp

def text (stamp : Stamp) : Text :=
  fixed 4 stamp.year ++ '-' :: (fixed 2 stamp.month ++ '-' :: (fixed 2 stamp.day ++ 'T' :: (fixed 2 stamp.hour ++
    ':' :: (fixed 2 stamp.minute ++ ':' :: (fixed 2 stamp.second ++ (fractionText stamp.fraction ++ stamp.zone.text))))))

/-- The ranges that the parser checks. -/
structure Checked (stamp : Stamp) : Prop where
  month : 1 ≤ stamp.month.val ∧ stamp.month.val ≤ 12
  day : 1 ≤ stamp.day.val ∧ stamp.day.val ≤ 31
  hour : stamp.hour.val ≤ 23
  minute : stamp.minute.val ≤ 59
  second : stamp.second.val ≤ 60

def date (stamp : Stamp) : CivilDate := ⟨stamp.year, stamp.month, stamp.day⟩

/-- The instant in milliseconds since 1970, with the further digits of the fraction cut off. -/
def instant (stamp : Stamp) : ℤ :=
  (stamp.date.number * 86400 + stamp.hour * 3600 + stamp.minute * 60 + stamp.second - stamp.zone.ahead * 60) * 1000 +
    fractionMs stamp.fraction

end Stamp

theorem fractionMs_lt (digits : List (Fin 10)) : fractionMs digits < 1000 := by
  apply Nat.div_lt_of_lt_mul
  have below := valueOf_lt digits
  omega

theorem zone_ahead_bounds (zone : Zone) : -6039 ≤ zone.ahead ∧ zone.ahead ≤ 6039 := by
  cases zone with
  | utc => decide
  | offset west hours minutes =>
    unfold Zone.ahead
    split <;> omega

theorem Stamp.Checked.number_bounds {stamp : Stamp} (checked : stamp.Checked) :
    -1000000 ≤ stamp.date.number ∧ stamp.date.number ≤ 4000000 := by
  have month := checked.month
  have day := checked.day
  rw [number_eq, Stamp.date]
  unfold yearStart monthStart fromMarch marchYear
  dsimp only
  split <;> omega

theorem instant_val {stamp : Stamp} (checked : stamp.Checked) {year month day hour minute second offset fracMs : I64}
    (year_val : year.1 = stamp.year) (month_val : month.1 = stamp.month) (day_val : day.1 = stamp.day)
    (hour_val : hour.1 = stamp.hour) (minute_val : minute.1 = stamp.minute) (second_val : second.1 = stamp.second)
    (offset_val : offset.1 = stamp.zone.ahead) (frac_val : fracMs.1 = fractionMs stamp.fraction) :
    ((daysFromCivil year month day * 86400 + hour * 3600 + minute * 60 + second - offset * 60) * 1000 + fracMs).1 =
      stamp.instant := by
  have month_bounds := checked.month
  have day_bounds := checked.day
  have hour_lt := checked.hour
  have minute_lt := checked.minute
  have second_lt := checked.second
  have ahead := zone_ahead_bounds stamp.zone
  have fraction := fractionMs_lt stamp.fraction
  have same_date : CivilDate.mk year.1 month.1 day.1 = stamp.date := by rw [year_val, month_val, day_val, Stamp.date]
  have days := checked.number_bounds
  have number : (daysFromCivil year month day).1 = stamp.date.number := by
    rw [← same_date]
    exact daysFromCivil_val (by omega) (by omega) (by rw [same_date]; omega)
  have secs := add_val (add_val (add_val (mul_val number (show (86400 : I64).1 = 86400 from rfl) (by omega))
    (mul_val hour_val (show (3600 : I64).1 = 3600 from rfl) (by omega)) (by omega))
    (mul_val minute_val (show (60 : I64).1 = 60 from rfl) (by omega)) (by omega)) second_val (by omega)
  have utc := sub_val secs (mul_val offset_val (show (60 : I64).1 = 60 from rfl) (by omega)) (by omega)
  exact add_val (mul_val utc (show (1000 : I64).1 = 1000 from rfl) (by omega)) frac_val (by omega)

theorem checkRange_iff {value low high : I64} {what : String} :
    checkRange value low high what = .ok () ↔ low.1 ≤ value.1 ∧ value.1 ≤ high.1 := by
  have outside : value < low ∨ value > high ↔ value.1 < low.1 ∨ high.1 < value.1 := Iff.rfl
  simp only [checkRange, outside]
  split
  · exact iff_of_false (by simp) (by omega)
  · exact iff_of_true rfl (by omega)

theorem front_zone (zone : Zone) (rest : Text) : isDigit (front (zone.text ++ rest)) = false ∧ front (zone.text ++ rest) ≠ 46 := by
  cases zone with
  | utc => exact ⟨rfl, show codePoint 'Z' ≠ 46 by decide⟩
  | offset west hours minutes =>
    cases west with
    | false => exact ⟨rfl, show codePoint '+' ≠ 46 by decide⟩
    | true => exact ⟨rfl, show codePoint '-' ≠ 46 by decide⟩

theorem zone_text_ne_nil (zone : Zone) : zone.text ≠ [] := by
  cases zone <;> exact List.cons_ne_nil _ _

/-- A field and the mark behind it. -/
theorem field_run {s rest : Text} {i width n : ℕ} {c : Char} (here : At s i (fixed width n ++ c :: rest)) (narrow : width ≤ 4)
    (n_lt : n < 10 ^ width) :
    ∃ v : I64, readDigits (codePoints s) i width = .ok v ∧ v.1 = n ∧ expectCode (codePoints s) (i + width) (codePoint c) = .ok () ∧
      At s (i + width + 1) rest := by
  obtain ⟨v, read, val⟩ := readDigits_run here narrow n_lt
  have behind := here.append
  rw [length_fixed] at behind
  exact ⟨v, read, val, expectCode_run behind, behind.step⟩

theorem field_ok {s rest : Text} {i width : ℕ} {c : Char} {v : I64} (here : At s i rest) (narrow : width ≤ 4)
    (read : readDigits (codePoints s) i width = .ok v) (mark : expectCode (codePoints s) (i + width) (codePoint c) = .ok ()) :
    ∃ n : ℕ, n < 10 ^ width ∧ v.1 = n ∧ ∃ rest', rest = fixed width n ++ c :: rest' ∧ At s (i + width + 1) rest' := by
  obtain ⟨n, n_lt, val, rest, rfl, behind⟩ := readDigits_ok here narrow read
  obtain ⟨rest', rfl, after⟩ := expectCode_ok behind mark
  exact ⟨n, n_lt, val, rest', rfl, after⟩

/-- The parser takes every timestamp of the grammar whose fields are in the checked ranges, for its instant. -/
theorem parse_stamp {s : Text} {stamp : Stamp} (written : s = stamp.text) (checked : stamp.Checked) :
    ∃ d : DateTime, parseRfc3339 s = .ok d ∧ d.millis.1 = stamp.instant := by
  have start : At s 0 stamp.text := by
    rw [written]
    exact At.start _
  have length : ¬ (codePoints s).length < 20 := by
    have zone_length := List.length_pos_iff.mpr (zone_text_ne_nil stamp.zone)
    rw [length_codePoints, written, Stamp.text]
    simp only [List.length_append, List.length_cons, length_fixed]
    omega
  rw [Stamp.text] at start
  obtain ⟨year, year_read, year_val, (dash : expectCode _ 4 45 = _), (at_month : At _ 5 _)⟩ := field_run start (by decide) stamp.year.2
  obtain ⟨month, month_read, month_val, (dash' : expectCode _ 7 45 = _), (at_day : At _ 8 _)⟩ :=
    field_run at_month (by decide) stamp.month.2
  obtain ⟨day, day_read, day_val, (mark : expectCode _ 10 84 = _), (at_hour : At _ 11 _)⟩ := field_run at_day (by decide) stamp.day.2
  obtain ⟨hour, hour_read, hour_val, (colon : expectCode _ 13 58 = _), (at_minute : At _ 14 _)⟩ :=
    field_run at_hour (by decide) stamp.hour.2
  obtain ⟨minute, minute_read, minute_val, (colon' : expectCode _ 16 58 = _), (at_second : At _ 17 _)⟩ :=
    field_run at_minute (by decide) stamp.minute.2
  obtain ⟨second, second_read, second_val⟩ := readDigits_run at_second (by decide) stamp.second.2
  have at_fraction := at_second.append
  rw [length_fixed] at at_fraction
  obtain ⟨stops, bare⟩ := front_zone stamp.zone []
  rw [List.append_nil] at stops bare
  obtain ⟨fracMs, fraction_read, frac_val⟩ := readFraction_run at_fraction stops bare
  have at_zone := at_fraction.append
  rw [← List.append_nil stamp.zone.text] at at_zone
  obtain ⟨offset, zone_read, offset_val⟩ := readZone_run at_zone
  have stop : 17 + 2 + (fractionText stamp.fraction).length + stamp.zone.text.length = (codePoints s).length := by
    rw [length_codePoints]
    exact at_zone.append.end_
  have month_le := checked.month
  have day_le := checked.day
  have hour_le := checked.hour
  have minute_le := checked.minute
  have second_le := checked.second
  have month_in : checkRange month 1 12 "month" = .ok () := checkRange_iff.mpr (show (1 : ℤ) ≤ _ ∧ _ ≤ (12 : ℤ) by omega)
  have day_in : checkRange day 1 31 "day" = .ok () := checkRange_iff.mpr (show (1 : ℤ) ≤ _ ∧ _ ≤ (31 : ℤ) by omega)
  have hour_in : checkRange hour 0 23 "hour" = .ok () := checkRange_iff.mpr (show (0 : ℤ) ≤ _ ∧ _ ≤ (23 : ℤ) by omega)
  have minute_in : checkRange minute 0 59 "minute" = .ok () := checkRange_iff.mpr (show (0 : ℤ) ≤ _ ∧ _ ≤ (59 : ℤ) by omega)
  have second_in : checkRange second 0 60 "second" = .ok () := checkRange_iff.mpr (show (0 : ℤ) ≤ _ ∧ _ ≤ (60 : ℤ) by omega)
  refine ⟨⟨_⟩, ?_, instant_val checked year_val month_val day_val hour_val minute_val second_val offset_val frac_val⟩
  rw [parseRfc3339, if_neg length, year_read, ok_bind, dash, ok_bind, month_read, ok_bind, dash', ok_bind, day_read, ok_bind, mark,
    ok_bind, hour_read, ok_bind, colon, ok_bind, minute_read, ok_bind, colon', ok_bind, second_read, ok_bind,
    month_in, ok_bind, day_in, ok_bind, hour_in, ok_bind, minute_in, ok_bind, second_in, ok_bind, fraction_read, ok_bind]
  dsimp only
  rw [zone_read, ok_bind]
  exact if_neg (not_not.mpr stop)

/-- What the parser accepts is a timestamp of the grammar with its fields in the checked ranges, taken for its instant. -/
theorem stamp_of_parse {s : Text} {d : DateTime} (run : parseRfc3339 s = .ok d) :
    ∃ stamp : Stamp, s = stamp.text ∧ stamp.Checked ∧ d.millis.1 = stamp.instant := by
  have accepted := run
  rw [parseRfc3339] at run
  split at run
  · cases run
  obtain ⟨year, year_read, run⟩ := bind_ok run
  obtain ⟨⟨⟩, dash, run⟩ := bind_ok run
  obtain ⟨month, month_read, run⟩ := bind_ok run
  obtain ⟨⟨⟩, dash', run⟩ := bind_ok run
  obtain ⟨day, day_read, run⟩ := bind_ok run
  obtain ⟨⟨⟩, mark, run⟩ := bind_ok run
  obtain ⟨hour, hour_read, run⟩ := bind_ok run
  obtain ⟨⟨⟩, colon, run⟩ := bind_ok run
  obtain ⟨minute, minute_read, run⟩ := bind_ok run
  obtain ⟨⟨⟩, colon', run⟩ := bind_ok run
  obtain ⟨second, second_read, run⟩ := bind_ok run
  obtain ⟨⟨⟩, month_in, run⟩ := bind_ok run
  obtain ⟨⟨⟩, day_in, run⟩ := bind_ok run
  obtain ⟨⟨⟩, hour_in, run⟩ := bind_ok run
  obtain ⟨⟨⟩, minute_in, run⟩ := bind_ok run
  obtain ⟨⟨⟩, second_in, run⟩ := bind_ok run
  obtain ⟨⟨i, fracMs⟩, fraction_read, run⟩ := bind_ok run
  obtain ⟨⟨j, offset⟩, zone_read, run⟩ := bind_ok run
  obtain ⟨y, y_lt, y_val, r₁, whole, at_month⟩ := field_ok (c := '-') (At.start s) (by decide) year_read dash
  obtain ⟨m, m_lt, m_val, r₂, rfl, at_day⟩ := field_ok (c := '-') at_month (by decide) month_read dash'
  obtain ⟨d', d_lt, d_val, r₃, rfl, at_hour⟩ := field_ok (c := 'T') at_day (by decide) day_read mark
  obtain ⟨h, h_lt, h_val, r₄, rfl, at_minute⟩ := field_ok (c := ':') at_hour (by decide) hour_read colon
  obtain ⟨mi, mi_lt, mi_val, r₅, rfl, at_second⟩ := field_ok (c := ':') at_minute (by decide) minute_read colon'
  obtain ⟨sec, sec_lt, sec_val, r₆, rfl, at_fraction⟩ := readDigits_ok at_second (by decide) second_read
  obtain ⟨fraction, r₇, rfl, at_zone, -⟩ := readFraction_ok at_fraction fraction_read
  obtain ⟨zone, r₈, rfl, at_end, -⟩ := readZone_ok at_zone zone_read
  have ended : r₈ = [] := by
    change (if j ≠ (codePoints s).length then _ else _) = _ at run
    split at run
    · cases run
    · rename_i stop
      rw [length_codePoints, not_not] at stop
      have length := at_end.length
      exact List.eq_nil_of_length_eq_zero (by omega)
  rw [ended, List.append_nil] at whole
  have months : (1 : ℤ) ≤ month.1 ∧ month.1 ≤ 12 := checkRange_iff.mp month_in
  have days : (1 : ℤ) ≤ day.1 ∧ day.1 ≤ 31 := checkRange_iff.mp day_in
  have hours : hour.1 ≤ 23 := (checkRange_iff.mp hour_in).2
  have minutes : minute.1 ≤ 59 := (checkRange_iff.mp minute_in).2
  have seconds : second.1 ≤ 60 := (checkRange_iff.mp second_in).2
  let stamp : Stamp := ⟨⟨y, y_lt⟩, ⟨m, m_lt⟩, ⟨d', d_lt⟩, ⟨h, h_lt⟩, ⟨mi, mi_lt⟩, ⟨sec, sec_lt⟩, fraction, zone⟩
  have checked : stamp.Checked :=
    ⟨show 1 ≤ m ∧ m ≤ 12 by omega, show 1 ≤ d' ∧ d' ≤ 31 by omega, show h ≤ 23 by omega, show mi ≤ 59 by omega,
      show sec ≤ 60 by omega⟩
  have written : s = stamp.text := whole
  obtain ⟨d₂, run₂, val⟩ := parse_stamp written checked
  rw [accepted] at run₂
  cases run₂
  exact ⟨stamp, written, checked, val⟩

end Thera.Sdk.Time
