import Thera.Proofs.Sdk.HttpWire

/-! # Lengths and sizes as text

What a string of plain digits denotes, and what the two readers of a length make of a field. The reader of a chunk size
computes in 64-bit arithmetic that wraps, so it takes a field for its value modulo `2 ^ 64`.
-/

namespace Thera.Sdk.Http

/-! ## Plain digits -/

/-- The value of a digit of a radix up to sixteen. -/
def plainDigit (radix : ℕ) (c : Char) : Option ℕ :=
  let n := c.toNat
  let value :=
    if 48 ≤ n ∧ n ≤ 57 then some (n - 48)
    else if 97 ≤ n ∧ n ≤ 102 then some (n - 87)
    else if 65 ≤ n ∧ n ≤ 70 then some (n - 55)
    else none
  value.filter (· < radix)

/-- The number that digits denote behind a number read so far. -/
def plainFrom (radix : ℕ) (n : ℕ) : Text → Option ℕ
  | [] => some n
  | c :: text => (plainDigit radix c).bind fun d => plainFrom radix (n * radix + d) text

/-- The number that a non-empty string of plain digits denotes. -/
def plainValue (radix : ℕ) (text : Text) : Option ℕ := if text = [] then none else plainFrom radix 0 text

/-- A field of plain digits below `2 ^ 63`. -/
def PlainSize (radix : ℕ) (field : Text) (n : ℕ) : Prop := plainValue radix field = some n ∧ n < 2 ^ 63

theorem digitValueFor_codePoint (radix : ℕ) (small : radix ≤ 16) (c : Char) :
    (if digitValueFor (codePoint c) < 0 ∨ digitValueFor (codePoint c) ≥ radix then none
      else some (digitValueFor (codePoint c)).toNat) = plainDigit radix c := by
  rw [plainDigit, digitValueFor, codePoint]
  generalize c.toNat = n
  split_ifs <;> simp [Option.filter] <;> omega

theorem wrapI64_congr {a b : ℤ} (same : a % 2 ^ 64 = b % 2 ^ 64) : wrapI64 a = wrapI64 b := by
  apply Subtype.ext
  rw [wrapI64, wrapI64]
  dsimp only
  omega

theorem wrapI64_mod (a : ℤ) : (wrapI64 a).1 % 2 ^ 64 = a % 2 ^ 64 := by
  rw [wrapI64]
  dsimp only
  omega

/-- Wrapping at every digit is wrapping at the end. -/
theorem radixLoop_eq {radix : ℕ} (small : radix ≤ 16) (n : ℕ) (text : Text) :
    radixLoop radix (wrapI64 n) (codePoints text) = (plainFrom radix n text).map fun (v : ℕ) => wrapI64 v := by
  induction text generalizing n with
  | nil => rfl
  | cons c text ih =>
    have digit := digitValueFor_codePoint radix small c
    rw [codePoints, List.map_cons, radixLoop, plainFrom, ← digit]
    by_cases bad : digitValueFor (codePoint c) < 0 ∨ digitValueFor (codePoint c) ≥ radix
    · rw [if_pos bad, if_pos bad]
      rfl
    · rw [if_neg bad, if_neg bad, Option.bind_some]
      rw [← ih]
      have same : ((wrapI64 n).1 * radix + digitValueFor (codePoint c)) % 2 ^ 64 =
          ((n * radix + (digitValueFor (codePoint c)).toNat : ℕ) : ℤ) % 2 ^ 64 := by
        push_cast
        rw [Int.toNat_of_nonneg (by omega)]
        exact Int.ModEq.add_right _ (Int.ModEq.mul_right _ (wrapI64_mod n))
      rw [wrapI64_congr same]
      rfl

theorem codePoint_eq_minus {c : Char} : codePoint c = 45 ↔ c = '-' := by
  constructor
  · intro same
    apply Char.ext
    apply UInt32.toNat_inj.mp
    exact Int.ofNat_inj.mp same
  · rintro rfl
    rfl

theorem wrapI64_zero : (⟨0, zero_inRange⟩ : I64) = wrapI64 (0 : ℕ) := by
  apply Subtype.ext
  rfl

theorem toIntRadix_minus (digits : Text) :
    toIntRadix 16 ('-' :: digits) = (plainValue 16 digits).map fun (v : ℕ) => wrapI64 (0 - (wrapI64 v).1) := by
  cases digits with
  | nil => rfl
  | cons c digits =>
    change (radixLoop (16 : ℕ) ⟨0, _⟩ (codePoints (c :: digits))).map _ = _
    rw [wrapI64_zero, radixLoop_eq (by decide), plainValue, if_neg (List.cons_ne_nil c digits), Option.map_map]
    rfl

theorem toIntRadix_plain {text : Text} (unsigned : ∀ digits, text ≠ '-' :: digits) :
    toIntRadix 16 text = (plainValue 16 text).map fun (v : ℕ) => wrapI64 v := by
  cases text with
  | nil => rfl
  | cons c text =>
    have notMinus : codePoint c ≠ 45 := fun same => unsigned text (by rw [codePoint_eq_minus.mp same])
    have shape : toIntRadix 16 (c :: text) = radixLoop (16 : ℕ) ⟨0, zero_inRange⟩ (codePoints (c :: text)) := by
      rw [toIntRadix]
      split
      · rename_i empty
        cases empty
      · rename_i one
        exact absurd (List.cons.inj one).1 notMinus
      · rename_i more
        exact absurd (List.cons.inj more).1 notMinus
      · rfl
    rw [shape, wrapI64_zero, radixLoop_eq (by decide), plainValue, if_neg (List.cons_ne_nil c text)]

/-! ## Chunk sizes -/

/-- A chunk-size line is taken for a size. -/
def TakesSize (line : Text) (n : ℕ) : Prop := ∃ size, toIntRadix 16 (sizeField line) = some size ∧ 0 ≤ size.1 ∧ size.1.toNat = n

/-- A chunk-size line is taken for the number its field denotes, and for no other. -/
def SizeExact (line : Text) : Prop := ∀ n, TakesSize line n ↔ PlainSize 16 (sizeField line) n

/-- The fields that do not come out as some other size: the arithmetic does not wrap, or wraps to a number that is refused. -/
def SizeFine : Text → Prop
  | '-' :: digits => ∀ v, plainValue 16 digits = some v → 0 < v % 2 ^ 64 ∧ v % 2 ^ 64 ≤ 2 ^ 63
  | field => ∀ v, plainValue 16 field = some v → v < 2 ^ 63 ∨ 2 ^ 63 ≤ v % 2 ^ 64

theorem plainValue_minus (radix : ℕ) (digits : Text) : plainValue radix ('-' :: digits) = none := rfl

theorem takesSize_of_plain {line : Text} {n : ℕ} (plain : PlainSize 16 (sizeField line) n) : TakesSize line n := by
  obtain ⟨value, small⟩ := plain
  have unsigned : ∀ digits, sizeField line ≠ '-' :: digits := by
    intro digits same
    rw [same, plainValue_minus] at value
    cases value
  refine ⟨wrapI64 n, by rw [toIntRadix_plain unsigned, value]; rfl, ?_, ?_⟩
  · rw [wrapI64]
    dsimp only
    omega
  · rw [wrapI64]
    dsimp only
    omega

theorem sizeExact_iff (line : Text) : SizeExact line ↔ SizeFine (sizeField line) := by
  have enough : SizeExact line ↔ ∀ n, TakesSize line n → PlainSize 16 (sizeField line) n :=
    forall_congr' fun n => ⟨Iff.mp, fun taken => ⟨taken, takesSize_of_plain⟩⟩
  rw [enough]
  simp only [TakesSize]
  generalize sizeField line = field
  by_cases signed : ∃ digits, field = '-' :: digits
  · obtain ⟨digits, rfl⟩ := signed
    rw [SizeFine, toIntRadix_minus]
    constructor
    · intro exact v value
      by_contra bad
      have taken := exact (wrapI64 (0 - (wrapI64 v).1)).1.toNat ⟨_, by rw [value]; rfl, ?_, rfl⟩
      · exact nomatch taken.1
      · simp only [wrapI64]
        omega
    · rintro fine n ⟨size, run, positive, rfl⟩
      obtain ⟨v, value, rfl⟩ := Option.map_eq_some_iff.mp run
      have := fine v value
      simp only [wrapI64] at positive
      omega
  · have unsigned : ∀ digits, field ≠ '-' :: digits := fun digits same => signed ⟨digits, same⟩
    have shape : SizeFine field ↔ ∀ v, plainValue 16 field = some v → v < 2 ^ 63 ∨ 2 ^ 63 ≤ v % 2 ^ 64 := by
      rw [SizeFine.eq_2]
      exact fun digits => unsigned digits
    rw [shape, toIntRadix_plain unsigned]
    constructor
    · intro exact v value
      by_contra bad
      have taken := exact (wrapI64 v).1.toNat ⟨_, by rw [value]; rfl, ?_, rfl⟩
      · have same := taken.1
        rw [value, Option.some.injEq] at same
        simp only [wrapI64] at same
        omega
      · simp only [wrapI64]
        omega
    · rintro fine n ⟨size, run, positive, rfl⟩
      obtain ⟨v, value, rfl⟩ := Option.map_eq_some_iff.mp run
      have := fine v value
      simp only [wrapI64] at positive ⊢
      refine ⟨by rw [value, Option.some.injEq]; omega, by omega⟩

/-! ## Content lengths -/

theorem plainFrom_eq (n : ℕ) (text : Text) :
    plainFrom 10 n text =
      if (codePoints text).all isDigit then some ((codePoints text).foldl (fun n d => n * 10 + (d - 48).toNat) n) else none := by
  induction text generalizing n with
  | nil => rfl
  | cons c text ih =>
    have digit := digitValueFor_codePoint 10 (by decide) c
    rw [plainFrom, codePoints, List.map_cons, List.all_cons, List.foldl_cons]
    by_cases isDigit' : isDigit (codePoint c) = true
    · have range := isDigit'
      rw [isDigit, Bool.and_eq_true, decide_eq_true_iff, decide_eq_true_iff] at range
      have value : plainDigit 10 c = some (codePoint c - 48).toNat := by
        rw [← digit, digitValueFor, if_pos range, if_neg (by omega)]
      rw [value, Option.bind_some, ih, isDigit', Bool.true_and]
      rfl
    · have none : plainDigit 10 c = none := by
        rw [isDigit, Bool.and_eq_true, decide_eq_true_iff, decide_eq_true_iff] at isDigit'
        rw [← digit, digitValueFor]
        split_ifs <;> first | rfl | omega
      rw [none, Bool.eq_false_iff.mpr isDigit', Bool.false_and]
      rfl

theorem digitsValue_eq (text : Text) : digitsValue (codePoints text) = plainValue 10 text := by
  rw [digitsValue, plainValue, plainFrom_eq]
  by_cases empty : text = []
  · subst empty
    rfl
  · have nonempty : codePoints text ≠ [] := fun same => empty (List.map_eq_nil_iff.mp same)
    rw [if_neg empty]
    simp only [ne_eq, nonempty, not_false_eq_true, true_and]

/-- A content length is taken for a number. -/
def TakesLength (raw : Text) (n : ℕ) : Prop := ∃ size, toInt (codePoints (trim raw)) = some size ∧ 0 ≤ size.1 ∧ size.1.toNat = n

/-- A content length is taken for the number it denotes, and for no other. -/
def LengthExact (raw : Text) : Prop := ∀ n, TakesLength raw n ↔ PlainSize 10 (trim raw) n

/-- The lengths that are plain or refused: a sign is taken before a number in range, a minus sign only before zero. -/
def LengthFine : Text → Prop
  | '+' :: digits => ∀ v, plainValue 10 digits = some v → 2 ^ 63 ≤ v
  | '-' :: digits => ∀ v, plainValue 10 digits = some v → v ≠ 0
  | _ => True

theorem toI64_some {n : ℤ} {size : I64} : toI64 n = some size ↔ size.1 = n := by
  rw [toI64]
  split
  · rw [Option.some.injEq, Subtype.ext_iff]
    exact eq_comm
  · rename_i outside
    constructor
    · nofun
    · rintro rfl
      exact absurd size.2 outside

theorem toInt_cons {c : Char} {text : Text} {size : I64} :
    toInt (codePoints (c :: text)) = some size ↔
      if c = '-' then ∃ v : ℕ, plainValue 10 text = some v ∧ size.1 = -v
      else if c = '+' then ∃ v : ℕ, plainValue 10 text = some v ∧ size.1 = v
      else ∃ v : ℕ, plainValue 10 (c :: text) = some v ∧ size.1 = v := by
  rw [← digitsValue_eq, ← digitsValue_eq]
  have bound {value : Option ℕ} {f : ℕ → ℤ} :
      (value.bind fun v => toI64 (f v)) = some size ↔ ∃ v, value = some v ∧ size.1 = f v := by
    rw [Option.bind_eq_some_iff]
    exact exists_congr fun v => and_congr_right fun _ => toI64_some
  split_ifs with minus plus
  · subst minus
    exact bound
  · subst plus
    exact bound
  · have notMinus : codePoint c ≠ 45 := fun same => minus (codePoint_eq_minus.mp same)
    have notPlus : codePoint c ≠ 43 := by
      intro same
      apply plus
      apply Char.ext
      apply UInt32.toNat_inj.mp
      exact Int.ofNat_inj.mp same
    rw [codePoints, List.map_cons, toInt.eq_3]
    · exact bound
    · intro digits same
      exact notMinus (List.cons.inj same).1
    · intro digits same
      exact notPlus (List.cons.inj same).1

theorem takesLength_iff {raw text : Text} {c : Char} (trimmed : trim raw = c :: text) (n : ℕ) :
    TakesLength raw n ↔
      n < 2 ^ 63 ∧ if c = '-' then n = 0 ∧ plainValue 10 text = some 0 else if c = '+' then plainValue 10 text = some n
        else plainValue 10 (c :: text) = some n := by
  have plain {value : Option ℕ} : (∃ size : I64, (∃ v : ℕ, value = some v ∧ size.1 = v) ∧ 0 ≤ size.1 ∧ size.1.toNat = n) ↔
      n < 2 ^ 63 ∧ value = some n := by
    constructor
    · rintro ⟨size, ⟨v, rfl, same⟩, -, rfl⟩
      have bound := size.2
      exact ⟨by omega, by rw [same, Int.toNat_natCast]⟩
    · rintro ⟨small, rfl⟩
      exact ⟨⟨n, by omega⟩, ⟨n, rfl, rfl⟩, by simp, Int.toNat_natCast n⟩
  rw [TakesLength, trimmed]
  simp only [toInt_cons]
  split_ifs with minus plus
  · constructor
    · rintro ⟨size, ⟨v, value, same⟩, positive, rfl⟩
      obtain rfl : v = 0 := by omega
      exact ⟨by omega, by omega, value⟩
    · rintro ⟨small, rfl, value⟩
      exact ⟨⟨0, zero_inRange⟩, ⟨0, value, rfl⟩, le_refl 0, rfl⟩
  · exact plain
  · exact plain

theorem plainValue_plus (radix : ℕ) (digits : Text) : plainValue radix ('+' :: digits) = none := rfl

theorem lengthExact_iff (raw : Text) : LengthExact raw ↔ LengthFine (trim raw) := by
  rw [LengthExact]
  cases trimmed : trim raw with
  | nil =>
    refine iff_of_true (fun n => ⟨?_, nofun⟩) trivial
    rintro ⟨size, run, -⟩
    rw [trimmed] at run
    cases run
  | cons c text =>
    simp only [takesLength_iff trimmed, PlainSize]
    by_cases minus : c = '-'
    · subst minus
      rw [LengthFine]
      simp only [if_true, plainValue_minus]
      constructor
      · rintro exact v value rfl
        exact nomatch ((exact 0).mp ⟨by decide, rfl, value⟩).1
      · intro fine n
        constructor
        · rintro ⟨-, -, value⟩
          exact absurd rfl (fine 0 value)
        · nofun
    · by_cases plus : c = '+'
      · subst plus
        rw [LengthFine]
        simp only [if_neg minus, if_true, plainValue_plus]
        constructor
        · intro exact v value
          by_contra small
          exact nomatch ((exact v).mp ⟨by omega, value⟩).1
        · intro fine n
          constructor
          · rintro ⟨small, value⟩
            have large := fine n value
            omega
          · nofun
      · rw [LengthFine.eq_3]
        · refine iff_of_true (fun n => ?_) trivial
          rw [if_neg minus, if_neg plus, and_comm]
        · intro digits same
          exact plus (List.cons.inj same).1
        · intro digits same
          exact minus (List.cons.inj same).1

end Thera.Sdk.Http
