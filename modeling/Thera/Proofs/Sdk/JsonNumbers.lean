import Thera.Proofs.Sdk.JsonStrings

/-! # JSON numbers

The scanner passes over the numbers of the grammar and nothing else, and the text it cuts out is one the
conversions accept.
-/

namespace Thera.Sdk

open Scanning Grammar

variable {text rest : List Char} {pos : ℕ} {c : Char}

/-! ## Conversions -/

theorem isDigit_end : isDigit (-1) = false := rfl

theorem ne_of_isDigit {cp : ℤ} (digit : isDigit cp = true) : cp ≠ 45 ∧ cp ≠ 43 ∧ cp ≠ 46 := by
  simp only [isDigit, Bool.and_eq_true, decide_eq_true_eq] at digit
  omega

theorem isDigit_codePoints {ds : List Char} (digits : ∀ c ∈ ds, isDigit (codePoint c) = true) :
    (codePoints ds).all isDigit = true := by
  rw [codePoints, List.all_map, List.all_eq_true]
  exact digits

theorem digitsValue_codePoints (ds : Digits) : digitsValue (codePoints ds.1) = some (decimal ds.1) := by
  have nonempty : codePoints ds.1 ≠ [] := by simpa [codePoints] using ds.2.1
  rw [digitsValue, if_pos ⟨nonempty, isDigit_codePoints ds.2.2⟩, decimal, codePoints, List.foldl_map]
  congr 1
  refine List.foldl_ext _ _ _ fun n c _ => ?_
  rw [codePoint]
  omega

/-- Digits do not start with a sign. -/
theorem codePoints_ne_sign (ds : Digits) (tail : List Char) {sign : ℤ} (isSign : sign = 45 ∨ sign = 43) (l : List ℤ) :
    codePoints (ds.1 ++ tail) ≠ sign :: l := by
  obtain ⟨_ | ⟨c, ds⟩, nonempty, digits⟩ := ds
  · exact absurd rfl nonempty
  · intro same
    have first : codePoint c = sign := (List.cons.inj same).1
    obtain ⟨notMinus, notPlus, -⟩ := ne_of_isDigit (digits c List.mem_cons_self)
    omega

theorem dropSign_codePoints (ds : Digits) (tail : List Char) :
    dropSign (codePoints (ds.1 ++ tail)) = codePoints (ds.1 ++ tail) :=
  dropSign.eq_3 _ (fun l same => codePoints_ne_sign ds tail (.inr rfl) l same)
    (fun l same => codePoints_ne_sign ds tail (.inl rfl) l same)

theorem toInt_codePoints (n : Number) (noFraction : n.fraction = none) (noExponent : n.exponent = none) :
    toInt (codePoints n.text) = toI64 (if n.minus then -(decimal n.integer.1.1 : ℤ) else decimal n.integer.1.1) := by
  have value := digitsValue_codePoints n.integer.1
  rw [Number.text, noFraction, noExponent, fractionText, exponentText, List.append_nil, List.append_nil, Number.signText]
  cases n.minus with
  | true =>
    simp only [if_true, List.singleton_append]
    rw [codePoints, List.map_cons, ← codePoints, show codePoint '-' = 45 from rfl, toInt, value]
    rfl
  | false =>
    simp only [Bool.false_eq_true, if_false, List.nil_append]
    have notSign {sign : ℤ} (isSign : sign = 45 ∨ sign = 43) (l : List ℤ) : codePoints n.integer.1.1 ≠ sign :: l := by
      have := codePoints_ne_sign n.integer.1 [] isSign l
      rwa [List.append_nil] at this
    rw [toInt.eq_3 _ (fun l same => notSign (.inl rfl) l same) (fun l same => notSign (.inr rfl) l same), value]
    exact Option.bind_some _ _

theorem isExponent_codePoints (e : Option Exponent) : isExponent (codePoints (exponentText e)) = true := by
  cases e with
  | none => rfl
  | some e =>
    have letter : codePoint e.letter.1 = 101 ∨ codePoint e.letter.1 = 69 :=
      e.letter.2.imp (fun same => congrArg codePoint same) (fun same => congrArg codePoint same)
    have dropped : dropSign (codePoints ((e.sign.map Subtype.val).toList ++ e.digits.1)) = codePoints e.digits.1 := by
      cases e.sign with
      | none =>
        have := dropSign_codePoints e.digits []
        rwa [List.append_nil] at this
      | some sign =>
        obtain ⟨sign, rfl | rfl⟩ := sign
        · rfl
        · rfl
    have nonempty : codePoints e.digits.1 ≠ [] := by simpa [codePoints] using e.digits.2.1
    rw [exponentText, Exponent.text, codePoints, List.map_cons, ← codePoints, isExponent, dropped,
      isDigit_codePoints e.digits.2.2]
    simpa [nonempty] using letter

theorem takeWhile_codePoints {test : ℤ → Bool} {skipped : List Char}
    (passes : ∀ c ∈ skipped, test (codePoint c) = true) (next : test (front rest) = false) :
    (codePoints (skipped ++ rest)).takeWhile test = codePoints skipped := by
  rw [codePoints, List.takeWhile_map, Function.comp_def, takeWhile_exact passes next, codePoints]

theorem dropWhile_codePoints {test : ℤ → Bool} {skipped : List Char}
    (passes : ∀ c ∈ skipped, test (codePoint c) = true) (next : test (front rest) = false) :
    (codePoints (skipped ++ rest)).dropWhile test = codePoints rest := by
  have split := List.takeWhile_append_dropWhile (p := test) (l := codePoints (skipped ++ rest))
  rw [takeWhile_codePoints passes next] at split
  have whole : codePoints (skipped ++ rest) = codePoints skipped ++ codePoints rest := List.map_append
  exact List.append_cancel_left (split.trans whole)

theorem isDigit_front_exponent (e : Option Exponent) (next : isDigit (front rest) = false) :
    isDigit (front (exponentText e ++ rest)) = false := by
  cases e with
  | none => exact next
  | some e =>
    obtain ⟨⟨_, rfl | rfl⟩, sign, digits⟩ := e
    · rfl
    · rfl

theorem isDecimal_codePoints (n : Number) :
    isDecimal (codePoints (n.integer.1.1 ++ (fractionText n.fraction ++ exponentText n.exponent))) = true := by
  have front (e : Option Exponent) : isDigit (front (exponentText e)) = false := by
    have nothing : isDigit (Sdk.front (exponentText e ++ [])) = false := isDigit_front_exponent e rfl
    rwa [List.append_nil] at nothing
  have nonempty : codePoints n.integer.1.1 ≠ [] := by simpa [codePoints] using n.integer.1.2.1
  cases n.fraction with
  | none =>
    have after := dropWhile_codePoints n.integer.1.2.2 (front n.exponent)
    have taken := takeWhile_codePoints n.integer.1.2.2 (front n.exponent)
    have noPoint (l : List ℤ) : codePoints (exponentText n.exponent) ≠ 46 :: l := by
      obtain _ | ⟨⟨_, rfl | rfl⟩, sign, digits⟩ := n.exponent
      · exact (List.cons_ne_nil 46 l).symm
      · exact fun same => absurd (List.cons.inj same).1 (show ¬ codePoint 'e' = 46 by decide)
      · exact fun same => absurd (List.cons.inj same).1 (show ¬ codePoint 'E' = 46 by decide)
    rw [fractionText, List.nil_append, isDecimal, afterDigits, after, taken]
    split
    · exact absurd ‹_› (noPoint _)
    · rw [isExponent_codePoints, Bool.and_true, decide_eq_true_eq]
      exact nonempty
  | some ds =>
    have point : isDigit (Sdk.front (fractionText (some ds) ++ exponentText n.exponent)) = false := rfl
    have after := dropWhile_codePoints n.integer.1.2.2 point
    have taken := takeWhile_codePoints n.integer.1.2.2 point
    have split : codePoints (fractionText (some ds) ++ exponentText n.exponent) =
        46 :: codePoints (ds.1 ++ exponentText n.exponent) := rfl
    rw [isDecimal, afterDigits, after, taken, split]
    have some_ := List.length_pos_iff.mpr nonempty
    simp only [afterDigits, dropWhile_codePoints ds.2.2 (front n.exponent), isExponent_codePoints, Bool.and_true,
      decide_eq_true_eq]
    omega

theorem isDouble_codePoints (n : Number) : isDouble (codePoints n.text) = true := by
  have dropped : dropSign (codePoints n.text) =
      codePoints (n.integer.1.1 ++ (fractionText n.fraction ++ exponentText n.exponent)) := by
    rw [Number.text, Number.signText]
    cases n.minus with
    | true => rfl
    | false => exact dropSign_codePoints n.integer.1 _
  rw [isDouble, dropped, isDecimal_codePoints, Bool.true_or]

/-! ## The parts of a number -/

theorem skipDigits_run {ds : Digits} (here : At text pos (ds.1 ++ rest)) (next : isDigit (front rest) = false) :
    Yields (skipDigits (codePoints text)) text pos () rest :=
  skipWhile_exact isDigit_end here ds.2.2 next (by rw [length_codePoints]; omega)

theorem skipDigits_splits (here : At text pos rest) (digit : isDigit (front rest) = true) :
    ∃ (ds : Digits) (rest' : List Char), rest = ds.1 ++ rest' ∧ isDigit (front rest') = false ∧
      skipDigits (codePoints text) pos = .ok ((), pos + ds.1.length) ∧ At text (pos + ds.1.length) rest' := by
  obtain ⟨ds, rest', rfl, digits, next, run, there⟩ :=
    skipWhile_splits isDigit isDigit_end ((codePoints text).length + 1) here (by rw [length_codePoints]; omega)
  refine ⟨⟨ds, ?_, digits⟩, rest', rfl, next, run, there⟩
  rintro rfl
  exact absurd (digit.symm.trans next) (by decide)

theorem skipSign_taken {other : ℤ} (isSign : codePoint c = other ∨ codePoint c = 45) (here : At text pos (c :: rest)) :
    skipSign (codePoints text) other pos = .ok ((), pos + 1) := by
  rw [skipSign, run_bind (peek_run here), front, if_pos isSign]
  rfl

theorem skipSign_none {other : ℤ} (notSign : ¬ (front rest = other ∨ front rest = 45)) (here : At text pos rest) :
    skipSign (codePoints text) other pos = .ok ((), pos) := by
  rw [skipSign, run_bind (peek_run here), if_neg notSign]
  rfl

theorem isDigit_front (ds : Digits) (tail : List Char) : isDigit (front (ds.1 ++ tail)) = true := by
  obtain ⟨_ | ⟨c, ds⟩, nonempty, digits⟩ := ds
  · exact absurd rfl nonempty
  · exact digits c List.mem_cons_self

theorem integerPart_run {ds : IntegerDigits} (here : At text pos (ds.1.1 ++ rest)) (next : isDigit (front rest) = false) :
    Yields (integerPart (codePoints text)) text pos () rest := by
  refine .step (peek_run here) ?_
  by_cases zero : front (ds.1.1 ++ rest) = 48
  · have only : ds.1.1 = ['0'] := by
      refine ds.2 ?_
      obtain ⟨rest', split⟩ := front_eq (c := '0').mp zero
      obtain ⟨⟨_ | ⟨c, ds⟩, nonempty, digits⟩, single⟩ := ds
      · exact absurd rfl nonempty
      · exact congrArg some (List.cons.inj split).1
    have here : At text pos ('0' :: rest) := by simpa [only] using here
    rw [if_pos zero]
    refine .step advance_run (.step (peek_run here.step) ?_)
    rw [next]
    exact .pure here.step
  · rw [if_neg zero, if_pos (isDigit_front ds.1 rest)]
    exact skipDigits_run here next

theorem integerPart_ends (here : At text pos rest) :
    Ends Stop.Reported (integerPart (codePoints text)) pos fun _ p => ∃ (ds : IntegerDigits) (rest' : List Char),
      rest = ds.1.1 ++ rest' ∧ At text p rest' := by
  rw [integerPart]
  refine .step (peek_run here) ?_
  split_ifs with zero digit
  · obtain ⟨rest', rfl⟩ := front_eq (c := '0').mp zero
    refine .step advance_run (.step (peek_run here.step) ?_)
    split_ifs
    · exact ends_fail here.step _
    · have digit : ∀ c ∈ ['0'], isDigit (codePoint c) = true := by
        intro c member
        obtain rfl := List.mem_singleton.mp member
        rfl
      exact .pure ⟨⟨⟨['0'], List.cons_ne_nil _ _, digit⟩, fun _ => rfl⟩, rest', rfl, here.step⟩
  · obtain ⟨ds, rest', rfl, -, run, there⟩ := skipDigits_splits here digit
    refine .of_run run ⟨⟨ds, fun leading => absurd ?_ zero⟩, rest', rfl, there⟩
    obtain ⟨l, same⟩ := List.head?_eq_some_iff.mp leading
    rw [same]
    rfl
  · exact ends_fail here _

theorem fractionPart_run {fraction : Option Digits} (here : At text pos (fractionText fraction ++ rest))
    (next : isDigit (front rest) = false) (noPoint : front rest ≠ 46) :
    Yields (fractionPart (codePoints text)) text pos fraction.isSome rest := by
  refine .step (peek_run here) ?_
  cases fraction with
  | none =>
    rw [fractionText, List.nil_append, if_neg noPoint]
    exact .pure here
  | some ds =>
    have here : At text pos ('.' :: (ds.1 ++ rest)) := here
    refine .step advance_run (.step (peek_run here.step) ?_)
    rw [if_pos (isDigit_front ds rest)]
    exact .bind (skipDigits_run here.step next) .pure

theorem fractionPart_ends (here : At text pos rest) :
    Ends Stop.Reported (fractionPart (codePoints text)) pos fun isSome p => ∃ (fraction : Option Digits)
      (rest' : List Char), rest = fractionText fraction ++ rest' ∧ At text p rest' ∧ isSome = fraction.isSome := by
  rw [fractionPart]
  refine .step (peek_run here) ?_
  split_ifs with point
  · obtain ⟨rest', rfl⟩ := front_eq (c := '.').mp point
    refine .step advance_run (.step (peek_run here.step) ?_)
    split_ifs with digit
    · obtain ⟨ds, rest', rfl, -, run, there⟩ := skipDigits_splits here.step digit
      exact .step run (.pure ⟨some ds, rest', rfl, there, rfl⟩)
    · exact ends_fail here.step _
  · exact .pure ⟨none, rest, rfl, here, rfl⟩

theorem exponentPart_run {exponent : Option Exponent} (here : At text pos (exponentText exponent ++ rest))
    (next : isDigit (front rest) = false) (noLetter : ¬ (front rest = 101 ∨ front rest = 69)) :
    Yields (exponentPart (codePoints text)) text pos exponent.isSome rest := by
  refine .step (peek_run here) ?_
  cases exponent with
  | none =>
    rw [exponentText, List.nil_append, if_neg noLetter]
    exact .pure here
  | some e =>
    obtain ⟨letter, sign, ds⟩ := e
    have isLetter : front (exponentText (some ⟨letter, sign, ds⟩) ++ rest) = 101 ∨
        front (exponentText (some ⟨letter, sign, ds⟩) ++ rest) = 69 :=
      letter.2.imp (congrArg codePoint) (congrArg codePoint)
    rw [if_pos isLetter]
    have here : At text pos (letter.1 :: ((sign.map Subtype.val).toList ++ (ds.1 ++ rest))) := by
      simpa [exponentText, Exponent.text] using here
    have signed : skipSign (codePoints text) 43 (pos + 1) = .ok ((), pos + 1 + (sign.map Subtype.val).toList.length) := by
      cases sign with
      | none =>
        refine skipSign_none (fun isSign => ?_) here.step
        obtain ⟨notMinus, notPlus, -⟩ := ne_of_isDigit (isDigit_front ds rest)
        exact isSign.elim notPlus notMinus
      | some sign => exact skipSign_taken (sign.2.imp (congrArg codePoint) (congrArg codePoint)) here.step
    refine .step advance_run (.step signed (.step (peek_run here.step.append) ?_))
    rw [if_pos (isDigit_front ds rest)]
    exact .bind (skipDigits_run here.step.append next) .pure

theorem exponentPart_ends (here : At text pos rest) :
    Ends Stop.Reported (exponentPart (codePoints text)) pos fun isSome p => ∃ (exponent : Option Exponent)
      (rest' : List Char), rest = exponentText exponent ++ rest' ∧ At text p rest' ∧ isSome = exponent.isSome := by
  rw [exponentPart]
  refine .step (peek_run here) ?_
  split_ifs with isLetter
  · obtain ⟨letter, rest, rfl⟩ : ∃ (letter : {c : Char // c = 'e' ∨ c = 'E'}) (rest' : List Char), rest = letter.1 :: rest' := by
      obtain small | large := isLetter
      · obtain ⟨rest', rfl⟩ := front_eq (c := 'e').mp small
        exact ⟨⟨'e', .inl rfl⟩, rest', rfl⟩
      · obtain ⟨rest', rfl⟩ := front_eq (c := 'E').mp large
        exact ⟨⟨'E', .inr rfl⟩, rest', rfl⟩
    refine .step advance_run ?_
    -- The digits, behind a sign or without one.
    have digits (sign : Option {c : Char // c = '+' ∨ c = '-'}) {rest' : List Char} {p : ℕ} (there : At text p rest')
        (split : rest = (sign.map Subtype.val).toList ++ rest') :
        Ends Stop.Reported (do
          if isDigit (← peek (codePoints text)) then
            skipDigits (codePoints text)
            return true
          else fail (codePoints text) "expected a digit in the exponent") p fun isSome p => ∃ (exponent : Option Exponent)
            (rest' : List Char), letter.1 :: rest = exponentText exponent ++ rest' ∧ At text p rest' ∧
              isSome = exponent.isSome := by
      refine .step (peek_run there) ?_
      split_ifs with digit
      · obtain ⟨ds, rest', rfl, -, run, there⟩ := skipDigits_splits there digit
        exact .step run (.pure ⟨some ⟨letter, sign, ds⟩, rest', by simp [split, exponentText, Exponent.text], there, rfl⟩)
      · exact ends_fail there _
    by_cases isSign : front rest = 43 ∨ front rest = 45
    · obtain ⟨sign, rest', rfl⟩ : ∃ (sign : {c : Char // c = '+' ∨ c = '-'}) (rest' : List Char), rest = sign.1 :: rest' := by
        obtain plus | minus := isSign
        · obtain ⟨rest', rfl⟩ := front_eq (c := '+').mp plus
          exact ⟨⟨'+', .inl rfl⟩, rest', rfl⟩
        · obtain ⟨rest', rfl⟩ := front_eq (c := '-').mp minus
          exact ⟨⟨'-', .inr rfl⟩, rest', rfl⟩
      exact .step (skipSign_taken isSign here.step) (digits (some sign) here.step.step rfl)
    · exact .step (skipSign_none isSign here.step) (digits none here.step rfl)
  · exact .pure ⟨none, rest, rfl, here, rfl⟩

/-! ## Numbers -/

variable {D : Type} {round : List ℤ → D}

theorem numberOf_run (n : Number) {p : ℕ} :
    numberOf (codePoints text) round (n.fraction.isSome || n.exponent.isSome) (codePoints n.text) p =
      .ok (n.value round, p) := by
  have double : toDouble round (codePoints n.text) = some (round (codePoints n.text)) := by
    rw [toDouble, if_pos (isDouble_codePoints n)]
  rw [numberOf, Number.value, double]
  cases noFraction : n.fraction with
  | some ds => rfl
  | none =>
    cases noExponent : n.exponent with
    | some e => rfl
    | none =>
      rw [toInt_codePoints n noFraction noExponent]
      simp only [Option.isSome_none, Bool.or_self, Bool.false_eq_true, if_false, Option.isNone_none, and_self, if_true]
      cases toI64 (if n.minus = true then -(decimal n.integer.1.1 : ℤ) else decimal n.integer.1.1) <;> rfl

/-- What may stand behind a value: nothing, space, or a delimiter. -/
def Delimited (rest : List Char) : Prop :=
  front rest = -1 ∨ isWhitespace (front rest) = true ∨ front rest = 44 ∨ front rest = 93 ∨ front rest = 125

theorem Delimited.front_cases (delimited : Delimited rest) :
    isDigit (front rest) = false ∧ front rest ≠ 46 ∧ ¬ (front rest = 101 ∨ front rest = 69) := by
  simp only [Delimited, isWhitespace, Bool.or_eq_true, decide_eq_true_eq] at delimited
  simp only [isDigit, Bool.and_eq_false_iff, decide_eq_false_iff_not]
  omega

/-- Where a part may be absent, the next code point is the part's first or what comes behind it. -/
theorem front_exponent (exponent : Option Exponent) (delimited : Delimited rest) :
    isDigit (front (exponentText exponent ++ rest)) = false ∧ front (exponentText exponent ++ rest) ≠ 46 := by
  obtain ⟨noDigit, noPoint, -⟩ := delimited.front_cases
  refine ⟨isDigit_front_exponent exponent noDigit, ?_⟩
  cases exponent with
  | none => exact noPoint
  | some e =>
    obtain ⟨⟨_, rfl | rfl⟩, sign, digits⟩ := e
    · exact show codePoint 'e' ≠ 46 by decide
    · exact show codePoint 'E' ≠ 46 by decide

theorem isDigit_front_fraction (fraction : Option Digits) (next : isDigit (front rest) = false) :
    isDigit (front (fractionText fraction ++ rest)) = false := by
  cases fraction with
  | none => exact next
  | some ds => rfl

theorem parseNumber_run {n : Number} (here : At text pos (n.text ++ rest)) (delimited : Delimited rest) :
    Yields (parseNumber (codePoints text) round) text pos (n.value round) rest := by
  have split : n.text ++ rest =
      n.signText ++ (n.integer.1.1 ++ (fractionText n.fraction ++ (exponentText n.exponent ++ rest))) := by
    simp [Number.text]
  have atSign := split ▸ here
  have signed : skipSign (codePoints text) 45 pos = .ok ((), pos + n.signText.length) := by
    rw [Number.signText] at atSign ⊢
    cases minus : n.minus with
    | true =>
      rw [minus] at atSign
      exact skipSign_taken (c := '-') (.inl rfl) atSign
    | false =>
      rw [minus] at atSign
      refine skipSign_none (fun isSign => ?_) atSign
      exact (ne_of_isDigit (isDigit_front n.integer.1 _)).1 (or_self_iff.mp isSign)
  obtain ⟨noDigit, noPoint⟩ := front_exponent n.exponent delimited
  refine .step rfl (.step signed ?_)
  refine .bind (integerPart_run atSign.append (isDigit_front_fraction n.fraction noDigit)) fun atFraction => ?_
  refine .bind (fractionPart_run atFraction noDigit noPoint) fun atExponent => ?_
  refine .bind (exponentPart_run atExponent delimited.front_cases.1 delimited.front_cases.2.2) fun done => .step rfl ?_
  rw [slice_codePoints here done]
  exact ⟨_, numberOf_run n, done⟩

theorem parseNumber_ends (here : At text pos rest) :
    Ends Stop.Reported (parseNumber (codePoints text) round) pos fun v p => ∃ (n : Number) (rest' : List Char),
      rest = n.text ++ rest' ∧ At text p rest' ∧ v = n.value round := by
  rw [parseNumber]
  refine .get ?_
  -- The rest of the number, behind a sign or without one.
  have behind (minus : Bool) {rest₁ : List Char} {p : ℕ} (there : At text p rest₁)
      (split : rest = (if minus then ['-'] else []) ++ rest₁) :
      Ends Stop.Reported (do
        integerPart (codePoints text)
        let fraction ← fractionPart (codePoints text)
        let exponent ← exponentPart (codePoints text)
        let stop ← get
        numberOf (codePoints text) round (fraction || exponent) (((codePoints text).drop pos).take (stop - pos))) p
          fun v p => ∃ (n : Number) (rest' : List Char), rest = n.text ++ rest' ∧ At text p rest' ∧ v = n.value round := by
    refine .bind (integerPart_ends there) ?_
    rintro - p₂ ⟨integer, rest₂, rfl, atFraction⟩
    refine .bind (fractionPart_ends atFraction) ?_
    rintro - p₃ ⟨fraction, rest₃, rfl, atExponent, rfl⟩
    refine .bind (exponentPart_ends atExponent) ?_
    rintro - p₄ ⟨exponent, rest₄, rfl, done, rfl⟩
    refine .get ?_
    let n : Number := ⟨minus, integer, fraction, exponent⟩
    have whole : rest = n.text ++ rest₄ := by rw [split]; simp [n, Number.text, Number.signText]
    rw [slice_codePoints (whole ▸ here) done]
    exact .of_run (numberOf_run n) ⟨n, rest₄, whole, done, rfl⟩
  by_cases isMinus : front rest = 45
  · obtain ⟨rest', rfl⟩ := front_eq (c := '-').mp isMinus
    exact .step (skipSign_taken (.inl isMinus) here) (behind true here.step rfl)
  · exact .step (skipSign_none (fun isSign => isMinus (or_self_iff.mp isSign)) here) (behind false here rfl)

end Thera.Sdk
