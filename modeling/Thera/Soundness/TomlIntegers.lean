import Thera.Model.Sdk.Toml
import Thera.Proofs.Sdk.Int64
import Thera.Proofs.Sdk.Scan
import Thera.ToMathlib.Horner

/-! # TOML integers are exact

The integer literals of the grammar with the number each one denotes. The parser of numbers answers every literal with
its number when 64 bits hold it, and with a report otherwise: the tests on the number of digits and on the first digit
that differs from the limit are tests on the number.
-/

namespace Thera.Sdk.TomlFormat

open Scanning

/-! ## The literals of the grammar -/

inductive Sign where
  | plus
  | minus

def signText : Option Sign → List Char
  | none => []
  | some .plus => ['+']
  | some .minus => ['-']

inductive Radix where
  | hexadecimal
  | octal
  | binary

def Radix.base : Radix → ℕ
  | hexadecimal => 16
  | octal => 8
  | binary => 2

def Radix.marker : Radix → Char
  | hexadecimal => 'x'
  | octal => 'o'
  | binary => 'b'

/-- A digit of the base; letters stand in either case. -/
structure Digit (base : ℕ) where
  char : Char
  value : ℕ
  small : value < base
  spells : "0123456789abcdef".toList[value]? = some char ∨ "0123456789ABCDEF".toList[value]? = some char

/-- Digits, any two of them with at most one underscore between. -/
structure DigitRun (base : ℕ) where
  first : Digit base
  more : List (Bool × Digit base)

variable {base : ℕ}

def moreText (more : List (Bool × Digit base)) : List Char :=
  more.flatMap fun part => (if part.1 then ['_'] else []) ++ [part.2.char]

def DigitRun.text (run : DigitRun base) : List Char := run.first.char :: moreText run.more

def DigitRun.digits (run : DigitRun base) : List (Digit base) := run.first :: run.more.map Prod.snd

def DigitRun.values (run : DigitRun base) : List ℕ := run.digits.map Digit.value

def DigitRun.number (run : DigitRun base) : ℕ := Nat.ofDigits base run.values.reverse

/-- An integer of the grammar: a decimal starts with a zero only if that is all of it. -/
inductive IntegerLiteral where
  | decimal (sign : Option Sign) (run : DigitRun 10) (noLeadingZero : run.more = [] ∨ run.first.value ≠ 0)
  | based (radix : Radix) (run : DigitRun radix.base)

def IntegerLiteral.text : IntegerLiteral → List Char
  | decimal sign run _ => signText sign ++ run.text
  | based radix run => '0' :: radix.marker :: run.text

/-- The number that a literal denotes. -/
def IntegerLiteral.number : IntegerLiteral → ℤ
  | decimal (some .minus) run _ => -run.number
  | decimal _ run _ => run.number
  | based _ run => run.number

/-- The literal does not go on: no letter, digit, underscore or point follows. -/
def Delimited (rest : List Char) : Prop :=
  ∀ c ∈ rest.head?, isAlphanumeric (codePoint c) = false ∧ c ≠ '_' ∧ c ≠ '.'

/-! ## Digits and their code points -/

theorem Digit.lt_sixteen (d : Digit base) : d.value < 16 := by
  obtain lower | upper := d.spells
  · exact (List.getElem?_eq_some_iff.mp lower).1
  · exact (List.getElem?_eq_some_iff.mp upper).1

theorem Digit.hexDigitValue_char (d : Digit base) : hexDigitValue (codePoint d.char) = some (d.value : ℤ) := by
  have bound := d.lt_sixteen
  obtain ⟨char, value, small, spells⟩ := d
  dsimp only at bound spells ⊢
  interval_cases value <;> obtain lower | upper := spells
  all_goals first | (cases lower; rfl) | (cases upper; rfl)

theorem Digit.codePoint_char (d : Digit 10) : codePoint d.char = 48 + d.value := by
  obtain ⟨char, value, small, spells⟩ := d
  dsimp only at small spells ⊢
  interval_cases value <;> obtain lower | upper := spells
  all_goals first | (cases lower; rfl) | (cases upper; rfl)

theorem Digit.isDigit_char (d : Digit 10) : isDigit (codePoint d.char) = true := by
  have small := d.small
  rw [d.codePoint_char, isDigit, Bool.and_eq_true, decide_eq_true_eq, decide_eq_true_eq]
  omega

theorem Digit.radixDigit_char (d : Digit base) : radixDigit base (codePoint d.char) = some (d.value : ℤ) := by
  rw [radixDigit, d.hexDigitValue_char, Option.filter_some, if_pos]
  exact decide_eq_true (Int.ofNat_lt.mpr d.small)

theorem not_isAlphanumeric {c : ℤ} (other : isAlphanumeric c = false) :
    isDigit c = false ∧ ¬ (65 ≤ c ∧ c ≤ 90) ∧ ¬ (97 ≤ c ∧ c ≤ 122) := by
  simp only [isAlphanumeric, isAlpha, isUpper, isLower, Bool.or_eq_false_iff, Bool.and_eq_false_iff, decide_eq_false_iff_not] at other
  exact ⟨other.2, by omega, by omega⟩

theorem radixDigit_none {c : ℤ} (other : isAlphanumeric c = false) : radixDigit base c = none := by
  obtain ⟨notDigit, notUpper, notLower⟩ := not_isAlphanumeric other
  rw [radixDigit, hexDigitValue, if_neg (by simp [notDigit]), if_neg (by omega), if_neg (by omega)]
  rfl

/-- What the scanner sees behind a literal. -/
theorem Delimited.front {rest : List Char} (delimited : Delimited rest) :
    isAlphanumeric (front rest) = false ∧ front rest ≠ 95 ∧ front rest ≠ 46 := by
  cases rest with
  | nil => decide
  | cons c rest =>
    obtain ⟨other, notUnderscore, notPoint⟩ := delimited c rfl
    exact ⟨other, fun same => notUnderscore (codePoint_inj.mp same), fun same => notPoint (codePoint_inj.mp same)⟩

/-! ## Scanning the digits -/

variable {text rest : List Char} {pos fuel : ℕ}

section

variable {loop : List ℤ → ℕ → Scan (List ℤ)} {item : Digit base → ℤ} {out : List ℤ}
  (digit : ∀ d out fuel pos rest, At text pos (d.char :: rest) →
    loop out (fuel + 1) pos = loop (out ++ [item d]) fuel (pos + 1))
  (underscore : ∀ (d : Digit base) out fuel pos rest, out ≠ [] → At text pos ('_' :: d.char :: rest) →
    loop out (fuel + 1) pos = loop out fuel (pos + 1))
  (stop : ∀ out fuel pos, At text pos rest → loop out (fuel + 1) pos = .ok (out, pos))

include digit underscore stop

/-- A loop that takes one digit or one underscore a round reads the rest of a run. -/
theorem loop_more (more : List (Bool × Digit base)) (seen : out ≠ []) (here : At text pos (moreText more ++ rest))
    (enough : (moreText more).length < fuel) : Yields (loop out fuel) text pos (out ++ more.map (item ·.2)) rest := by
  induction more generalizing out pos fuel with
  | nil =>
    obtain ⟨fuel, rfl⟩ := Nat.exists_eq_add_of_lt enough
    exact ⟨pos, by rw [stop _ _ _ here, List.map_nil, List.append_nil], here⟩
  | cons part more ih =>
    obtain ⟨underscored, d⟩ := part
    have seen' : out ++ [item d] ≠ [] := List.append_ne_nil_of_right_ne_nil _ (List.cons_ne_nil _ _)
    rw [Yields, List.map_cons, ← List.singleton_append, ← List.append_assoc]
    cases underscored with
    | false =>
      have here : At text pos (d.char :: (moreText more ++ rest)) := here
      have longer : (moreText ((false, d) :: more)).length = (moreText more).length + 1 := rfl
      obtain ⟨fuel, rfl⟩ := Nat.exists_eq_add_of_lt enough
      rw [digit d _ _ _ _ here]
      exact ih seen' here.step (by omega)
    | true =>
      have here : At text pos ('_' :: d.char :: (moreText more ++ rest)) := here
      have longer : (moreText ((true, d) :: more)).length = (moreText more).length + 2 := rfl
      obtain ⟨fuel, rfl⟩ : ∃ k, fuel = k + 1 + 1 := ⟨fuel - 2, by omega⟩
      rw [underscore d _ _ _ _ seen here, digit d _ _ _ _ here.step]
      exact ih seen' here.step.step (by omega)

theorem loop_run (run : DigitRun base) (here : At text pos (run.text ++ rest)) :
    Yields (loop [] ((codePoints text).length + 1)) text pos (run.digits.map item) rest := by
  have here : At text pos (run.first.char :: (moreText run.more ++ rest)) := here
  have length := here.step.length
  rw [List.length_append] at length
  rw [Yields, digit _ _ _ _ _ here, DigitRun.digits, List.map_cons, List.map_map]
  exact loop_more digit underscore stop run.more (List.cons_ne_nil _ _) here.step (by rw [length_codePoints]; omega)

end

theorem digitRun_run (run : DigitRun 10) (here : At text pos (run.text ++ rest)) (delimited : Delimited rest) :
    Yields (digitRun (codePoints text)) text pos (run.digits.map (codePoint ·.char)) rest := by
  have first : At text pos (run.first.char :: (moreText run.more ++ rest)) := here
  rw [Yields, digitRun, run_bind (peek_run first), front, if_pos run.first.isDigit_char]
  refine loop_run (fun d out fuel pos rest here => ?_) (fun d out fuel pos rest _ here => ?_) (fun out fuel pos here => ?_)
    run here
  · rw [digitLoop, run_bind (peek_run here), front, if_pos d.isDigit_char, run_bind advance_run]
  · rw [digitLoop, run_bind (peek_run here), front, if_neg (by decide), if_pos (show codePoint '_' = 95 from rfl),
      run_bind advance_run, run_bind (peek_run here.step), front, if_pos d.isDigit_char]
  · obtain ⟨other, notUnderscore, -⟩ := delimited.front
    rw [digitLoop, run_bind (peek_run here), if_neg (by simp [(not_isAlphanumeric other).1]), if_neg notUnderscore]
    rfl

theorem radixLoop_digits (run : DigitRun base) (here : At text pos (run.text ++ rest)) (delimited : Delimited rest) :
    Yields (radixLoop (codePoints text) base [] ((codePoints text).length + 1)) text pos (run.values.map Nat.cast) rest := by
  rw [DigitRun.values, List.map_map]
  refine loop_run (fun d out fuel pos rest here => ?_) (fun d out fuel pos rest seen here => ?_) (fun out fuel pos here => ?_)
    run here
  · rw [radixLoop, run_bind (peek_run here), front, d.radixDigit_char]
    rfl
  · rw [radixLoop, run_bind (peek_run here), front, radixDigit_none (by decide)]
    dsimp only
    rw [if_pos ⟨rfl, seen⟩, run_bind advance_run, run_bind (peek_run here.step), front, d.radixDigit_char]
    rfl
  · obtain ⟨other, notUnderscore, -⟩ := delimited.front
    rw [radixLoop, run_bind (peek_run here), radixDigit_none other]
    exact congrFun (if_neg fun underscore => notUnderscore underscore.1) pos

/-! ## The tests on the digits -/

theorem DigitRun.number_eq (run : DigitRun base) : run.number = Horner.value base run.values :=
  (Horner.value_eq_ofDigits _).symm

theorem DigitRun.values_small (run : DigitRun base) : ∀ v ∈ run.values, v < base := by
  intro v member
  obtain ⟨d, -, rfl⟩ := List.mem_map.mp member
  exact d.small

theorem DigitRun.values_ne_nil (run : DigitRun base) : run.values ≠ [] := List.cons_ne_nil _ _

/-- The code point of a decimal digit. -/
def asciiDigit (v : ℕ) : ℤ := 48 + v

theorem asciiDigit_inj {v w : ℕ} : asciiDigit v = asciiDigit w ↔ v = w := by
  rw [asciiDigit, asciiDigit]
  omega

theorem DigitRun.codes_eq (run : DigitRun 10) : run.digits.map (codePoint ·.char) = run.values.map asciiDigit := by
  rw [DigitRun.values, List.map_map]
  exact List.map_congr_left fun d _ => d.codePoint_char

/-- The largest magnitude of a sign, digit by digit. -/
def limitDigits (negative : Bool) : List ℕ :=
  [9, 2, 2, 3, 3, 7, 2, 0, 3, 6, 8, 5, 4, 7, 7, 5, 8, 0, if negative then 8 else 7]

theorem limitDigits_value (negative : Bool) :
    Horner.value 10 (limitDigits negative) = if negative then 2 ^ 63 else 2 ^ 63 - 1 := by
  cases negative <;> rfl

theorem limitDigits_small (negative : Bool) : ∀ d ∈ limitDigits negative, d < 10 := by
  cases negative <;> decide

theorem limit_codes (negative : Bool) :
    codePoints (if negative then "9223372036854775808" else "9223372036854775807").toList =
      (limitDigits negative).map asciiDigit := by
  cases negative <;> decide

variable {ds : List ℕ}

theorem find_asciiDigit (ds es : List ℕ) :
    ((ds.map asciiDigit).zip (es.map asciiDigit)).find? (fun pair => pair.1 ≠ pair.2) =
      ((ds.zip es).find? fun pair => pair.1 ≠ pair.2).map (Prod.map asciiDigit asciiDigit) := by
  rw [List.zip_map, List.find?_map]
  congr 2
  funext pair
  simp [asciiDigit_inj]

/-- The comparison by text is the comparison by value. -/
theorem exceedsI64_iff (small : ∀ d ∈ ds, d < 10) (trimmed : Horner.Trimmed ds) (negative : Bool) :
    exceedsI64 (ds.map asciiDigit) negative = true ↔
      (if negative then 2 ^ 63 else 2 ^ 63 - 1) < Horner.value 10 ds := by
  have limit := limitDigits_value negative
  have size : (limitDigits negative).length = 19 := rfl
  rw [exceedsI64, limit_codes, List.length_map, List.length_map, size, find_asciiDigit, ← limit]
  obtain other | same := ne_or_eq ds.length 19
  · rw [if_pos other, decide_eq_true_eq]
    have reach := Horner.lt_length_iff (by decide) trimmed small (show 0 < 19 by decide)
    have below := Horner.lt_length_iff (by decide) trimmed small (show 0 < 18 by decide)
    cases negative
    · simp only [Bool.false_eq_true, if_false] at limit
      omega
    · simp only [if_true] at limit
      omega
  · rw [if_neg (not_not.mpr same)]
    have sameLength : ds.length = (limitDigits negative).length := same
    cases found : (ds.zip (limitDigits negative)).find? fun pair => pair.1 ≠ pair.2 with
    | none =>
      rw [Horner.eq_of_find sameLength found]
      simp
    | some pair =>
      obtain ⟨d, e⟩ := pair
      rw [Horner.lt_iff_of_find sameLength small (limitDigits_small negative) found]
      simp [asciiDigit]

theorem digitsValue_asciiDigit (nonempty : ds ≠ []) (small : ∀ d ∈ ds, d < 10) :
    digitsValue (ds.map asciiDigit) = some (Horner.value 10 ds) := by
  have digits : (ds.map asciiDigit).all isDigit = true := by
    rw [List.all_map, List.all_eq_true]
    intro d member
    have bound := small d member
    rw [Function.comp, asciiDigit, isDigit, Bool.and_eq_true, decide_eq_true_eq, decide_eq_true_eq]
    omega
  rw [digitsValue, if_pos ⟨by simpa using nonempty, digits⟩, List.foldl_map, Horner.value]
  congr 1
  refine List.foldl_ext _ _ _ fun n d _ => ?_
  rw [asciiDigit]
  omega

/-- The token of a decimal converts to its number. -/
theorem toInt_token (nonempty : ds ≠ []) (small : ∀ d ∈ ds, d < 10) (negative : Bool) :
    toInt ((if negative then [45] else []) ++ ds.map asciiDigit) =
      toI64 (if negative then -(Horner.value 10 ds : ℤ) else Horner.value 10 ds) := by
  have value := digitsValue_asciiDigit nonempty small
  cases negative with
  | true =>
    show toInt (45 :: ds.map asciiDigit) = _
    rw [toInt, value]
    rfl
  | false =>
    show toInt (ds.map asciiDigit) = toI64 (Horner.value 10 ds)
    have notSign {sign : ℤ} (isSign : sign = 45 ∨ sign = 43) (l : List ℤ) : ds.map asciiDigit ≠ sign :: l := by
      intro same
      obtain ⟨d, -, first⟩ := List.mem_map.mp (same ▸ List.mem_cons_self : sign ∈ ds.map asciiDigit)
      rw [asciiDigit] at first
      omega
    rw [toInt.eq_3 _ (fun l same => notSign (.inl rfl) l same) (fun l same => notSign (.inr rfl) l same), value]
    exact Option.bind_some _ _

/-- Stripping leading zeros keeps the value. -/
theorem significantDigits_spec (nonempty : ds ≠ []) (small : ∀ d ∈ ds, d < base) :
    ∃ es, significantDigits (ds.map Nat.cast) = es.map Nat.cast ∧ Horner.value base es = Horner.value base ds ∧
      (∀ e ∈ es, e < base) ∧ Horner.Trimmed es := by
  induction ds with
  | nil => exact absurd rfl nonempty
  | cons d ds ih =>
    cases ds with
    | nil => exact ⟨[d], by cases d <;> rfl, rfl, small, .inl (Nat.le_refl 1)⟩
    | cons d' ds =>
      cases d with
      | zero =>
        obtain ⟨es, stripped, same, small', trimmed⟩ :=
          ih (List.cons_ne_nil _ _) fun e member => small e (List.mem_cons_of_mem _ member)
        exact ⟨es, stripped, same.trans (Horner.value_zero_cons _).symm, small', trimmed⟩
      | succ d => 
        refine ⟨(d + 1) :: d' :: ds, significantDigits.eq_2 _ ?_, rfl, small, .inr (by simp)⟩
        intro e rest same
        have first : ((d + 1 : ℕ) : ℤ) = 0 := (List.cons.inj same).1
        omega

/-- Too many digits are too large a number. -/
theorem radixOver_iff (radix : Radix) (small : ∀ d ∈ ds, d < radix.base) (trimmed : Horner.Trimmed ds) :
    radixOver radix.base (ds.map Nat.cast) = true ↔ 2 ^ 63 ≤ Horner.value radix.base ds := by
  cases radix with
  | octal =>
    have := Horner.lt_length_iff (by decide) trimmed small (show 0 < 21 by decide)
    simpa [radixOver, Radix.base] using this
  | binary =>
    have := Horner.lt_length_iff (by decide) trimmed small (show 0 < 63 by decide)
    simpa [radixOver, Radix.base] using this
  | hexadecimal =>
    have longer := Horner.lt_length_iff (by decide) trimmed small (show 0 < 16 by decide)
    have shorter := Horner.lt_length_iff (by decide) trimmed small (show 0 < 15 by decide)
    cases ds with
    | nil => simp [radixOver, Radix.base, Horner.value]
    | cons d ds =>
      have bound := Horner.value_lt fun e member => small e (List.mem_cons_of_mem d member)
      have split := @Horner.value_cons Radix.hexadecimal.base d ds
      have test : radixOver Radix.hexadecimal.base ((d :: ds).map Nat.cast) = true ↔
          16 < (d :: ds).length ∨ (d :: ds).length = 16 ∧ 7 < d := by
        simp [radixOver, Radix.base]
      rw [test, longer, split]
      simp only [Radix.base, List.length_cons] at *
      obtain short | exact_ | long := Nat.lt_trichotomy ds.length 15
      · omega
      · rw [exact_] at bound split ⊢
        omega
      · omega

theorem wrapI64_step (n : ℤ) (b d : ℕ) : wrapI64 ((wrapI64 n).1 * b + d) = wrapI64 (n * b + d) := by
  have wrapped : (wrapI64 n).1 = n - 2 ^ 64 * ((n + 2 ^ 63) / 2 ^ 64) := by
    show (n + 2 ^ 63) % 2 ^ 64 - 2 ^ 63 = _
    omega
  have shifted : (wrapI64 n).1 * b + d + 2 ^ 63 = n * b + d + 2 ^ 63 + 2 ^ 64 * -((n + 2 ^ 63) / 2 ^ 64 * b) := by
    rw [wrapped]
    ring
  apply Subtype.ext
  show ((wrapI64 n).1 * b + d + 2 ^ 63) % 2 ^ 64 - 2 ^ 63 = (n * b + d + 2 ^ 63) % 2 ^ 64 - 2 ^ 63
  rw [shifted, Int.add_mul_emod_self_left]

/-- The sum in 64-bit arithmetic is the number, wrapped around once. -/
theorem radixValue_eq (ds : List ℕ) : radixValue base (ds.map Nat.cast) = wrapI64 (Horner.value base ds) := by
  have from_ (n : ℕ) : (ds.map Nat.cast).foldl (fun value (d : ℤ) => wrapI64 (value.1 * base + d)) (wrapI64 n) =
      wrapI64 (ds.foldl (fun n d => n * base + d) n : ℕ) := by
    induction ds generalizing n with
    | nil => rfl
    | cons d ds ih =>
      rw [List.map_cons, List.foldl_cons, List.foldl_cons, wrapI64_step, ← ih]
      push_cast
      rfl
  exact from_ 0

/-! ## The parser on a literal -/

/-- The report at a position. -/
def reportAt (text : List Char) (pos : ℕ) (message : String) (stop : Stop) : Prop :=
  ∃ described, position (codePoints text) pos = .ok (described, pos) ∧ stop = .malformed (message ++ " at " ++ described)

/-- The answer to an integer: itself within 64 bits, and the report of its range otherwise. -/
structure Exact {A : Type} (text : List Char) (number : ℤ) (int : I64 → A) (result : Except Stop (A × ℕ)) (stop : ℕ) : Prop where
  within : ∀ n : I64, n.1 = number → result = .ok (int n, stop)
  beyond : number < -2 ^ 63 ∨ 2 ^ 63 - 1 < number →
    ∃ error, result = .error error ∧ reportAt text stop "integer is out of range" error

/-- A value that is tested for its range. -/
theorem Exact.of_test {A : Type} {number : ℤ} {int : I64 → A} {tooBig : Prop} [Decidable tooBig] {done : Scan A}
    (bound : pos ≤ text.length) (test : tooBig ↔ number < -2 ^ 63 ∨ 2 ^ 63 - 1 < number)
    (value : ∀ n : I64, n.1 = number → done pos = .ok (int n, pos)) :
    Exact text number int ((if tooBig then fail (codePoints text) "integer is out of range" else done) pos) pos where
  within n same := by
    have range := n.2
    rw [if_neg (by rw [test]; omega), value n same]
  beyond range := by
    obtain ⟨described, run⟩ := position_run bound
    rw [if_pos (test.mpr range)]
    exact ⟨_, by rw [fail, run_bind run]; rfl, described, run, rfl⟩

theorem parseRadixInt_run (radix : Radix) (run : DigitRun radix.base) {marker : Char}
    (here : At text pos ('0' :: marker :: run.text ++ rest)) (delimited : Delimited rest) :
    Exact text run.number id (parseRadixInt (codePoints text) radix.base pos) (pos + (run.text.length + 2)) := by
  have notEmpty : run.values.map (Nat.cast : ℕ → ℤ) ≠ [] := by simpa using run.values_ne_nil
  obtain ⟨es, stripped, same, small, trimmed⟩ := significantDigits_spec run.values_ne_nil run.values_small
  obtain ⟨stop, scanned, there⟩ := radixLoop_digits run (here.step.step : At text (pos + 2) (run.text ++ rest)) delimited
  have place : pos + (run.text.length + 2) = stop := by
    have before := here.length
    have behind := there.length
    simp only [List.length_append, List.length_cons] at before
    omega
  have tooMany := radixOver_iff radix small trimmed
  rw [same, ← run.number_eq] at tooMany
  rw [parseRadixInt, run_bind advance_run, run_bind scanned, if_neg notEmpty, stripped, place]
  refine .of_test there.2 (tooMany.trans (by omega)) fun n value => ?_
  rw [radixValue_eq, same, ← run.number_eq, ← value]
  exact congrArg (fun n => Except.ok (n, _)) (Subtype.ext (wrapI64_val n.2))

/-- What is made of the integer behind it. -/
theorem Exact.map {A : Type} {number : ℤ} {m : Scan I64} {stop : ℕ} (exact_ : Exact text number id (m pos) stop) (int : I64 → A) :
    Exact text number int ((do return int (← m)) pos) stop where
  within n value := by
    rw [run_bind (exact_.within n value)]
    rfl
  beyond range := by
    obtain ⟨error, failed, reported⟩ := exact_.beyond range
    exact ⟨error, run_bind_error failed, reported⟩

variable {D : Type} (doubles : Doubles D)

theorem parseDecimal_run (negative : Bool) (run : DigitRun 10) (noLeadingZero : run.more = [] ∨ run.first.value ≠ 0)
    (here : At text pos (run.text ++ rest)) (delimited : Delimited rest) {number : ℤ}
    (denoted : number = if negative then -(run.number : ℤ) else run.number) :
    Exact text number Scalar.int (parseDecimal (codePoints text) doubles negative pos) (pos + run.text.length) := by
  obtain ⟨other, -, notPoint⟩ := delimited.front
  obtain ⟨-, notUpper, notLower⟩ := not_isAlphanumeric other
  obtain ⟨stop, scanned, there⟩ := digitRun_run run here delimited
  have place : pos + run.text.length = stop := by
    have before := here.length
    have behind := there.length
    rw [List.length_append] at before
    omega
  have fraction : decimalFraction (codePoints text) stop = .ok ([], stop) := by
    rw [decimalFraction, run_bind (peek_run there), if_neg notPoint]
    rfl
  have exponent : decimalExponent (codePoints text) stop = .ok ([], stop) := by
    rw [decimalExponent, run_bind (peek_run there), if_neg (by omega)]
    rfl
  have trimmed : Horner.Trimmed run.values := by
    obtain single | nonzero := noLeadingZero
    · left
      rw [DigitRun.values, DigitRun.digits, single]
      rfl
    · right
      intro zero
      exact nonzero (Option.some.inj zero)
  have allowed : ¬ ((run.values.map asciiDigit).length > 1 ∧ (run.values.map asciiDigit).getD 0 0 = 48) := by
    rintro ⟨long, zero⟩
    obtain single | nonzero := trimmed
    · rw [List.length_map] at long
      omega
    · apply nonzero
      have first : asciiDigit run.first.value = 48 := zero
      rw [asciiDigit] at first
      exact congrArg some (by omega : run.first.value = 0)
  have exceeds := exceedsI64_iff run.values_small trimmed negative
  have token := toInt_token run.values_ne_nil run.values_small negative
  rw [← run.number_eq] at exceeds token
  rw [← denoted] at token
  rw [run.codes_eq] at scanned
  rw [parseDecimal, run_bind scanned, if_neg allowed, run_bind fraction, run_bind exponent, if_neg (by simp), place]
  refine .of_test there.2 (exceeds.trans ?_) fun n value => ?_
  · rw [denoted]
    cases negative <;> simp
  · rw [List.append_nil, List.append_nil, token, ← value, toI64, dif_pos n.2]
    rfl

theorem matchLiteral_other {c l : Char} (literal : List Char) (here : At text pos (c :: rest)) (other : c ≠ l) :
    matchLiteral (codePoints text) (l :: literal) pos = .ok (false, pos) := by
  have first : cpAt (codePoints text) pos ≠ codePoint l := by
    rw [cpAt, List.getD_eq_getElem?_getD, codePoints, List.getElem?_map, here.getElem?]
    exact fun same => other (codePoint_inj.mp same)
  have differs : ((codePoints (l :: literal)).zipIdx.all fun want => cpAt (codePoints text) (pos + want.2) = want.1) = false := by
    rw [List.all_eq_false]
    exact ⟨(codePoint l, 0), List.mem_cons_self, by simpa using first⟩
  rw [matchLiteral, run_get, if_neg (by rw [differs]; exact Bool.false_ne_true)]
  rfl

theorem cpAhead_run {c : Char} (here : At text pos (c :: rest)) : cpAhead (codePoints text) 1 pos = .ok (front rest, pos) := by
  have next : cpAt (codePoints text) (pos + 1) = front rest := by
    rw [cpAt, List.getD_eq_getElem?_getD, codePoints, List.getElem?_map]
    cases rest with
    | nil => rw [List.getElem?_eq_none here.step.end_.ge]; rfl
    | cons d rest => rw [here.step.getElem?]; rfl
  rw [cpAhead, run_get, next]
  rfl

theorem Digit.char_ne (d : Digit base) {c : Char} (other : hexDigitValue (codePoint c) = none) : d.char ≠ c := by
  rintro rfl
  rw [d.hexDigitValue_char] at other
  cases other

/-- Digits are a decimal, unless they are a zero without a sign and a marker. -/
theorem parseNumber_digits {c : ℤ} {signed : Bool} {pos' : ℕ} (peeked : peek (codePoints text) pos = .ok (c, pos))
    (isSigned : (decide (c = 43) || decide (c = 45)) = signed) (moved : pos + (if signed = true then 1 else 0) = pos')
    (d : Digit base) (here : At text pos' (d.char :: rest)) :
    parseNumber (codePoints text) doubles pos =
      (if !signed && codePoint d.char = 48 then radixMarker (front rest) else none).elim
        (parseDecimal (codePoints text) doubles (c = 45))
        (fun base => do return .int (← parseRadixInt (codePoints text) base)) pos' := by
  have notInf : matchLiteral (codePoints text) "inf".toList pos' = .ok (false, pos') :=
    matchLiteral_other _ here (d.char_ne (by decide))
  have notNan : matchLiteral (codePoints text) "nan".toList pos' = .ok (false, pos') :=
    matchLiteral_other _ here (d.char_ne (by decide))
  have digit : peek (codePoints text) pos' = .ok (codePoint d.char, pos') := peek_run here
  rw [parseNumber, run_bind peeked, isSigned, run_bind advance_run, moved, run_bind notInf, if_neg Bool.false_ne_true,
    run_bind notNan, if_neg Bool.false_ne_true, run_bind digit, run_bind (cpAhead_run here)]
  cases (if (!signed && decide (codePoint d.char = 48)) = true then radixMarker (front rest) else none) <;> rfl

/-- Every integer literal, wherever it stands in a text, is answered by its number or by a report of its range. -/
theorem integers_are_exact (literal : IntegerLiteral) (here : At text pos (literal.text ++ rest))
    (delimited : Delimited rest) :
    Exact text literal.number Scalar.int (parseNumber (codePoints text) doubles pos) (pos + literal.text.length) := by
  cases literal with
  | based radix run =>
    have there : At text pos ('0' :: radix.marker :: run.text ++ rest) := here
    have isMarker : radixMarker (codePoint radix.marker) = some (radix.base : ℤ) := by
      cases radix <;> rfl
    have parsed := parseNumber_digits doubles (peek_run there) rfl rfl (⟨'0', 0, by decide, .inl rfl⟩ : Digit 10) there
    have based : Exact text run.number Scalar.int
        ((radixMarker (codePoint radix.marker)).elim (parseDecimal (codePoints text) doubles false)
          (fun base => do return .int (← parseRadixInt (codePoints text) base)) pos) (pos + (run.text.length + 2)) := by
      rw [isMarker]
      exact (parseRadixInt_run radix run there delimited).map Scalar.int
    rw [parsed]
    exact based
  | decimal sign run noLeadingZero =>
    cases sign with
    | none =>
      have there : At text pos (run.first.char :: (moreText run.more ++ rest)) := here
      have peeked : peek (codePoints text) pos = .ok (codePoint run.first.char, pos) := peek_run there
      have code := run.first.codePoint_char
      have notPlus : codePoint run.first.char ≠ 43 := by omega
      have notMinus : codePoint run.first.char ≠ 45 := by omega
      have unsigned : (decide (codePoint run.first.char = 43) || decide (codePoint run.first.char = 45)) = false := by
        rw [decide_eq_false notPlus, decide_eq_false notMinus]
        rfl
      have unmarked : (if !false && codePoint run.first.char = 48 then radixMarker (front (moreText run.more ++ rest))
          else none) = none := by
        obtain single | nonzero := noLeadingZero
        · have letters := not_isAlphanumeric delimited.front.1
          have none_ : radixMarker (front rest) = none := by
            rw [radixMarker, if_neg (by omega), if_neg (by omega), if_neg (by omega)]
          rw [single, show moreText [] ++ rest = rest from rfl, none_, ite_self]
        · have notZero : codePoint run.first.char ≠ 48 := by omega
          rw [decide_eq_false notZero]
          rfl
      rw [parseNumber_digits doubles peeked unsigned rfl run.first there, unmarked, decide_eq_false notMinus]
      exact parseDecimal_run doubles false run noLeadingZero here delimited rfl
    | some sign =>
      have there : At text (pos + 1) (run.text ++ rest) := by cases sign <;> exact At.step here
      have size : pos + 1 + run.text.length = pos + (signText (some sign) ++ run.text).length := by
        cases sign
        all_goals
          show _ = pos + (run.text.length + 1)
          omega
      cases sign with
      | plus =>
        have digits := parseNumber_digits doubles (peek_run here) rfl rfl run.first there
        rw [digits]
        exact size ▸ parseDecimal_run doubles false run noLeadingZero there delimited rfl
      | minus =>
        have digits := parseNumber_digits doubles (peek_run here) rfl rfl run.first there
        rw [digits]
        exact size ▸ parseDecimal_run doubles true run noLeadingZero there delimited rfl

/-- Two digits in either case. -/
def literalFF : IntegerLiteral :=
  .based .hexadecimal ⟨⟨'f', 15, by decide, .inl rfl⟩, [(false, ⟨'F', 15, by decide, .inr rfl⟩)]⟩

theorem integers_are_exact_ff :
    At "n = 0xfF".toList 4 (literalFF.text ++ []) ∧ Delimited [] ∧
      parseNumber (codePoints "n = 0xfF".toList) (⟨fun _ => (), (), (), ()⟩ : Doubles Unit) 4 =
        .ok (.int ⟨255, by decide⟩, 8) :=
  have here : At "n = 0xfF".toList 4 (literalFF.text ++ []) := ⟨by decide, by decide⟩
  have delimited : Delimited [] := by rintro c ⟨⟩
  ⟨here, delimited, (integers_are_exact _ literalFF here delimited).within ⟨255, by decide⟩ (by decide)⟩

end Thera.Sdk.TomlFormat
