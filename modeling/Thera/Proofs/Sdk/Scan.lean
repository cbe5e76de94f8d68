import Thera.Model.Sdk.Scan
import Thera.ToMathlib.Scanning

/-! # Scanning by what remains -/

namespace Thera.Sdk

open Scanning

/-- The error is one a parser reports. -/
def Stop.Reported (stop : Stop) : Prop := ∃ message, stop = .malformed message

theorem charOf_codePoint (c : Char) : charOf (codePoint c) = c := by
  have valid : (codePoint c).toNat.isValidChar := c.valid
  rw [charOf, if_pos ⟨Int.natCast_nonneg _, valid⟩]
  exact Char.ofNat_toNat c

theorem codePoint_inj {c d : Char} : codePoint c = codePoint d ↔ c = d :=
  ⟨fun same => by rw [← charOf_codePoint c, same, charOf_codePoint], fun same => same ▸ rfl⟩

theorem codePoint_nonneg (c : Char) : 0 ≤ codePoint c := Int.natCast_nonneg _

theorem fromChars_codePoints (text : List Char) : fromChars (codePoints text) = String.ofList text := by
  rw [fromChars, codePoints, List.map_map]
  congr 1
  exact (List.map_congr_left fun c _ => charOf_codePoint c).trans (List.map_id text)

@[simp] theorem length_codePoints (text : List Char) : (codePoints text).length = text.length := List.length_map _

/-! ## Decimal digits -/

theorem codePoint_digit {n : ℕ} (small : n < 10) : codePoint (Char.ofNat (48 + n)) = 48 + n := by
  interval_cases n <;> rfl

theorem decimalDigits_ne_nil (n : ℕ) : decimalDigits n ≠ [] := by
  rw [decimalDigits]
  split <;> simp

theorem isDigit_decimalDigits (n : ℕ) : ∀ c ∈ decimalDigits n, isDigit (codePoint c) = true := by
  have digit {k : ℕ} (small : k < 10) : isDigit (codePoint (Char.ofNat (48 + k))) = true := by
    rw [codePoint_digit small, isDigit, Bool.and_eq_true, decide_eq_true_eq, decide_eq_true_eq]
    omega
  induction n using decimalDigits.induct with
  | case1 n small =>
    rw [decimalDigits, if_pos small]
    intro c member
    rw [List.mem_singleton.mp member]
    exact digit small
  | case2 n large ih =>
    rw [decimalDigits, if_neg large]
    intro c member
    obtain earlier | last := List.mem_append.mp member
    · exact ih c earlier
    · rw [List.mem_singleton.mp last]
      exact digit (by omega)

theorem foldl_decimalDigits (n : ℕ) : (decimalDigits n).foldl (fun n c => n * 10 + (c.toNat - 48)) 0 = n := by
  have digit {k : ℕ} (small : k < 10) : (Char.ofNat (48 + k)).toNat = 48 + k := by
    have := codePoint_digit small
    rw [codePoint] at this
    omega
  induction n using decimalDigits.induct with
  | case1 n small =>
    rw [decimalDigits, if_pos small, List.foldl_cons, List.foldl_nil, digit small]
    omega
  | case2 n large ih =>
    rw [decimalDigits, if_neg large, List.foldl_append, ih, List.foldl_cons, List.foldl_nil, digit (by omega)]
    omega

theorem digitsValue_decimalDigits (n : ℕ) : digitsValue (codePoints (decimalDigits n)) = some n := by
  have nonempty : codePoints (decimalDigits n) ≠ [] := fun empty => decimalDigits_ne_nil n (List.map_eq_nil_iff.mp empty)
  have digits : (codePoints (decimalDigits n)).all isDigit = true := by
    rw [List.all_eq_true]
    intro cp member
    obtain ⟨c, inside, rfl⟩ := List.mem_map.mp member
    exact isDigit_decimalDigits n c inside
  have step : (fun (n : ℕ) (c : Char) => n * 10 + (codePoint c - 48).toNat) = fun n c => n * 10 + (c.toNat - 48) := by
    funext n c
    rw [codePoint]
    omega
  rw [digitsValue, if_pos ⟨nonempty, digits⟩, codePoints, List.foldl_map, step, foldl_decimalDigits]

/-! ## Computations that may stop -/

theorem ok_bind {A B : Type} (a : A) (next : A → Parse B) : ((.ok a : Parse A) >>= next) = next a := rfl

theorem bind_ok {A B : Type} {m : Parse A} {next : A → Parse B} {b : B} (run : (m >>= next) = .ok b) :
    ∃ a, m = .ok a ∧ next a = .ok b := by
  cases m with
  | error stop => cases run
  | ok a => exact ⟨a, rfl, run⟩

/-! ## Scanning -/

variable {text rest : List Char} {pos : ℕ} {c : Char}

theorem codeAt_at {cs behind : List ℤ} {cp : ℤ} (here : At cs pos (cp :: behind)) : codeAt cs pos = .ok cp := by
  rw [codeAt, here.getElem?]

theorem codeAt_run (here : At text pos (c :: rest)) : codeAt (codePoints text) pos = .ok (codePoint c) := by
  rw [codeAt, codePoints, List.getElem?_map, here.getElem?]
  rfl

theorem codeAt_end (here : At text pos []) : codeAt (codePoints text) pos = .error .outOfRange := by
  have past : (codePoints text)[pos]? = none := List.getElem?_eq_none (by simp [here.end_])
  rw [codeAt, past]

/-- What was passed over between two positions. -/
theorem slice_codePoints {taken : List Char} {stop : ℕ} (here : At text pos (taken ++ rest)) (done : At text stop rest) :
    ((codePoints text).drop pos).take (stop - pos) = codePoints taken := by
  have total := here.length
  have left := done.length
  rw [List.length_append] at total
  rw [show stop - pos = taken.length by omega, codePoints, ← List.map_drop, ← List.map_take, here.slice, codePoints]

theorem charAt_run {i s : ℕ} (there : text[i]? = some c) : charAt (codePoints text) i s = .ok (codePoint c, s) := by
  rw [charAt, codePoints, List.getElem?_map, there]
  rfl

/-- The code point that is next, or `-1` at the end. -/
def front : List Char → ℤ
  | [] => -1
  | c :: _ => codePoint c

theorem front_eq {c : Char} : front rest = codePoint c ↔ ∃ rest', rest = c :: rest' := by
  cases rest with
  | nil =>
    have := codePoint_nonneg c
    simp only [front, reduceCtorEq, exists_const, iff_false]
    omega
  | cons d rest => simp [front, codePoint_inj]

theorem peek_run (here : At text pos rest) : peek (codePoints text) pos = .ok (front rest, pos) := by
  rw [peek, run_get]
  cases rest with
  | nil =>
    have past : pos ≥ (codePoints text).length := by simpa using here.end_.ge
    rw [if_pos past]
    rfl
  | cons c rest =>
    have inside : ¬ pos ≥ (codePoints text).length := by simpa using here.lt
    rw [if_neg inside]
    exact charAt_run here.getElem?

theorem atEnd_run (here : At text pos (c :: rest)) : atEnd (codePoints text) pos = .ok (false, pos) := by
  have inside : ¬ pos ≥ (codePoints text).length := by simpa using here.lt
  rw [atEnd, run_get, decide_eq_false inside]
  rfl

theorem atEnd_end (here : At text pos []) : atEnd (codePoints text) pos = .ok (true, pos) := by
  have past : pos ≥ (codePoints text).length := by simpa using here.end_.ge
  rw [atEnd, run_get, decide_eq_true past]
  rfl

theorem current_run (here : At text pos (c :: rest)) : current (codePoints text) pos = .ok (codePoint c, pos) := by
  rw [current, run_get]
  exact charAt_run here.getElem?

theorem advance_run {n s : ℕ} : advance n s = .ok ((), s + n) := rfl

theorem skipWhile_run {test : ℤ → Bool} (stops : test (-1) = false) {fuel : ℕ} (here : At text pos rest)
    (enough : rest.length < fuel) :
    skipWhile (codePoints text) test fuel pos = .ok ((), pos + (rest.takeWhile fun c => test (codePoint c)).length) := by
  induction fuel generalizing pos rest with
  | zero => omega
  | succ fuel ih =>
    rw [skipWhile, run_bind (peek_run here)]
    cases rest with
    | nil =>
      rw [front, stops]
      rfl
    | cons c rest =>
      rw [front, List.takeWhile_cons]
      cases test (codePoint c) with
      | false => rfl
      | true =>
        rw [List.length_cons] at enough
        have later := ih here.step (by omega)
        simp only [if_true, List.length_cons]
        rw [run_bind advance_run, later, Nat.add_assoc, Nat.add_comm 1]

theorem takeWhile_exact {test : ℤ → Bool} {skipped : List Char} (passes : ∀ c ∈ skipped, test (codePoint c) = true)
    (next : test (front rest) = false) : (skipped ++ rest).takeWhile (fun c => test (codePoint c)) = skipped := by
  rw [List.takeWhile_append_of_pos passes]
  cases rest with
  | nil => simp
  | cons c rest => simp [show test (codePoint c) = false from next]

theorem skipWhile_exact {test : ℤ → Bool} (stops : test (-1) = false) {fuel : ℕ} {skipped : List Char}
    (here : At text pos (skipped ++ rest)) (passes : ∀ c ∈ skipped, test (codePoint c) = true)
    (next : test (front rest) = false) (enough : text.length < fuel) :
    Yields (skipWhile (codePoints text) test fuel) text pos () rest := by
  have length := here.length
  exact ⟨_, by rw [skipWhile_run stops here (by omega), takeWhile_exact passes next], here.append⟩

/-- Skipping splits what remains. -/
theorem skipWhile_splits (test : ℤ → Bool) (stops : test (-1) = false) (fuel : ℕ) (here : At text pos rest)
    (enough : text.length < fuel) :
    ∃ skipped rest', rest = skipped ++ rest' ∧ (∀ c ∈ skipped, test (codePoint c) = true) ∧ test (front rest') = false ∧
      skipWhile (codePoints text) test fuel pos = .ok ((), pos + skipped.length) ∧ At text (pos + skipped.length) rest' := by
  have length := here.length
  have split := List.takeWhile_append_dropWhile (p := fun c => test (codePoint c)) (l := rest)
  have passes (c : Char) (member : c ∈ rest.takeWhile fun c => test (codePoint c)) : test (codePoint c) = true :=
    List.mem_takeWhile_imp (p := fun c => test (codePoint c)) member
  refine ⟨_, _, split.symm, passes, ?_, skipWhile_run stops here (by omega), ?_⟩
  · have first := List.head?_dropWhile_not (fun c => test (codePoint c)) rest
    cases left : rest.dropWhile fun c => test (codePoint c) with
    | nil => exact stops
    | cons c rest' =>
      rw [left] at first
      simpa [front] using first
  · exact At.append (split.symm ▸ here)

/-! ## Reports -/

theorem countLine_run {i : ℕ} (counted : ℕ × ℕ) (inside : i < text.length) :
    ∃ counted', countLine (codePoints text) counted i pos = .ok (counted', pos) := by
  rw [countLine, run_bind (charAt_run (List.getElem?_eq_getElem inside))]
  split
  · exact ⟨_, rfl⟩
  · exact ⟨_, rfl⟩

theorem countLines_run (indices : List ℕ) (inside : ∀ i ∈ indices, i < text.length) (start : ℕ × ℕ) :
    ∃ stop, indices.foldlM (countLine (codePoints text)) start pos = .ok (stop, pos) := by
  induction indices generalizing start with
  | nil => exact ⟨start, rfl⟩
  | cons i rest ih =>
    obtain ⟨counted, first⟩ := countLine_run start (inside i List.mem_cons_self)
    obtain ⟨stop, done⟩ := ih (fun j member => inside j (List.mem_cons_of_mem i member)) counted
    exact ⟨stop, by rw [List.foldlM_cons, run_bind first, done]⟩

theorem position_run (bound : pos ≤ text.length) : ∃ described, position (codePoints text) pos = .ok (described, pos) := by
  obtain ⟨stop, done⟩ :=
    countLines_run (List.range pos) (fun i member => (List.mem_range.mp member).trans_le bound) (1, 1)
  exact ⟨_, by rw [position, run_get, run_bind done]; rfl⟩

theorem fail_run {A : Type} (bound : pos ≤ text.length) (message : String) :
    ∃ stop, (fail (codePoints text) message : Scan A) pos = .error stop ∧ stop.Reported := by
  obtain ⟨described, run⟩ := position_run bound
  exact ⟨_, by rw [fail, run_bind run]; rfl, _, rfl⟩

/-- A report ends a run as it should, whatever was to come. -/
theorem ends_fail {A : Type} {P : A → ℕ → Prop} (here : At text pos rest) (message : String) :
    Ends Stop.Reported (fail (codePoints text) message : Scan A) pos P := by
  obtain ⟨stop, run, reported⟩ := fail_run here.2 message
  exact .of_error run reported

end Thera.Sdk
