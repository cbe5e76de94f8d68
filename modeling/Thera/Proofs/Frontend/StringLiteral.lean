import Thera.Model.Frontend.StringLiteral

/-! # What a string literal's text denotes

A literal is read as a sequence of pieces: plain characters, escapes with the character they decode
to, and interpolations. The scanners write down an encoding of the pieces and the splitter undoes
it, provided no bare `$` meets a `{`.
-/

namespace Thera.Frontend

/-- A piece of a literal as it is written. -/
inductive Piece where
  | plain (c : ℕ)
  | escaped (c : ℕ)
  | interp (region : Region) (source : List ℕ)
deriving DecidableEq, Repr

namespace Piece

/-- How a piece is captured: an ordinary string pushes plain characters bare, the other literals
escape them. -/
def encode (bare : Bool) : Piece → List ℕ
  | plain c => if bare then [c] else pushLiteral c
  | escaped c => pushLiteral c
  | interp _ source => Ch.dollar :: Ch.lbrace :: (source ++ [Ch.rbrace])

def region? : Piece → Option Region
  | interp region _ => some region
  | _ => none

/-- The character of a piece that is text. -/
def char? : Piece → Option ℕ
  | plain c | escaped c => some c
  | interp _ _ => none

section

variable {E D : Type} (sub : SubParser E D) (parent : Region)

/-- The parts a literal denotes: each run of text is one part with its decoded characters, each
interpolation one part with its own source. -/
def parts (buf : List ℕ) : List Piece → List (StringPart E) × List D
  | [] => (flushText parent buf, [])
  | plain c :: pieces | escaped c :: pieces => parts (buf ++ [c]) pieces
  | interp region source :: pieces =>
      let (part, errors) := interpPart sub region source
      let (rest, others) := parts [] pieces
      (flushText parent buf ++ part :: rest, errors ++ others)

end

end Piece

/-! ## The splitter undoes the encoding -/

/-- An interpolation's source as the splitter sees it: it closes at the brace after it. -/
def Closes (source : List ℕ) : Prop :=
  ∀ rest, skipInterpolation 1 (source ++ Ch.rbrace :: rest) = source.length + 1

/-- The encoding of the pieces can be split again: a bare character is no backslash, a bare `$` does
not meet a `{`, and interpolations close where they end. -/
def Splittable (bare : Bool) : List Piece → Prop
  | [] => True
  | .plain c :: pieces =>
      (bare = true → c ≠ Ch.backslash ∧
        (c = Ch.dollar → (pieces.flatMap (Piece.encode bare)).head? ≠ some Ch.lbrace)) ∧ Splittable bare pieces
  | .escaped _ :: pieces => Splittable bare pieces
  | .interp _ source :: pieces => Closes source ∧ Splittable bare pieces

section

variable {E D : Type} (sub : SubParser E D) (parent : Region)

theorem splitFrom_bare (interps : List Region) (buf : List ℕ) {c : ℕ} {rest : List ℕ} (text : c ≠ Ch.backslash)
    (closed : c = Ch.dollar → rest.head? ≠ some Ch.lbrace) :
    splitFrom sub parent interps buf (c :: rest) = splitFrom sub parent interps (buf ++ [c]) rest := by
  cases rest with
  | nil => rw [splitFrom, splitFrom]
  | cons d rest =>
    rw [splitFrom, if_neg text, if_neg]
    rintro ⟨same, opening⟩
    exact closed same (congrArg some opening)

theorem splitFrom_pushLiteral (interps : List Region) (buf : List ℕ) (c : ℕ) (rest : List ℕ) :
    splitFrom sub parent interps buf (pushLiteral c ++ rest) = splitFrom sub parent interps (buf ++ [c]) rest := by
  unfold pushLiteral
  split
  next => rw [List.cons_append, List.singleton_append, splitFrom, if_pos rfl]
  next other =>
    exact splitFrom_bare sub parent interps buf (fun same => other (.inl same)) fun same => absurd (.inr same) other

theorem splitFrom_interp (interps : List Region) (buf : List ℕ) (region : Region) {source : List ℕ}
    (rest : List ℕ) (closes : Closes source) :
    splitFrom sub parent (region :: interps) buf (Ch.dollar :: Ch.lbrace :: (source ++ [Ch.rbrace]) ++ rest) =
      (flushText parent buf ++ (interpPart sub region source).1 :: (splitFrom sub parent interps [] rest).1,
        (interpPart sub region source).2 ++ (splitFrom sub parent interps [] rest).2) := by
  have taken : (source ++ Ch.rbrace :: rest).take (source.length + 1 - 1) = source := by simp
  have dropped : (source ++ Ch.rbrace :: rest).drop (source.length + 1) = rest := by simp
  rw [List.cons_append, List.cons_append, splitFrom, if_neg (by decide), if_pos ⟨rfl, rfl⟩]
  simp only [List.append_assoc, List.singleton_append, closes rest, taken, dropped, List.headD_cons, List.tail_cons]

theorem split_encode {bare : Bool} {pieces : List Piece} (splittable : Splittable bare pieces) (buf : List ℕ) :
    splitFrom sub parent (pieces.filterMap Piece.region?) buf (pieces.flatMap (Piece.encode bare)) =
      Piece.parts sub parent buf pieces := by
  induction pieces generalizing buf with
  | nil => rw [List.filterMap_nil, List.flatMap_nil, splitFrom, Piece.parts]
  | cons piece pieces ih =>
    rw [List.flatMap_cons]
    cases piece with
    | plain c =>
      obtain ⟨fits, tail⟩ := splittable
      rw [List.filterMap_cons_none rfl, Piece.parts, ← ih tail]
      cases bare with
      | false => exact splitFrom_pushLiteral ..
      | true => exact splitFrom_bare sub parent _ _ (fits rfl).1 (fits rfl).2
    | escaped c =>
      rw [List.filterMap_cons_none rfl, Piece.parts, ← ih splittable]
      exact splitFrom_pushLiteral ..
    | interp region source =>
      obtain ⟨closes, tail⟩ := splittable
      rw [List.filterMap_cons_some (f := Piece.region?) rfl, Piece.parts, ← ih tail]
      exact splitFrom_interp sub parent _ _ region _ closes

end

/-! ## Interpolations -/

variable {quote : ℕ} {rest after : List ℕ}

theorem copyNested_split : rest = (copyNested quote rest).1 ++ (copyNested quote rest).2 := by
  fun_induction copyNested quote rest with grind

/-- A nested literal that was followed by something is skipped over its whole copy. -/
theorem skipNested_copyNested (more : (copyNested quote rest).2 ≠ []) (tail : List ℕ) :
    skipNested quote ((copyNested quote rest).1 ++ tail) = (copyNested quote rest).1.length := by
  fun_induction copyNested quote rest with
  | case1 => contradiction
  | case2 rest => rw [List.singleton_append, skipNested.eq_def]; simp
  | case3 differs => contradiction
  | case4 e rest copied after read differs ih =>
    rw [read] at ih
    rw [List.cons_append, List.cons_append, skipNested, if_neg differs, if_pos rfl, ih more]
    simp only [List.length_cons]
    omega
  | case5 c rest differs escape copied after read ih =>
    rw [read] at ih
    rw [List.cons_append, skipNested.eq_def]
    simp only [differs, escape, if_false, ih more, List.length_cons]
    omega

theorem skipInterpolation_zero (rest : List ℕ) : skipInterpolation 0 rest = 0 := by
  cases rest <;> simp [skipInterpolation]

theorem copyInterpolation_open {depth : ℕ} (left : (copyInterpolation depth rest).2.1 ≠ 0) :
    (copyInterpolation depth rest).2.2 = [] := by
  fun_induction copyInterpolation depth rest with grind

theorem copyInterpolation_split (depth : ℕ) (rest : List ℕ) :
    rest = (copyInterpolation depth rest).1 ++ (copyInterpolation depth rest).2.2 := by
  fun_induction copyInterpolation depth rest with grind [copyNested_split]

theorem skip_copyInterpolation {depth : ℕ} (closed : (copyInterpolation depth rest).2.1 = 0) (tail : List ℕ) :
    skipInterpolation depth ((copyInterpolation depth rest).1 ++ tail) = (copyInterpolation depth rest).1.length := by
  fun_induction copyInterpolation depth rest with
  | case1 depth =>
    obtain rfl : depth = 0 := closed
    exact skipInterpolation_zero tail
  | case2 c rest => exact skipInterpolation_zero tail
  | case3 depth c rest positive quote nested copied left after read ih =>
    -- a nested literal that runs to the end of the file leaves the interpolation open
    have more : nested.2 ≠ [] := by
      intro ended
      rw [ended, copyInterpolation] at read
      cases read
      exact positive closed
    rw [read] at ih
    have moved := skipNested_copyNested more (copied ++ tail)
    rw [List.cons_append, List.cons_append, List.append_assoc, skipInterpolation, if_neg positive, if_pos quote]
    simp only [moved, List.drop_left, ih closed, nested, List.length_cons, List.length_append]
    omega
  | case4 depth c rest positive plain copied left after read ih =>
    rw [read] at ih
    have moved : skipInterpolation (depthAfter depth c) (copied ++ tail) = copied.length := ih closed
    rw [List.cons_append, skipInterpolation, if_neg positive, if_neg plain, moved, List.length_cons]
    omega

/-- An interpolation that closes copies its source and the brace that closes it. -/
theorem copyInterpolation_closed {depth : ℕ} (positive : depth ≠ 0) (closed : (copyInterpolation depth rest).2.1 = 0) :
    ∃ source, (copyInterpolation depth rest).1 = source ++ [Ch.rbrace] := by
  fun_induction copyInterpolation depth rest with
  | case1 depth => exact absurd closed positive
  | case2 c rest => exact absurd rfl positive
  | case3 depth c rest _ quote nested copied left after read ih =>
    rw [read] at ih
    obtain ⟨source, same⟩ := ih positive closed
    obtain rfl : copied = source ++ [Ch.rbrace] := same
    exact ⟨c :: nested.1 ++ source, by simp⟩
  | case4 depth c rest _ plain copied left after read ih =>
    rw [read] at ih
    by_cases last : depthAfter depth c = 0
    · -- only a closing brace brings the depth down
      have brace : c = Ch.rbrace := by grind [depthAfter]
      rw [last] at read
      have none_ : copied = [] := by
        cases rest <;> simp [copyInterpolation] at read <;> exact read.1
      exact ⟨[], by rw [none_, brace]; rfl⟩
    · obtain ⟨source, same⟩ := ih last closed
      obtain rfl : copied = source ++ [Ch.rbrace] := same
      exact ⟨c :: source, rfl⟩

/-- `Interpolated rest source after`: what follows `${` is `source`, its closing brace, and `after`. -/
def Interpolated (rest source after : List ℕ) : Prop := copyInterpolation 1 rest = (source ++ [Ch.rbrace], 0, after)

theorem Interpolated.split {source : List ℕ} (scanned : Interpolated rest source after) :
    rest = source ++ Ch.rbrace :: after := by
  have whole := copyInterpolation_split 1 rest
  rwa [scanned, List.append_assoc] at whole

theorem Interpolated.closes {source : List ℕ} (scanned : Interpolated rest source after) : Closes source := by
  intro tail
  have moved : skipInterpolation 1 ((copyInterpolation 1 rest).1 ++ tail) = _ :=
    skip_copyInterpolation (by rw [scanned]) tail
  rw [scanned] at moved
  simpa using moved

/-- Unless the file ends first, scanning an interpolation captures it and records its source. -/
theorem scanInterpolation_interpolated {total : ℕ} (within : rest.length ≤ total)
    (more : (scanInterpolation total rest).rest ≠ []) :
    ∃ source after, Interpolated rest source after ∧
      scanInterpolation total rest = ⟨Ch.dollar :: Ch.lbrace :: (source ++ [Ch.rbrace]),
        [⟨total - rest.length, source.length⟩], [], after⟩ := by
  have closed : (copyInterpolation 1 rest).2.1 = 0 := by
    by_contra left
    exact more (copyInterpolation_open left)
  obtain ⟨source, copied⟩ := copyInterpolation_closed (by decide) closed
  rcases read : copyInterpolation 1 rest with ⟨copy, left, after⟩
  rw [read] at closed copied
  obtain rfl : left = 0 := closed
  obtain rfl : copy = source ++ [Ch.rbrace] := copied
  have scanned : Interpolated rest source after := read
  have length := congrArg List.length scanned.split
  rw [List.length_append, List.length_cons] at length
  have stop : total - after.length - 1 - (total - rest.length) = source.length := by omega
  refine ⟨source, after, scanned, ?_⟩
  simp only [scanInterpolation, read, if_true, stop]

/-! ## Escapes -/

/-- The number spelled by hex digit values. -/
def ofHex (values : List ℕ) : ℕ := values.foldl (fun value digit => value * 16 + digit) 0

/-- `Escape e rest c after`: behind a backslash, `e` and the start of `rest` spell the character `c`. -/
inductive Escape : ℕ → List ℕ → ℕ → List ℕ → Prop
  | simple {e c : ℕ} {rest : List ℕ} (letter : simpleEscape e = some c) : Escape e rest c rest
  | nul {rest : List ℕ} (alone : rest.head?.any Ch.isDigit = false) : Escape Ch.digit0 rest Ch.nul rest
  | hex {digits values rest : List ℕ} (spelled : digits.map Ch.hexDigitValue = values.map some)
      (two : digits.length = 2) : Escape Ch.lowerX (digits ++ rest) (ofHex values) rest
  | unicode {digits values rest : List ℕ} (spelled : digits.map Ch.hexDigitValue = values.map some)
      (some_ : digits ≠ []) (six : digits.length ≤ 6) (scalar : notScalar (ofHex values) = false) :
      Escape Ch.lowerU (Ch.lbrace :: digits ++ Ch.rbrace :: rest) (ofHex values) rest

theorem hexDigits_spelled {count value result : ℕ} (read : hexDigits count value rest = (some result, after)) :
    ∃ digits values : List ℕ, rest = digits ++ after ∧ digits.length = count ∧
      digits.map Ch.hexDigitValue = values.map some ∧
      result = values.foldl (fun value digit => value * 16 + digit) value := by
  fun_induction hexDigits count value rest with
  | case1 value rest =>
    cases read
    exact ⟨[], [], rfl, rfl, rfl, rfl⟩
  | case2 => cases read
  | case3 count value c rest digit ih =>
    obtain ⟨digits, values, rfl, length, spelled, total⟩ := ih read
    obtain ⟨x, known⟩ := Option.isSome_iff_exists.mp digit
    refine ⟨c :: digits, x :: values, rfl, by simp [length], by simp [known, spelled], ?_⟩
    rw [total, known]
    rfl
  | case4 => cases read

theorem bracedDigits_spelled {value digits result count : ℕ} (small : digits ≤ 6)
    (read : bracedDigits value digits rest = (.ok (result, count), after)) (more : after ≠ []) :
    ∃ spelling values : List ℕ, rest = spelling ++ after ∧ after.head? = some Ch.rbrace ∧ count = digits + spelling.length ∧
      count ≤ 6 ∧ spelling.map Ch.hexDigitValue = values.map some ∧
      result = values.foldl (fun value digit => value * 16 + digit) value := by
  fun_induction bracedDigits value digits rest with
  | case1 value digits =>
    cases read
    exact absurd rfl more
  | case2 value digits rest =>
    cases read
    exact ⟨[], [], rfl, rfl, rfl, small, rfl, rfl⟩
  | case3 | case4 => cases read
  | case5 value digits c rest inner digit room ih =>
    obtain ⟨spelling, values, rfl, brace, counted, six, spelled, total⟩ := ih (by omega) read
    obtain ⟨x, known⟩ := Option.ne_none_iff_exists'.mp (by simpa [Ch.isHexDigit] using digit)
    refine ⟨c :: spelling, x :: values, rfl, brace, ?_, six, by simp [known, spelled], ?_⟩
    · rw [counted, List.length_cons]
      omega
    · rw [total, known]
      rfl

theorem scanStringEscape_escape {o e : ℕ} (clean : (scanStringEscape o e rest).errors = []) :
    ∃ c after, Escape e rest c after ∧ scanStringEscape o e rest = ⟨pushLiteral c, [], [], after⟩ := by
  revert clean
  unfold scanStringEscape
  split
  next c letter => exact fun _ => ⟨c, rest, .simple letter, rfl⟩
  next =>
  split
  next nul =>
    subst nul
    split
    next => exact fun clean => by cases clean
    next alone => exact fun _ => ⟨Ch.nul, rest, .nul (by simpa using alone), rfl⟩
  next =>
  split
  next hex =>
    subst hex
    unfold scanHexEscape
    split
    next value after read =>
      obtain ⟨digits, values, split, two, spelled, total⟩ := hexDigits_spelled read
      exact fun _ => ⟨value, after, by rw [split, total]; exact .hex spelled two, rfl⟩
    next => exact fun clean => by cases clean
  next =>
  split
  next unicode =>
    subst unicode
    unfold scanUnicodeEscape
    split
    next => exact fun clean => by cases clean
    next opening =>
    split
    next => exact fun clean => by cases clean
    next value digits after read =>
    split
    next => exact fun clean => by cases clean
    next some_ =>
    split
    next => exact fun clean => by cases clean
    next scalar =>
      intro _
      obtain ⟨more, positive⟩ := not_or.mp some_
      obtain ⟨spelling, values, split, brace, counted, six, spelled, total⟩ :=
        bracedDigits_spelled (by decide) read more
      have opened : rest = Ch.lbrace :: rest.tail := (List.cons_head?_tail (not_not.mp opening)).symm
      have closed : after = Ch.rbrace :: after.tail := (List.cons_head?_tail brace).symm
      refine ⟨value, after.tail, ?_, rfl⟩
      rw [opened, split, total, closed]
      refine .unicode spelled ?_ (by omega) ?_
      · rintro rfl
        exact positive counted
      · rw [total] at scalar
        exact Bool.eq_false_iff.mpr scalar
  next => exact fun clean => by cases clean

/-! ## What is written -/

/-- A literal delimited by one quote ends here, with this rest. -/
def closesOne (quote : ℕ) (rest : List ℕ) : Option (List ℕ) := if rest.head? = some quote then some rest.tail else none

/-- A literal delimited by three quotes ends here, with this rest. -/
def closesThree (quote : ℕ) (rest : List ℕ) : Option (List ℕ) :=
  if rest.take 3 = [quote, quote, quote] then some (rest.drop 3) else none

/-- `Written total closes rest pieces after`: up to its end, `rest` is the text of `pieces`. -/
inductive Written (total : ℕ) (closes : List ℕ → Option (List ℕ)) : List ℕ → List Piece → List ℕ → Prop
  | close {rest after : List ℕ} (ends : closes rest = some after) : Written total closes rest [] after
  | plain {c : ℕ} {rest after : List ℕ} {pieces : List Piece} (goes : closes (c :: rest) = none)
      (text : c ≠ Ch.backslash) (single : ¬ (c = Ch.dollar ∧ rest.head? = some Ch.lbrace))
      (tail : Written total closes rest pieces after) : Written total closes (c :: rest) (.plain c :: pieces) after
  | escaped {e c : ℕ} {rest middle after : List ℕ} {pieces : List Piece}
      (goes : closes (Ch.backslash :: e :: rest) = none) (decodes : Escape e rest c middle)
      (tail : Written total closes middle pieces after) :
      Written total closes (Ch.backslash :: e :: rest) (.escaped c :: pieces) after
  | interp {rest source middle after : List ℕ} {pieces : List Piece}
      (goes : closes (Ch.dollar :: Ch.lbrace :: rest) = none) (scanned : Interpolated rest source middle)
      (tail : Written total closes middle pieces after) :
      Written total closes (Ch.dollar :: Ch.lbrace :: rest)
        (.interp ⟨total - rest.length, source.length⟩ source :: pieces) after

/-- The record of pieces captured in order. -/
def capture (bare : Bool) (pieces : List Piece) (after : List ℕ) : Scanned :=
  ⟨pieces.flatMap (Piece.encode bare), pieces.filterMap Piece.region?, [], after⟩

theorem scanString_written {total start : ℕ} (within : rest.length ≤ total)
    (clean : (scanString total start quote rest).errors = []) :
    ∃ pieces after, Written total (closesOne quote) rest pieces after ∧
      scanString total start quote rest = capture true pieces after := by
  fun_induction scanString total start quote rest with
  | case1 => cases clean
  | case2 rest => exact ⟨[], rest, .close (by simp [closesOne]), rfl⟩
  | case3 => cases clean
  | case4 e rest escape goes ih =>
    obtain ⟨escapeClean, clean⟩ := List.append_eq_nil_iff.mp clean
    obtain ⟨c, middle, decodes, scanned⟩ := scanStringEscape_escape escapeClean
    have shorter := length_scanStringEscape (total - (rest.length + 2)) e rest
    simp only [List.length_cons] at within
    obtain ⟨pieces, after, written, captured⟩ := ih (Nat.le_trans shorter (by omega)) clean
    simp only [escape, scanned] at written captured ⊢
    rw [captured]
    exact ⟨.escaped c :: pieces, after, .escaped (by simp [closesOne, goes]) decodes written, rfl⟩
  | case5 c rest goes text opening interp ih =>
    obtain ⟨rfl, brace⟩ := opening
    rw [← List.cons_head?_tail brace] at within ⊢
    simp only [List.length_cons] at within
    have shorter := length_scanInterpolation total rest.tail
    have more : interp.rest ≠ [] := by
      intro ended
      rw [ended, scanString] at clean
      cases clean
    obtain ⟨source, middle, interpolated, scanned⟩ := scanInterpolation_interpolated (by omega) more
    obtain ⟨pieces, after, written, captured⟩ := ih (Nat.le_trans shorter (by omega)) clean
    simp only [interp, scanned] at written captured ⊢
    rw [captured]
    exact ⟨_, after, .interp (by simp [closesOne, goes]) interpolated written, rfl⟩
  | case6 c rest goes text single ih =>
    obtain ⟨pieces, after, written, captured⟩ := ih (Nat.le_of_succ_le within) clean
    rw [captured]
    exact ⟨.plain c :: pieces, after, .plain (by simp [closesOne, goes]) text single written, rfl⟩

/-- No plain `$` stands directly before an escape for `{`. -/
def Guarded (pieces : List Piece) : Prop :=
  pieces.IsChain fun first second => ¬ (first = .plain Ch.dollar ∧ second = .escaped Ch.lbrace)

theorem Written.splittable {total : ℕ} {closes : List ℕ → Option (List ℕ)} {pieces : List Piece}
    (written : Written total closes rest pieces after) (guarded : Guarded pieces) :
    Splittable true pieces := by
  induction written with
  | close => trivial
  | @plain c rest after pieces goes text single tail ih =>
    refine ⟨fun _ => ⟨text, fun dollar opening => ?_⟩, ih guarded.of_cons⟩
    -- what follows the bare `$`
    cases tail with
    | close => cases opening
    | plain => exact single ⟨dollar, opening⟩
    | @escaped e d =>
      have brace : d = Ch.lbrace := by
        rw [List.flatMap_cons, Piece.encode, pushLiteral] at opening
        split at opening
        · cases opening
        · exact Option.some.inj opening
      exact (List.isChain_cons_cons.mp guarded).1 ⟨congrArg _ dollar, congrArg _ brace⟩
    | interp => cases opening
  | escaped goes decodes tail ih => exact ih guarded.of_cons
  | interp goes scanned tail ih => exact ⟨scanned.closes, ih guarded.of_cons⟩

theorem scanRawString_written {start : ℕ} (clean : (scanRawString start quote rest).errors = []) :
    ∃ content after, rest = content ++ quote :: after ∧ quote ∉ content ∧
      scanRawString start quote rest = capture false (content.map .plain) after := by
  induction rest with
  | nil => cases clean
  | cons c rest ih =>
    rw [scanRawString] at clean ⊢
    by_cases ends : c = quote
    · rw [if_pos ends]
      exact ⟨[], rest, by rw [ends]; rfl, List.not_mem_nil, rfl⟩
    · rw [if_neg ends] at clean ⊢
      obtain ⟨content, after, rfl, absent, captured⟩ := ih clean
      refine ⟨c :: content, after, rfl, ?_, by rw [captured]; rfl⟩
      exact fun member => (List.mem_cons.mp member).elim (fun same => ends same.symm) absent

theorem splittable_plain (content : List ℕ) : Splittable false (content.map .plain) := by
  induction content with
  | nil => trivial
  | cons c content ih => exact ⟨fun bare => absurd bare (by decide), ih⟩

end Thera.Frontend
