import Thera.Proofs.Frontend.TextBlock

/-! # String literals denote what is written

Splitting a literal's captured value gives back its text and its interpolations, for ordinary, raw and
text-block literals. The one gap is an ordinary string's plain `$` directly before an escape for `{`:
both are captured bare, and the splitter takes the pair for an interpolation.
-/

namespace Thera.Frontend

/-- The literal at the start of the text is an ordinary string. -/
def IsOrdinary (source : List ℕ) : Prop :=
  ∃ quote rest, source = quote :: rest ∧ Ch.isQuote quote = true ∧
    ¬ (rest.head? = some quote ∧ rest.tail.head? = some quote)

/-- `Denotes total source pieces after`: `source` starts with a literal for `pieces`, and `after` follows. -/
inductive Denotes (total : ℕ) : List ℕ → List Piece → List ℕ → Prop
  | ordinary {quote : ℕ} {rest after : List ℕ} {pieces : List Piece} (delimited : Ch.isQuote quote = true)
      (single : ¬ (rest.head? = some quote ∧ rest.tail.head? = some quote))
      (written : Written total (closesOne quote) rest pieces after) : Denotes total (quote :: rest) pieces after
  | raw {quote : ℕ} {content after : List ℕ} (delimited : Ch.isQuote quote = true) (absent : quote ∉ content) :
      Denotes total (Ch.lowerR :: quote :: (content ++ quote :: after)) (content.map .plain) after
  | block {quote : ℕ} {opening body after : List ℕ} {pieces : List Piece} (delimited : Ch.isQuote quote = true)
      (space : ∀ c ∈ opening, Ch.isWhitespace c = true) (first : Ch.lf ∉ opening)
      (written : Written total (closesThree quote) body pieces after) :
      Denotes total (quote :: quote :: quote :: (opening ++ Ch.lf :: body)) (blockText pieces) after

/-- A literal that lexes without a report denotes some pieces, and splitting its token yields their
parts: each run of text decoded, each interpolation with its own source, and nothing else. In an
ordinary string this needs no plain `$` directly before an escape for `{`. -/
theorem string_literals_denote {E D : Type} (sub : SubParser E D) (parent : Region) {total : ℕ} {source : List ℕ}
    {token : Scanned} (within : source.length ≤ total) (lexed : scanLiteral total source = some token)
    (clean : token.errors = []) :
    ∃ pieces, Denotes total source pieces token.rest ∧ token.interps = pieces.filterMap Piece.region? ∧
      ((IsOrdinary source → Guarded pieces) →
        splitStringParts sub parent token.buf token.interps = Piece.parts sub parent [] pieces) := by
  rcases source with _ | ⟨c, rest⟩
  · cases lexed
  unfold scanLiteral at lexed
  dsimp only at lexed
  split at lexed
  next quote =>
    split at lexed
    next triple =>
      -- a text block
      cases lexed
      have opened : rest = c :: c :: rest.tail.tail := by
        rw [List.cons_head?_tail triple.2, List.cons_head?_tail triple.1]
      have shorter : rest.tail.tail.length ≤ total := by
        rw [opened] at within
        simp only [List.length_cons] at within
        omega
      obtain ⟨opening, body, pieces, after, split, space, first, written, splittable, captured⟩ :=
        scanTextBlock_written shorter clean
      rw [captured]
      refine ⟨blockText pieces, ?_, rfl, fun _ => split_encode sub parent splittable []⟩
      rw [opened, split]
      exact .block quote space first written
    next single =>
      cases lexed
      obtain ⟨pieces, after, written, captured⟩ := scanString_written (Nat.le_of_succ_le within) clean
      rw [captured]
      refine ⟨pieces, .ordinary quote single written, rfl, fun guarded => ?_⟩
      exact split_encode sub parent (written.splittable (guarded ⟨c, rest, rfl, quote, single⟩)) []
  next =>
    split at lexed
    next raw =>
      split at lexed
      next q rest =>
        split at lexed
        next quote =>
          cases lexed
          obtain ⟨triple, clean⟩ := List.append_eq_nil_iff.mp clean
          obtain ⟨content, after, split, absent, captured⟩ := scanRawString_written clean
          rw [triple, captured]
          refine ⟨content.map .plain, ?_, rfl, fun _ => split_encode sub parent (splittable_plain content) []⟩
          rw [raw, split]
          exact .raw quote absent
        next => cases lexed
      next => cases lexed
    next => cases lexed

/-- A stand-in for the expression parser: every character is a token and an expression is its source. -/
def echo : SubParser (List ℕ) Region where
  tokenCount source := source.length + 1
  lexErrors _ _ := []
  expr source _ := source
  parseErrors _ _ := []
  emptyInterpolation region := region

/-- The literal `'a${b}\n'`. -/
def greetingLiteral : List ℕ := [39, 97, 36, 123, 98, 125, 92, 110, 39]

private theorem scan_greetingLiteral :
    scanLiteral 9 greetingLiteral = some ⟨[97, 36, 123, 98, 125, 10], [⟨4, 1⟩], [], []⟩ := by
  simp [greetingLiteral, scanLiteral, scanString, scanInterpolation, copyInterpolation, scanStringEscape, simpleEscape,
    pushLiteral, depthAfter, Scanned.after, Ch.isQuote, Ch.squote, Ch.dquote, Ch.backslash, Ch.dollar, Ch.lbrace,
    Ch.rbrace, Ch.lowerN, Ch.lf]

theorem greetingLiteral_denotes :
    ∃ pieces, Denotes 9 greetingLiteral pieces [] ∧ pieces.filterMap Piece.region? = [⟨4, 1⟩] ∧
      ((IsOrdinary greetingLiteral → Guarded pieces) →
        splitStringParts echo ⟨0, 9⟩ [97, 36, 123, 98, 125, 10] [⟨4, 1⟩] = Piece.parts echo ⟨0, 9⟩ [] pieces) := by
  obtain ⟨pieces, denotes, regions, parts⟩ :=
    string_literals_denote echo ⟨0, 9⟩ (by decide) scan_greetingLiteral rfl
  exact ⟨pieces, denotes, regions.symm, parts⟩

/-! ## Where splitting differs -/

/-- The literal `'$\x7b1}'`. -/
def bracedLiteral : List ℕ := [39, 36, 92, 120, 55, 98, 49, 125, 39]

private theorem bracedLiteral_denotes :
    Denotes 9 bracedLiteral [.plain 36, .escaped 123, .plain 49, .plain 125] [] := by
  have digits : Escape Ch.lowerX [55, 98, 49, 125, 39] 123 [49, 125, 39] :=
    @Escape.hex [55, 98] [7, 11] [49, 125, 39] rfl rfl
  refine .ordinary rfl (by decide) (.plain rfl (by decide) (by decide) (.escaped rfl digits ?_))
  exact .plain rfl (by decide) (by decide) (.plain rfl (by decide) (by decide) (.close rfl))

/-- The text `${1}`, spelled with an escaped brace, lexes without an interpolation and splits into one
all the same; and an interpolation without an expression is reported and becomes an empty text. -/
theorem escaped_brace_splits_as_interpolation :
    (∃ token pieces, scanLiteral 9 bracedLiteral = some token ∧ token.errors = [] ∧ token.interps = [] ∧
      Denotes 9 bracedLiteral pieces token.rest ∧ pieces.filterMap Piece.char? = [36, 123, 49, 125] ∧
      splitStringParts echo ⟨0, 9⟩ token.buf token.interps = ([.interp ⟨0, 9⟩ [49]], [])) ∧
    ∃ token, scanLiteral 5 [39, 36, 123, 125, 39] = some token ∧ token.errors = [] ∧ token.interps = [⟨3, 0⟩] ∧
      splitStringParts echo ⟨0, 5⟩ token.buf token.interps = ([.text ⟨3, 0⟩ []], [⟨3, 0⟩]) := by
  constructor
  · refine ⟨⟨[36, 123, 49, 125], [], [], []⟩, _, ?_, rfl, rfl, bracedLiteral_denotes, by decide, ?_⟩
    · simp [bracedLiteral, scanLiteral, scanString, scanStringEscape, scanHexEscape, hexDigits, simpleEscape,
        pushLiteral, Scanned.after, Ch.isQuote, Ch.squote, Ch.dquote, Ch.backslash, Ch.dollar, Ch.lbrace, Ch.isHexDigit,
        Ch.hexDigitValue, Ch.isDigit, Ch.digit0, Ch.digit9, Ch.upperA, Ch.lowerA, Ch.lowerX, Ch.lowerN, Ch.lowerT,
        Ch.lowerR, Ch.lowerB, Ch.lowerF, Ch.lowerV]
    · simp [splitStringParts, splitFrom, skipInterpolation, interpPart, flushText, depthAfter, echo, Ch.isQuote,
        Ch.squote, Ch.dquote, Ch.backslash, Ch.dollar, Ch.lbrace, Ch.rbrace]
  · refine ⟨⟨[36, 123, 125], [⟨3, 0⟩], [], []⟩, ?_, rfl, rfl, ?_⟩
    · simp [scanLiteral, scanString, scanInterpolation, copyInterpolation, depthAfter, Scanned.after, Ch.isQuote,
        Ch.squote, Ch.dquote, Ch.backslash, Ch.dollar, Ch.lbrace, Ch.rbrace]
    · simp [splitStringParts, splitFrom, skipInterpolation, interpPart, flushText, depthAfter, echo, Ch.isQuote,
        Ch.squote, Ch.dquote, Ch.backslash, Ch.dollar, Ch.lbrace, Ch.rbrace]

end Thera.Frontend
