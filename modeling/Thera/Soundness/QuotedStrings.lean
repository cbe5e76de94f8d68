import Thera.Model.Runtime.Quote
import Thera.Soundness.StringLiterals

/-! # Quoted strings are literals for the same string

The lexer reads a debug-quoted string back as the text it renders, unless a NUL stands before a digit: the lexer takes `\0` and a
digit for a mistyped octal escape.
-/

namespace Thera.Frontend

open Thera.Runtime

def codes (chars : List Char) : List ℕ := chars.map Char.toNat

/-- How a quoted character is written. -/
def quotedPiece (ch : Char) (next : Option Char) : Piece :=
  if quoteChar ch next = [ch] then .plain ch.toNat else .escaped ch.toNat

def quotedPieces : List Char → List Piece
  | [] => []
  | ch :: rest => quotedPiece ch rest.head? :: quotedPieces rest

/-- A NUL before a digit. -/
def OctalLike (a b : Char) : Prop := a = '\x00' ∧ Ch.isDigit b.toNat = true

theorem bracedDigits_run {digits : List ℕ} (value count : ℕ) (rest : List ℕ)
    (hex : ∀ d ∈ digits, Ch.isHexDigit d = true ∧ d ≠ Ch.rbrace) (short : count + digits.length ≤ 6) :
    bracedDigits value count (digits ++ Ch.rbrace :: rest) =
      (.ok (digits.foldl (fun n d => n * 16 + (Ch.hexDigitValue d).getD 0) value, count + digits.length),
        Ch.rbrace :: rest) := by
  induction digits generalizing value count with
  | nil => simp [bracedDigits]
  | cons d digits ih =>
    obtain ⟨here, later⟩ := List.forall_mem_cons.mp hex
    rw [List.length_cons] at short
    rw [List.cons_append, bracedDigits, if_neg here.2, if_neg (by simp [here.1]), if_neg (by omega), ih _ _ later (by omega)]
    rw [List.foldl_cons, List.length_cons, Nat.add_comm digits.length 1, ← Nat.add_assoc]

/-- The control characters are spelled by at most two hex digits. -/
theorem control_digits : ∀ n < 128, (∀ d ∈ codes (Nat.toDigits 16 n), Ch.isHexDigit d = true ∧ d ≠ Ch.rbrace) ∧
    (codes (Nat.toDigits 16 n)).length ≤ 2 ∧ codes (Nat.toDigits 16 n) ≠ [] ∧
    (codes (Nat.toDigits 16 n)).foldl (fun n d => n * 16 + (Ch.hexDigitValue d).getD 0) 0 = n := by
  decide +kernel

theorem scanStringEscape_control {n : ℕ} (o : ℕ) (small : n < 128) (rest : List ℕ) :
    scanStringEscape o Ch.lowerU (Ch.lbrace :: codes (Nat.toDigits 16 n) ++ Ch.rbrace :: rest) =
      ⟨pushLiteral n, [], [], rest⟩ := by
  obtain ⟨hex, short, some_, value⟩ := control_digits n small
  have run := bracedDigits_run 0 0 rest hex (by omega)
  rw [value, Nat.zero_add] at run
  have scalar : notScalar n = false := by simp [notScalar]; omega
  have unicode : scanStringEscape o Ch.lowerU (Ch.lbrace :: codes (Nat.toDigits 16 n) ++ Ch.rbrace :: rest) =
      scanUnicodeEscape o (Ch.lbrace :: codes (Nat.toDigits 16 n) ++ Ch.rbrace :: rest) := rfl
  rw [unicode, scanUnicodeEscape, if_neg (by simp), List.cons_append, List.tail_cons, run]
  simp [some_, scalar]

/-- A character that neither opens an interpolation behind a `$` nor continues a `\0`. -/
def Inert (ch : Char) : Prop := ch ≠ '{' ∧ Ch.isDigit ch.toNat = false

/-- How a character may be quoted: by a one-letter escape, by `\0`, by its code, or as it is. -/
inductive Quoting (ch : Char) (next : Option Char) : List Char → Prop
  | letter {e : Char} (decodes : simpleEscape e.toNat = some ch.toNat) (other : ch ≠ '\x00') (inert : Inert ch) :
      Quoting ch next ['\\', e]
  | nul (same : ch = '\x00') : Quoting ch next ['\\', '0']
  | code (control : ch.toNat < 0x20 ∨ ch.toNat = 0x7f) (other : ch ≠ '\x00') :
      Quoting ch next ('\\' :: 'u' :: '{' :: Nat.toDigits 16 ch.toNat ++ ['}'])
  | bare (text : ch ≠ '\\') (inside : ch ≠ '\'') (single : ¬ (ch = '$' ∧ next = some '{')) (other : ch ≠ '\x00') :
      Quoting ch next [ch]

theorem quoting_quoteChar (ch : Char) (next : Option Char) : Quoting ch next (quoteChar ch next) := by
  have letter : ∀ {c e : Char}, ch = c → simpleEscape e.toNat = some c.toNat →
      c ≠ '\x00' ∧ c ≠ '{' ∧ Ch.isDigit c.toNat = false → Quoting ch next ['\\', e] := by
    rintro c e rfl decodes other
    exact .letter decodes other.1 other.2
  unfold quoteChar
  split
  next same => exact letter same rfl (by decide)
  next text =>
  split
  next same => exact letter same rfl (by decide)
  next inside =>
  split
  next same => exact letter same.1 rfl (by decide)
  next single =>
  split
  next same => exact letter same rfl (by decide)
  next =>
  split
  next same => exact letter same rfl (by decide)
  next =>
  split
  next same => exact letter same rfl (by decide)
  next =>
  split
  next same => exact letter same rfl (by decide)
  next =>
  split
  next same => exact letter same rfl (by decide)
  next =>
  split
  next same => exact letter same rfl (by decide)
  next =>
  split
  next same => exact .nul same
  next other =>
  split
  next control => exact .code control other
  next => exact .bare text inside single other

theorem scanString_escape (total start : ℕ) {e : ℕ} {rest middle buf : List ℕ} {errors : List LexError}
    (escape : scanStringEscape (total - (rest.length + 2)) e rest = ⟨buf, [], errors, middle⟩) :
    scanString total start Ch.squote (Ch.backslash :: e :: rest) =
      (scanString total start Ch.squote middle).after buf [] errors := by
  rw [scanString, if_neg (by decide), if_pos rfl]
  simp only [escape]

/-- What the lexer makes of one quoted character. -/
theorem scanString_quoteChar (total start : ℕ) {ch : Char} {next : Option Char} {rest : List ℕ}
    (follows : rest.head? = some Ch.lbrace → next = some '{') :
    ∃ buf errors, scanString total start Ch.squote (codes (quoteChar ch next) ++ rest) =
        (scanString total start Ch.squote rest).after buf [] errors ∧
      (errors = [] ↔ ¬ (ch = '\x00' ∧ rest.head?.any Ch.isDigit = true)) ∧
      (errors = [] → buf = (quotedPiece ch next).encode true) := by
  have quoting := quoting_quoteChar ch next
  rw [quotedPiece]
  generalize quoteChar ch next = written at quoting
  cases quoting with
  | @letter e decodes other =>
    have escape : scanStringEscape (total - (rest.length + 2)) e.toNat rest = ⟨pushLiteral ch.toNat, [], [], rest⟩ := by
      simp [scanStringEscape, decodes]
    exact ⟨_, [], scanString_escape total start escape, by simp [other], fun _ => by simp [Piece.encode]⟩
  | nul same =>
    subst same
    cases digit : rest.head?.any Ch.isDigit with
    | true => exact ⟨_, [_], scanString_escape total start (if_pos digit), by simp, by simp⟩
    | false =>
      have alone : ¬ rest.head?.any Ch.isDigit = true := by simp [digit]
      exact ⟨_, [], scanString_escape total start (if_neg alone), by simp, fun _ => rfl⟩
  | code control other =>
    have text : codes ('\\' :: 'u' :: '{' :: Nat.toDigits 16 ch.toNat ++ ['}']) ++ rest =
        Ch.backslash :: Ch.lowerU :: (Ch.lbrace :: codes (Nat.toDigits 16 ch.toNat) ++ Ch.rbrace :: rest) := by
      simp [codes, Ch.backslash, Ch.lowerU, Ch.lbrace, Ch.rbrace]
    have escape := fun o => scanStringEscape_control o (show ch.toNat < 128 by omega) rest
    rw [text]
    exact ⟨_, [], scanString_escape total start (escape _), by simp [other], fun _ => by simp [Piece.encode]⟩
  | bare text inside single other =>
    refine ⟨[ch.toNat], [], ?_, by simp [other], fun _ => by simp [Piece.encode]⟩
    have quote : ch.toNat ≠ Ch.squote := fun same => inside (Char.toNat_inj.mp same)
    have backslash : ch.toNat ≠ Ch.backslash := fun same => text (Char.toNat_inj.mp same)
    have opening : ¬ (ch.toNat = Ch.dollar ∧ rest.head? = some Ch.lbrace) :=
      fun both => single ⟨Char.toNat_inj.mp both.1, follows both.2⟩
    rw [codes, List.map_singleton, List.singleton_append, scanString.eq_def]
    simp only [if_neg quote, if_neg backslash, if_neg opening]

/-! ## Whole strings -/

/-- A quoted character starts with a backslash if it is inert, and else is written as it is. -/
theorem Quoting.head {ch : Char} {next : Option Char} {written : List Char} (quoting : Quoting ch next written) :
    (∃ more, written = '\\' :: more ∧ Inert ch) ∨ written = [ch] ∧ ch ≠ '\'' := by
  cases quoting with
  | letter decodes other inert => exact .inl ⟨_, rfl, inert⟩
  | nul same => exact .inl ⟨_, rfl, same ▸ ⟨by decide, rfl⟩⟩
  | code control other =>
    refine .inl ⟨_, rfl, ?_, ?_⟩
    · rintro rfl
      exact absurd control (by decide)
    · have below : ¬ (Ch.digit0 ≤ ch.toNat ∧ ch.toNat ≤ Ch.digit9) := by
        simp only [Ch.digit0, Ch.digit9]
        omega
      simpa only [Ch.isDigit, Bool.and_eq_false_iff, decide_eq_false_iff_not, ← not_and_or] using below
  | bare text inside => exact .inr ⟨rfl, inside⟩

/-- The first code point behind an opening quote tells whether the next character is a `{`, a digit or none. -/
theorem head_quoteChars (chars : List Char) : ∃ c more, codes (quoteChars chars) ++ [Ch.squote] = c :: more ∧
    (c = Ch.lbrace → chars.head? = some '{') ∧ Ch.isDigit c = (chars.head?.any fun c => Ch.isDigit c.toNat) ∧
    (c = Ch.squote → more = []) := by
  cases chars with
  | nil => exact ⟨Ch.squote, [], rfl, by decide, by decide, fun _ => rfl⟩
  | cons ch rest =>
    rcases (quoting_quoteChar ch rest.head?).head with ⟨more, written, inert⟩ | ⟨written, inside⟩
    · rw [quoteChars, written]
      exact ⟨Ch.backslash, _, rfl, fun same => absurd same (by decide), inert.2.symm, fun same => absurd same (by decide)⟩
    · rw [quoteChars, written]
      refine ⟨ch.toNat, _, rfl, fun brace => ?_, rfl, fun quote => ?_⟩
      · exact congrArg some (Char.toNat_inj.mp brace)
      · exact absurd (Char.toNat_inj.mp quote) inside

theorem regions_quoted (chars : List Char) : (quotedPieces chars).filterMap Piece.region? = [] := by
  induction chars with
  | nil => rfl
  | cons ch rest ih =>
    rw [quotedPieces, quotedPiece]
    split <;> exact ih

/-- The lexer's reading of a quoted string. -/
theorem scanString_quoteChars (total start : ℕ) (chars : List Char) :
    ∃ buf errors, scanString total start Ch.squote (codes (quoteChars chars) ++ [Ch.squote]) = ⟨buf, [], errors, []⟩ ∧
      (errors = [] ↔ chars.IsChain fun a b => ¬ OctalLike a b) ∧
      (errors = [] → buf = (quotedPieces chars).flatMap (Piece.encode true)) := by
  induction chars with
  | nil => exact ⟨[], [], by simp [quoteChars, codes, scanString], by simp, fun _ => rfl⟩
  | cons ch rest ih =>
    obtain ⟨buf, errors, scanned, clean, captured⟩ := ih
    obtain ⟨c, more, behind, follows, digit, -⟩ := head_quoteChars rest
    have head : (codes (quoteChars rest) ++ [Ch.squote]).head? = some c := by rw [behind, List.head?_cons]
    obtain ⟨first, errors', step, here, encoded⟩ :=
      @scanString_quoteChar total start ch rest.head? _ fun brace => follows (Option.some.inj (head.symm.trans brace))
    refine ⟨first ++ buf, errors' ++ errors, ?_, ?_, fun none_ => ?_⟩
    · rw [quoteChars, codes, List.map_append, ← codes, ← codes, List.append_assoc, step, scanned]
      rfl
    · rw [List.append_eq_nil_iff, clean, here, head, Option.any_some, digit]
      cases rest with
      | nil => simp
      | cons next rest => rw [List.isChain_cons_cons, OctalLike, List.head?_cons, Option.any_some]
    · obtain ⟨none_, noMore⟩ := List.append_eq_nil_iff.mp none_
      rw [encoded none_, captured noMore, quotedPieces, List.flatMap_cons]

theorem splittable_quoted (chars : List Char) : Splittable true (quotedPieces chars) := by
  induction chars with
  | nil => trivial
  | cons ch rest ih =>
    rw [quotedPieces, quotedPiece]
    split
    next written =>
      obtain ⟨text, single⟩ : ch ≠ '\\' ∧ ¬ (ch = '$' ∧ rest.head? = some '{') := by
        have quoting := quoting_quoteChar ch rest.head?
        rw [written] at quoting
        cases quoting with
        | bare text inside single => exact ⟨text, single⟩
      refine ⟨fun _ => ⟨fun same => text (Char.toNat_inj.mp same), fun dollar opening => ?_⟩, ih⟩
      refine single ⟨Char.toNat_inj.mp dollar, ?_⟩
      cases rest with
      | nil => cases opening
      | cons next rest =>
        rw [quotedPieces, List.flatMap_cons, quotedPiece] at opening
        split at opening
        next => exact congrArg some (Char.toNat_inj.mp (Option.some.inj opening))
        next =>
          rw [Piece.encode, pushLiteral] at opening
          split at opening
          next => cases opening
          next => exact congrArg some (Char.toNat_inj.mp (Option.some.inj opening))
    next => exact ih

theorem parts_quoted {E D : Type} (sub : SubParser E D) (parent : Region) (buf : List ℕ) (chars : List Char) :
    Piece.parts sub parent buf (quotedPieces chars) = (flushText parent (buf ++ codes chars), []) := by
  induction chars generalizing buf with
  | nil => rw [quotedPieces, Piece.parts, codes, List.map_nil, List.append_nil]
  | cons ch rest ih =>
    rw [quotedPieces, quotedPiece]
    split <;> rw [Piece.parts, ih, codes, codes, List.map_cons, List.append_assoc, List.singleton_append]

theorem scanLiteral_quoteStr (s : String) :
    ∃ buf errors, scanLiteral (quoteStr s).length (codes (quoteStr s).toList) = some ⟨buf, [], errors, []⟩ ∧
      (errors = [] ↔ s.toList.IsChain fun a b => ¬ OctalLike a b) ∧
      (errors = [] → buf = (quotedPieces s.toList).flatMap (Piece.encode true)) := by
  obtain ⟨c, more, behind, -, -, alone⟩ := head_quoteChars s.toList
  have text : codes (quoteStr s).toList = Ch.squote :: (codes (quoteChars s.toList) ++ [Ch.squote]) := by
    rw [quoteStr, String.toList_ofList, codes, List.cons_append, List.map_cons, List.map_append]
    rfl
  have single : ¬ ((c :: more).head? = some Ch.squote ∧ (c :: more).tail.head? = some Ch.squote) := by
    rintro ⟨quote, second⟩
    rw [List.tail_cons, alone (Option.some.inj quote)] at second
    cases second
  obtain ⟨buf, errors, scanned, clean⟩ := scanString_quoteChars (quoteStr s).length
    ((quoteStr s).length - (Ch.squote :: c :: more).length) s.toList
  rw [behind] at text scanned
  refine ⟨buf, errors, ?_, clean⟩
  rw [text, scanLiteral]
  rw [if_pos (show Ch.isQuote Ch.squote = true from rfl), if_neg single, scanned]

/-- The quoted string lexes as one literal without a report, and splitting the literal gives the string's text and no
interpolation. -/
def ReadsBack {E D : Type} (sub : SubParser E D) (parent : Region) (s : String) : Prop :=
  ∃ token, scanLiteral (quoteStr s).length (codes (quoteStr s).toList) = some token ∧ token.rest = [] ∧ token.errors = [] ∧
    splitStringParts sub parent token.buf token.interps = (flushText parent (codes s.toList), [])

/-- A quoted string reads back as itself exactly if it has no NUL before a digit. -/
theorem quoted_reads_back_iff {E D : Type} (sub : SubParser E D) (parent : Region) (s : String) :
    ReadsBack sub parent s ↔ s.toList.IsChain fun a b => ¬ OctalLike a b := by
  obtain ⟨buf, errors, lexed, clean, captured⟩ := scanLiteral_quoteStr s
  rw [ReadsBack, ← clean, lexed]
  constructor
  · rintro ⟨token, same, -, none_, -⟩
    cases same
    exact none_
  · intro none_
    have parts := split_encode sub parent (splittable_quoted s.toList) []
    rw [regions_quoted, parts_quoted, List.nil_append, ← captured none_] at parts
    exact ⟨_, rfl, rfl, none_, parts⟩

/-- The text `NUL 1` is quoted as `'\01'`, which does not lex. -/
theorem quoted_nul_digit_fails : quoteStr "\x001" = "'\\01'" ∧ ¬ ReadsBack echo ⟨0, 5⟩ "\x001" := by
  refine ⟨by decide, ?_⟩
  rintro ⟨token, lexed, -, none_, -⟩
  obtain ⟨buf, errors, same, clean, -⟩ := scanLiteral_quoteStr "\x001"
  rw [same] at lexed
  cases lexed
  exact absurd (clean.mp none_) (by simp [OctalLike]; decide)

end Thera.Frontend
