import Mathlib

/-! # String literals: the lexer's scanners and the parser's splitter

The lexer captures a literal as one value in which `\` and `$` of the text are escaped and every
`${…}` stands verbatim; the parser takes that value apart again. Source text is a list of code
points. A scanner is given the unread rest of the file and says what it appended to the value, where
it recorded interpolations, what it reported and what is left unread; `total` is the length of the
whole file, so a rest determines its offset.
-/

namespace Thera.Frontend

namespace Ch

def nul : ℕ := 0
def bs : ℕ := 8
def tab : ℕ := 9
def lf : ℕ := 10
def vt : ℕ := 11
def ff : ℕ := 12
def cr : ℕ := 13
def space : ℕ := 32
def dquote : ℕ := 34
def dollar : ℕ := 36
def squote : ℕ := 39
def digit0 : ℕ := 48
def digit9 : ℕ := 57
def upperA : ℕ := 65
def backslash : ℕ := 92
def lowerA : ℕ := 97
def lowerB : ℕ := 98
def lowerF : ℕ := 102
def lowerN : ℕ := 110
def lowerR : ℕ := 114
def lowerT : ℕ := 116
def lowerU : ℕ := 117
def lowerV : ℕ := 118
def lowerX : ℕ := 120
def lbrace : ℕ := 123
def rbrace : ℕ := 125

def isDigit (cp : ℕ) : Bool := digit0 ≤ cp && cp ≤ digit9

/-- Space, tab, line feed or carriage return. -/
def isWhitespace (cp : ℕ) : Bool := cp == space || cp == tab || cp == lf || cp == cr

def hexDigitValue (cp : ℕ) : Option ℕ :=
  if isDigit cp then some (cp - digit0)
  else if upperA ≤ cp ∧ cp ≤ upperA + 5 then some (cp - upperA + 10)
  else if lowerA ≤ cp ∧ cp ≤ lowerA + 5 then some (cp - lowerA + 10)
  else none

def isHexDigit (cp : ℕ) : Bool := (hexDigitValue cp).isSome

def isQuote (cp : ℕ) : Bool := cp == squote || cp == dquote

end Ch

/-- A stretch of the file. -/
structure Region where
  offset : ℕ
  length : ℕ
deriving DecidableEq, Repr

/-- A report of the lexer, with the offset it starts at. -/
structure LexError where
  message : String
  offset : ℕ
deriving DecidableEq, Repr

/-- What a scanner did: the code points it appended, the interpolations it recorded, its reports, and
the unread rest. -/
structure Scanned where
  buf : List ℕ
  interps : List Region
  errors : List LexError
  rest : List ℕ
deriving DecidableEq, Repr

/-- What was appended before, then what `next` appended. -/
def Scanned.after (buf : List ℕ) (interps : List Region) (errors : List LexError) (next : Scanned) : Scanned :=
  { next with buf := buf ++ next.buf, interps := interps ++ next.interps, errors := errors ++ next.errors }

/-- Append a decoded code point, re-escaping a literal `\` or `$`. -/
def pushLiteral (cp : ℕ) : List ℕ := if cp = Ch.backslash ∨ cp = Ch.dollar then [Ch.backslash, cp] else [cp]

/-! ## Escapes -/

/-- The escapes that are one letter. -/
def simpleEscape (e : ℕ) : Option ℕ :=
  if e = Ch.lowerN then some Ch.lf
  else if e = Ch.lowerT then some Ch.tab
  else if e = Ch.lowerR then some Ch.cr
  else if e = Ch.lowerB then some Ch.bs
  else if e = Ch.lowerF then some Ch.ff
  else if e = Ch.lowerV then some Ch.vt
  else if e = Ch.backslash then some Ch.backslash
  else if e = Ch.squote then some Ch.squote
  else if e = Ch.dquote then some Ch.dquote
  else if e = Ch.dollar then some Ch.dollar
  else none

/-- Read `count` hex digits onto `value`; `none` if one is missing. -/
def hexDigits : ℕ → ℕ → List ℕ → Option ℕ × List ℕ
  | 0, value, rest => (some value, rest)
  | _ + 1, _, [] => (none, [])
  | count + 1, value, c :: rest =>
      if Ch.isHexDigit c then hexDigits count (value * 16 + (Ch.hexDigitValue c).getD 0) rest
      else (none, c :: rest)

/-- `\xNN`: exactly two hex digits. -/
def scanHexEscape (o : ℕ) (rest : List ℕ) : Scanned :=
  match hexDigits 2 0 rest with
  | (some value, rest) => ⟨pushLiteral value, [], [], rest⟩
  | (none, rest) => ⟨[], [], [⟨"'\\x' needs exactly two hex digits", o⟩], rest⟩

/-- Read hex digits up to a closing brace. -/
def bracedDigits : ℕ → ℕ → List ℕ → Except String (ℕ × ℕ) × List ℕ
  | value, digits, [] => (.ok (value, digits), [])
  | value, digits, c :: rest =>
      if c = Ch.rbrace then (.ok (value, digits), c :: rest)
      else if !Ch.isHexDigit c then (.error "invalid hex digit in '\\u\x7b...\x7d'", c :: rest)
      else if 6 < digits + 1 then (.error "too many hex digits in '\\u\x7b...\x7d' (max 6)", c :: rest)
      else bracedDigits (value * 16 + (Ch.hexDigitValue c).getD 0) (digits + 1) rest

/-- Not a Unicode scalar value: a surrogate, or out of range. -/
def notScalar (value : ℕ) : Bool := 0x10ffff < value || (0xd800 ≤ value && value ≤ 0xdfff)

/-- `\u{…}`: one to six hex digits in braces, naming a Unicode scalar value. -/
def scanUnicodeEscape (o : ℕ) (rest : List ℕ) : Scanned :=
  if rest.head? ≠ some Ch.lbrace then ⟨[], [], [⟨"'\\u' must be followed by '\x7b...\x7d'", o⟩], rest⟩
  else
    match bracedDigits 0 0 rest.tail with
    | (.error message, rest) => ⟨[], [], [⟨message, o⟩], rest⟩
    | (.ok (value, digits), rest) =>
        if rest = [] ∨ digits = 0 then ⟨[], [], [⟨"empty or unterminated '\\u\x7b...\x7d' escape", o⟩], rest⟩
        else if notScalar value then
          ⟨[], [], [⟨"invalid Unicode scalar value in '\\u\x7b...\x7d'", o⟩], rest.tail⟩
        else ⟨pushLiteral value, [], [], rest.tail⟩

/-- Decode one escape; the backslash at offset `o` is consumed, `e` is the escape character. -/
def scanStringEscape (o : ℕ) (e : ℕ) (rest : List ℕ) : Scanned :=
  match simpleEscape e with
  | some c => ⟨pushLiteral c, [], [], rest⟩
  | none =>
      if e = Ch.digit0 then
        if rest.head?.any Ch.isDigit then
          ⟨[], [], [⟨"'\\0' is NUL, not an octal escape; use '\\xNN' for a byte", o⟩], rest⟩
        else ⟨pushLiteral Ch.nul, [], [], rest⟩
      else if e = Ch.lowerX then scanHexEscape o rest
      else if e = Ch.lowerU then scanUnicodeEscape o rest
      else
        ⟨pushLiteral e, [],
          [⟨"unknown escape sequence: '\\" ++ String.ofList [Char.ofNat e] ++ "'", o⟩], rest⟩

/-! ## Interpolations -/

/-- Copy the rest of a nested string literal, its closing quote included. -/
def copyNested (quote : ℕ) : List ℕ → List ℕ × List ℕ
  | [] => ([], [])
  | c :: rest =>
      if c = quote then ([c], rest)
      else if c = Ch.backslash then
        match rest with
        | [] => ([c], [])
        | e :: rest =>
            let (copied, rest) := copyNested quote rest
            (c :: e :: copied, rest)
      else
        let (copied, rest) := copyNested quote rest
        (c :: copied, rest)

/-- The brace depth after a character outside nested literals. -/
def depthAfter (depth c : ℕ) : ℕ :=
  if c = Ch.lbrace then depth + 1 else if c = Ch.rbrace then depth - 1 else depth

theorem length_copyNested (quote : ℕ) (rest : List ℕ) : (copyNested quote rest).2.length ≤ rest.length := by
  fun_induction copyNested quote rest with grind

/-- Copy an interpolation from brace depth `depth` until it closes; returns the copy, the depth left
open and the rest. -/
def copyInterpolation (depth : ℕ) : List ℕ → List ℕ × ℕ × List ℕ
  | [] => ([], depth, [])
  | c :: rest =>
      if depth = 0 then ([], 0, c :: rest)
      else if Ch.isQuote c then
        let nested := copyNested c rest
        let (copied, left, after) := copyInterpolation depth nested.2
        (c :: nested.1 ++ copied, left, after)
      else
        let (copied, left, after) := copyInterpolation (depthAfter depth c) rest
        (c :: copied, left, after)
termination_by rest => rest.length
decreasing_by
  · exact Nat.lt_succ_of_le (length_copyNested c rest)
  · exact Nat.lt_succ_self _

theorem length_copyInterpolation (depth : ℕ) (rest : List ℕ) :
    (copyInterpolation depth rest).2.2.length ≤ rest.length := by
  fun_induction copyInterpolation depth rest with grind [length_copyNested]

/-- Capture `${…}`, whose `${` precedes `rest`, and record where its expression stands. -/
def scanInterpolation (total : ℕ) (rest : List ℕ) : Scanned :=
  let (copied, depth, after) := copyInterpolation 1 rest
  let stop := if depth = 0 then total - after.length - 1 else total - after.length
  ⟨Ch.dollar :: Ch.lbrace :: copied, [⟨total - rest.length, stop - (total - rest.length)⟩], [], after⟩

theorem length_scanInterpolation (total : ℕ) (rest : List ℕ) :
    (scanInterpolation total rest).rest.length ≤ rest.length := length_copyInterpolation 1 rest

theorem length_hexDigits (count value : ℕ) (rest : List ℕ) : (hexDigits count value rest).2.length ≤ rest.length := by
  fun_induction hexDigits count value rest with grind

theorem length_bracedDigits (value digits : ℕ) (rest : List ℕ) :
    (bracedDigits value digits rest).2.length ≤ rest.length := by
  fun_induction bracedDigits value digits rest with grind

theorem length_scanStringEscape (o e : ℕ) (rest : List ℕ) :
    (scanStringEscape o e rest).rest.length ≤ rest.length := by
  have hex := length_hexDigits 2 0 rest
  have braced := length_bracedDigits 0 0 rest.tail
  simp only [scanStringEscape, scanHexEscape, scanUnicodeEscape]
  grind

/-! ## Literals -/

/-- An ordinary string, its opening quote at offset `start` consumed. -/
def scanString (total start quote : ℕ) : List ℕ → Scanned
  | [] => ⟨[], [], [⟨"unterminated string literal", start⟩], []⟩
  | c :: rest =>
      if c = quote then ⟨[], [], [], rest⟩
      else if c = Ch.backslash then
        match rest with
        | [] => ⟨[], [], [⟨"unterminated string literal", start⟩], []⟩
        | e :: rest =>
            let escape := scanStringEscape (total - (rest.length + 2)) e rest
            (scanString total start quote escape.rest).after escape.buf [] escape.errors
      else if c = Ch.dollar ∧ rest.head? = some Ch.lbrace then
        let interp := scanInterpolation total rest.tail
        (scanString total start quote interp.rest).after interp.buf interp.interps []
      else (scanString total start quote rest).after [c] [] []
termination_by rest => rest.length
decreasing_by
  · have := length_scanStringEscape (total - (rest.length + 2)) e rest
    simp only [List.length_cons]
    omega
  · have := length_scanInterpolation total rest.tail
    simp only [List.length_cons, List.length_tail] at *
    omega
  · exact Nat.lt_succ_self _

/-- A raw string, its opening quote consumed: no escapes and no interpolations. -/
def scanRawString (start quote : ℕ) : List ℕ → Scanned
  | [] => ⟨[], [], [⟨"unterminated raw string literal", start⟩], []⟩
  | c :: rest =>
      if c = quote then ⟨[], [], [], rest⟩
      else (scanRawString start quote rest).after (pushLiteral c) [] []

/-- One line of a text block: its leading whitespace, the captured rest, and how much of that is kept
when incidental trailing whitespace goes. -/
structure TextLine where
  ws : List ℕ
  text : List ℕ
  keep : ℕ
deriving DecidableEq, Repr

/-- A text block before the dedent: the finished lines, the line the delimiter was met on, and whether
it was met. -/
structure TextBlock where
  lines : List TextLine
  cur : TextLine
  closed : Bool
  interps : List Region
  errors : List LexError
  rest : List ℕ
deriving DecidableEq, Repr

def TextBlock.after (interps : List Region) (errors : List LexError) (next : TextBlock) : TextBlock :=
  { next with interps := interps ++ next.interps, errors := errors ++ next.errors }

/-- Append decoded text that is never incidental. -/
def TextLine.decoded (line : TextLine) (text : List ℕ) : TextLine :=
  { line with text := line.text ++ text, keep := (line.text ++ text).length }

/-- Append a plain character; whitespace is not kept until something follows it. -/
def TextLine.plain (line : TextLine) (c : ℕ) : TextLine :=
  let text := line.text ++ pushLiteral c
  { line with text, keep := if Ch.isWhitespace c then line.keep else text.length }

def TextLine.empty : TextLine := ⟨[], [], 0⟩

/-- Read the lines of a text block up to three quotes. -/
def scanTextLines (total quote : ℕ) (lines : List TextLine) (cur : TextLine) (inIndent : Bool) :
    List ℕ → TextBlock
  | [] => ⟨lines, cur, false, [], [], []⟩
  | c :: rest =>
      if c = quote ∧ rest.head? = some quote ∧ rest.tail.head? = some quote then
        ⟨lines, cur, true, [], [], rest.tail.tail⟩
      else if c = Ch.lf then scanTextLines total quote (lines ++ [cur]) TextLine.empty true rest
      else if inIndent ∧ (c = Ch.space ∨ c = Ch.tab) then
        scanTextLines total quote lines { cur with ws := cur.ws ++ [c] } true rest
      else if c = Ch.backslash then
        match rest with
        | [] => scanTextLines total quote lines (cur.decoded []) false []
        | e :: rest =>
            let escape := scanStringEscape (total - (rest.length + 2)) e rest
            (scanTextLines total quote lines (cur.decoded escape.buf) false escape.rest).after [] escape.errors
      else if c = Ch.dollar ∧ rest.head? = some Ch.lbrace then
        let interp := scanInterpolation total rest.tail
        (scanTextLines total quote lines (cur.decoded interp.buf) false interp.rest).after interp.interps []
      else scanTextLines total quote lines (cur.plain c) false rest
termination_by rest => rest.length
decreasing_by
  all_goals simp only [List.length_cons, List.length_nil]
  all_goals first
    | omega
    | (have shrinks := length_scanStringEscape (total - (rest.length + 2)) e rest; omega)
    | (have shrinks := length_scanInterpolation total rest.tail; simp only [List.length_tail] at shrinks; omega)

/-- The smallest indentation among lines that are not blank, or `none`. -/
def leastIndent (margin : Option ℕ) (lines : List TextLine) : Option ℕ :=
  lines.foldl (fun margin line =>
    if 0 < line.keep ∧ margin.all (line.ws.length < ·) then some line.ws.length else margin) margin

/-- The value of a line once `margin` is stripped; a blank line emits nothing. -/
def TextLine.value (margin : ℕ) (line : TextLine) : List ℕ :=
  if 0 < line.keep then line.ws.drop margin ++ line.text.take line.keep else []

/-- The value of a text block: its lines without the margin, a line feed between them, and a final
one when the delimiter has a line to itself. -/
def TextBlock.value (block : TextBlock) : List ℕ :=
  let ownLine := block.closed && block.cur.keep == 0
  let lines := if ownLine then block.lines else block.lines ++ [block.cur]
  let margin := leastIndent none lines
  let margin := if ownLine ∧ margin.all (block.cur.ws.length < ·) then some block.cur.ws.length else margin
  List.intercalate [Ch.lf] (lines.map (TextLine.value (margin.getD 0))) ++
    (if ownLine ∧ 0 < lines.length then [Ch.lf] else [])

/-- A text block, its three opening quotes consumed. -/
def scanTextBlock (total start quote : ℕ) (rest : List ℕ) : Scanned :=
  let rest := rest.dropWhile fun c => c ≠ Ch.lf ∧ Ch.isWhitespace c
  let opened := rest.head? == some Ch.lf
  let block := scanTextLines total quote [] TextLine.empty true (if opened then rest.tail else rest)
  ⟨block.value, block.interps,
    (if opened then [] else [⟨"a text block's content starts on the line after '''", start⟩]) ++ block.errors ++
      (if block.closed then [] else [⟨"unterminated text block", start⟩]), block.rest⟩

/-- Scan the literal that starts at the unread rest, if one does. -/
def scanLiteral (total : ℕ) (source : List ℕ) : Option Scanned :=
  let start := total - source.length
  match source with
  | [] => none
  | c :: rest =>
      if Ch.isQuote c then
        if rest.head? = some c ∧ rest.tail.head? = some c then some (scanTextBlock total start c rest.tail.tail)
        else some (scanString total start c rest)
      else if c = Ch.lowerR then
        match rest with
        | q :: rest =>
            if Ch.isQuote q then
              some ((scanRawString start q rest).after [] []
                (if rest.head? = some q ∧ rest.tail.head? = some q then
                  [⟨"a raw text block is not supported; use a text block or r'…'", start⟩] else []))
            else none
        | [] => none
      else none

/-! ## The splitter -/

/-- A part of a string expression. -/
inductive StringPart (E : Type) where
  | text (span : Region) (value : List ℕ)
  | interp (span : Region) (expr : E)
deriving DecidableEq, Repr

/-- Lexing and parsing an interpolated expression at its region of the file. -/
structure SubParser (E D : Type) where
  /-- How many tokens the source has, the final `Eof` included. -/
  tokenCount : List ℕ → ℕ
  lexErrors : List ℕ → Region → List D
  expr : List ℕ → Region → E
  /-- The parse errors, unconsumed trailing tokens included. -/
  parseErrors : List ℕ → Region → List D
  emptyInterpolation : Region → D

/-- How far the index moves over the rest of a nested literal. -/
def skipNested (quote : ℕ) : List ℕ → ℕ
  | [] => 1
  | c :: rest =>
      if c = quote then 1
      else if c = Ch.backslash then
        match rest with
        | [] => 3
        | _ :: rest => 2 + skipNested quote rest
      else 1 + skipNested quote rest

/-- How far the index moves until an interpolation at brace depth `depth` closes. -/
def skipInterpolation (depth : ℕ) : List ℕ → ℕ
  | [] => 0
  | c :: rest =>
      if depth = 0 then 0
      else if Ch.isQuote c then
        let moved := skipNested c rest
        1 + moved + skipInterpolation depth (rest.drop moved)
      else 1 + skipInterpolation (depthAfter depth c) rest
termination_by rest => rest.length
decreasing_by
  · simp only [List.length_drop, List.length_cons]
    omega
  · exact Nat.lt_succ_self _

section

variable {E D : Type} (sub : SubParser E D) (parent : Region)

def flushText (buf : List ℕ) : List (StringPart E) := if buf.length ≠ 0 then [.text parent buf] else []

/-- The part an interpolated expression becomes; an empty one is reported. -/
def interpPart (region : Region) (source : List ℕ) : StringPart E × List D :=
  if 1 < sub.tokenCount source then
    (.interp region (sub.expr source region), sub.lexErrors source region ++ sub.parseErrors source region)
  else (.text region [], sub.lexErrors source region ++ [sub.emptyInterpolation region])

/-- Split a captured value, `buf` being the text gathered since the last part. -/
def splitFrom (interps : List Region) (buf : List ℕ) : List ℕ → List (StringPart E) × List D
  | [] => (flushText parent buf, [])
  | [c] => (flushText parent (buf ++ [c]), [])
  | c :: d :: rest =>
      if c = Ch.backslash then splitFrom interps (buf ++ [d]) rest
      else if c = Ch.dollar ∧ d = Ch.lbrace then
        let region := interps.headD parent
        let moved := skipInterpolation 1 rest
        let (part, errors) := interpPart sub region (rest.take (moved - 1))
        let (parts, others) := splitFrom interps.tail [] (rest.drop moved)
        (flushText parent buf ++ part :: parts, errors ++ others)
      else splitFrom interps (buf ++ [c]) (d :: rest)
termination_by rest => rest.length
decreasing_by
  all_goals simp only [List.length_drop, List.length_cons]
  all_goals omega

def splitStringParts (value : List ℕ) (interps : List Region) : List (StringPart E) × List D :=
  splitFrom sub parent interps [] value

end

end Thera.Frontend
