import Thera.Model.Sdk.TomlTables

/-! # TOML

The scanner and the recursive-descent parser of `std.toml`. Reading a line and building the document alternate; the
loops over lines and over the pairs of an inline table take how a value is read and what is done with each line or
pair as arguments.
-/

namespace Thera.Sdk.TomlFormat

/-! ## Characters -/

def isLower (cp : ℤ) : Bool := cp ≥ 97 && cp ≤ 122

def isAlpha (cp : ℤ) : Bool := isUpper cp || isLower cp

def isAlphanumeric (cp : ℤ) : Bool := isAlpha cp || isDigit cp

def hexDigitValue (cp : ℤ) : Option ℤ :=
  if isDigit cp then some (cp - 48)
  else if cp ≥ 65 ∧ cp ≤ 70 then some (cp - 65 + 10)
  else if cp ≥ 97 ∧ cp ≤ 102 then some (cp - 97 + 10)
  else none

/-- Space and tab. -/
def isInlineSpace (cp : ℤ) : Bool := cp = 32 || cp = 9

def isBareKeyChar (c : ℤ) : Bool := isAlphanumeric c || c = 95 || c = 45

/-- A control character other than tab. -/
def isForbiddenStringChar (c : ℤ) : Bool := (c < 32 && c ≠ 9) || c = 127

/-! ## Scanning -/

section

variable (chars : List ℤ)

/-- The code point at an index, or `-1` out of range. -/
def cpAt (i : ℕ) : ℤ := chars.getD i (-1)

/-- The code point at an offset from the current position. -/
def cpAhead (n : ℕ) : Scan ℤ := do return cpAt chars ((← get) + n)

def skipInlineWs : Scan Unit := skipWhile chars isInlineSpace (chars.length + 1)

def matchLiteral (literal : List Char) : Scan Bool := do
  let pos ← get
  if (codePoints literal).zipIdx.all fun want => cpAt chars (pos + want.2) = want.1 then
    advance literal.length
    return true
  else return false

/-- One newline: LF, or CRLF. -/
def expectNewline : Scan Unit := do
  let c ← peek chars
  if c = 10 then advance 1
  else if c = 13 then
    if (← cpAhead chars 1) = 10 then advance 2
    else fail chars "bare carriage return"
  else fail chars "expected a newline"

/-- The characters of a comment. -/
def commentLoop : ℕ → Scan Unit
  | 0 => throw .unfinished
  | fuel + 1 => do
      let c ← peek chars
      if c = -1 ∨ c = 10 ∨ c = 13 then pure ()
      else if c = 9 ∨ (c ≥ 32 ∧ c ≠ 127) then
        advance 1
        commentLoop fuel
      else fail chars "control character in comment"

def skipComment : Scan Unit := do
  advance 1
  commentLoop chars (chars.length + 1)

/-- White space and a comment, if they are there. -/
def skipTrailing : Scan Unit := do
  skipInlineWs chars
  if (← peek chars) = 35 then skipComment chars else pure ()

/-- White space and a comment, then a newline or the end of the input. -/
def expectLineEnd : Scan Unit := do
  skipTrailing chars
  if (← peek chars) = -1 then pure () else expectNewline chars

/-! ## Strings -/

/-- So many hexadecimal digits, after a value read so far. -/
def unicodeDigits (value : ℤ) : ℕ → Scan ℤ
  | 0 => return value
  | n + 1 => do
      match hexDigitValue (← peek chars) with
      | some d =>
          advance 1
          unicodeDigits (value * 16 + d) n
      | none => fail chars "invalid hex digit in unicode escape"

def parseUnicodeEscape (digits : ℕ) : Scan ℤ := do
  let value ← unicodeDigits chars 0 digits
  if (value ≥ 55296 ∧ value ≤ 57343) ∨ value > 1114111 then fail chars "escape is not a unicode scalar value"
  else return value

/-- One escape, after its backslash. -/
def parseEscape : Scan ℤ := do
  let e ← peek chars
  if e = -1 then fail chars "unterminated escape"
  else
    advance 1
    if e = 34 then return 34
    else if e = 92 then return 92
    else if e = 98 then return 8
    else if e = 102 then return 12
    else if e = 110 then return 10
    else if e = 114 then return 13
    else if e = 116 then return 9
    else if e = 117 then parseUnicodeEscape chars 4
    else if e = 85 then parseUnicodeEscape chars 8
    else fail chars "invalid escape"

/-- The rest of a string on one line, up to its quote; only a basic string has escapes. -/
def stringLoop (quote : ℤ) (escapes : Bool) (out : List ℤ) : ℕ → Scan (List ℤ)
  | 0 => throw .unfinished
  | fuel + 1 => do
      let c ← peek chars
      if c = -1 ∨ c = 10 ∨ c = 13 then fail chars "unterminated string"
      else
        advance 1
        if c = quote then return out
        else if escapes = true ∧ c = 92 then
          let e ← parseEscape chars
          stringLoop quote escapes (out ++ [e]) fuel
        else if isForbiddenStringChar c then fail chars "control character in string"
        else stringLoop quote escapes (out ++ [c]) fuel

def parseBasicString : Scan (List Char) := do
  advance 1
  return (← stringLoop chars 34 true [] (chars.length + 1)).map charOf

def parseLiteralString : Scan (List Char) := do
  advance 1
  return (← stringLoop chars 39 false [] (chars.length + 1)).map charOf

def trimLeadingNewline : Scan Unit := do
  let c ← peek chars
  if c = 10 ∨ c = 13 then expectNewline chars else pure ()

/-- How many quotes start at the current position. -/
def quotesAhead (quote : ℤ) : Scan ℕ := do return ((chars.drop (← get)).takeWhile (· = quote)).length

/-- The end of a multi-line string: up to two quotes before the last three belong to it. -/
def closeMlDelimiter (quote : ℤ) (out : List ℤ) : Scan (List ℤ) := do
  let run ← quotesAhead chars quote
  if run > 5 then fail chars "too many quotes in multiline string"
  else
    advance run
    return out ++ List.replicate (run - 3) quote

/-- Only white space up to the end of the line? -/
def atLineEndingBackslash : Scan Bool := do
  let after := (chars.drop (← get)).dropWhile isInlineSpace
  return cpAt after 0 = 10 || cpAt after 0 = 13

def escapedWhitespaceLoop : ℕ → Scan Unit
  | 0 => throw .unfinished
  | fuel + 1 => do
      let c ← peek chars
      if isInlineSpace c then
        advance 1
        escapedWhitespaceLoop fuel
      else if c = 10 ∨ c = 13 then
        expectNewline chars
        escapedWhitespaceLoop fuel
      else pure ()

def skipEscapedWhitespace : Scan Unit := escapedWhitespaceLoop chars (chars.length + 1)

/-- The rest of a multi-line string; only a basic string has escapes. -/
def mlStringLoop (quote : ℤ) (escapes : Bool) (out : List ℤ) : ℕ → Scan (List ℤ)
  | 0 => throw .unfinished
  | fuel + 1 => do
      let c ← peek chars
      let ahead ← quotesAhead chars quote
      if c = -1 then fail chars "unterminated multiline string"
      else if c = quote ∧ ahead ≥ 3 then closeMlDelimiter chars quote out
      else if escapes = true ∧ c = 92 then
        advance 1
        if ← atLineEndingBackslash chars then
          skipEscapedWhitespace chars
          mlStringLoop quote escapes out fuel
        else
          let e ← parseEscape chars
          mlStringLoop quote escapes (out ++ [e]) fuel
      else if c = 10 then
        advance 1
        mlStringLoop quote escapes (out ++ [10]) fuel
      else if c = 13 then
        expectNewline chars
        mlStringLoop quote escapes (out ++ [10]) fuel
      else if isForbiddenStringChar c then fail chars "control character in string"
      else
        advance 1
        mlStringLoop quote escapes (out ++ [c]) fuel

def parseMlString (quote : ℤ) (escapes : Bool) : Scan (List Char) := do
  advance 3
  trimLeadingNewline chars
  return (← mlStringLoop chars quote escapes [] (chars.length + 1)).map charOf

def parseMlBasicString : Scan (List Char) := parseMlString chars 34 true

def parseMlLiteralString : Scan (List Char) := parseMlString chars 39 false

/-! ## Keys -/

def parseBareKey : Scan Key := do
  let start ← get
  skipWhile chars isBareKeyChar (chars.length + 1)
  let stop ← get
  return ((chars.drop start).take (stop - start)).map charOf

/-- One segment of a key, bare or quoted. -/
def parseSegment : Scan Key := do
  let c ← peek chars
  if c = 34 then parseBasicString chars
  else if c = 39 then parseLiteralString chars
  else if isBareKeyChar c then parseBareKey chars
  else fail chars "expected a key"

def keyLoop (segs : List Key) : ℕ → Scan (List Key)
  | 0 => throw .unfinished
  | fuel + 1 => do
      skipInlineWs chars
      let seg ← parseSegment chars
      skipInlineWs chars
      if (← peek chars) = 46 then
        advance 1
        keyLoop (segs ++ [seg]) fuel
      else return segs ++ [seg]

/-- A key: segments separated by dots. -/
def parseKey : Scan (List Key) := keyLoop chars [] (chars.length + 1)

/-! ## Dates and times -/

/-- So many digits, after a value and a text read so far. -/
def fixedDigits (value : ℤ) (out : List ℤ) : ℕ → Scan (ℤ × List ℤ)
  | 0 => return (value, out)
  | n + 1 => do
      let c ← peek chars
      if isDigit c then
        advance 1
        fixedDigits (value * 10 + (c - 48)) (out ++ [c]) n
      else fail chars "expected a digit in date-time"

def readFixedDigits (n : ℕ) (out : List ℤ) : Scan (ℤ × List ℤ) := fixedDigits chars 0 out n

def expectCp (cp : ℤ) (out : List ℤ) : Scan (List ℤ) := do
  if (← peek chars) = cp then
    advance 1
    return out ++ [cp]
  else fail chars "malformed date-time"

def daysInMonth (year month : ℤ) : ℤ :=
  if month = 2 then
    if year % 4 = 0 ∧ (year % 100 ≠ 0 ∨ year % 400 = 0) then 29 else 28
  else if month = 4 ∨ month = 6 ∨ month = 9 ∨ month = 11 then 30
  else 31

def parseDate (out : List ℤ) : Scan (List ℤ) := do
  let (year, out) ← readFixedDigits chars 4 out
  let out ← expectCp chars 45 out
  let (month, out) ← readFixedDigits chars 2 out
  let out ← expectCp chars 45 out
  let (day, out) ← readFixedDigits chars 2 out
  if month < 1 ∨ month > 12 then fail chars "month out of range in date-time"
  else if day < 1 ∨ day > daysInMonth year month then fail chars "day out of range in date-time"
  else return out

/-- The digits of a fraction of a second. -/
def fractionDigits (out : List ℤ) : Scan (List ℤ) := do
  let start ← get
  skipWhile chars isDigit (chars.length + 1)
  let stop ← get
  return out ++ (chars.drop start).take (stop - start)

def parseTime (out : List ℤ) : Scan (List ℤ) := do
  let (hour, out) ← readFixedDigits chars 2 out
  let out ← expectCp chars 58 out
  let (minute, out) ← readFixedDigits chars 2 out
  let out ← expectCp chars 58 out
  let (second, out) ← readFixedDigits chars 2 out
  if hour > 23 then fail chars "hour out of range in date-time"
  else if minute > 59 then fail chars "minute out of range in date-time"
  else if second > 60 then fail chars "second out of range in date-time"
  else if (← peek chars) = 46 then
    let out ← expectCp chars 46 out
    if isDigit (← peek chars) then fractionDigits chars out
    else fail chars "expected a digit after . in date-time"
  else return out

/-- The offset behind a time, if there is one. -/
def parseOffset (out : List ℤ) : Scan (DatetimeKind × List ℤ) := do
  let c ← peek chars
  if c = 90 ∨ c = 122 then
    advance 1
    return (.offsetDateTime, out ++ [90])
  else if c = 43 ∨ c = 45 then
    advance 1
    let (oh, out) ← readFixedDigits chars 2 (out ++ [c])
    let out ← expectCp chars 58 out
    let (om, out) ← readFixedDigits chars 2 out
    if oh > 23 ∨ om > 59 then fail chars "offset out of range in date-time"
    else return (.offsetDateTime, out)
  else return (.localDateTime, out)

/-- Does a time follow the date, behind a delimiter? -/
def timeFollows : Scan Bool := do
  let c ← peek chars
  let spaced := c = 32 && isDigit (← cpAhead chars 1) && isDigit (← cpAhead chars 2) && (← cpAhead chars 3) = 58
  return c = 84 || c = 116 || spaced

def parseDatetime (withDate : Bool) : Scan Datetime := do
  if withDate then
    let out ← parseDate chars []
    if ← timeFollows chars then
      advance 1
      let out ← parseTime chars (out ++ [84])
      let (kind, out) ← parseOffset chars out
      return ⟨kind, out.map charOf⟩
    else return ⟨.localDate, out.map charOf⟩
  else
    let out ← parseTime chars []
    return ⟨.localTime, out.map charOf⟩

/-! ## Numbers -/

def digitLoop (out : List ℤ) : ℕ → Scan (List ℤ)
  | 0 => throw .unfinished
  | fuel + 1 => do
      let c ← peek chars
      if isDigit c then
        advance 1
        digitLoop (out ++ [c]) fuel
      else if c = 95 then
        advance 1
        if isDigit (← peek chars) then digitLoop out fuel
        else fail chars "an underscore must sit between digits"
      else return out

/-- Digits with underscores between them, which are left out. -/
def digitRun : Scan (List ℤ) := do
  if isDigit (← peek chars) then digitLoop chars [] (chars.length + 1)
  else fail chars "expected a digit"

/-- Does a run of digits exceed the range of its sign? -/
def exceedsI64 (digits : List ℤ) (negative : Bool) : Bool :=
  let limit := codePoints (if negative then "9223372036854775808" else "9223372036854775807").toList
  if digits.length ≠ limit.length then digits.length > limit.length
  else match (digits.zip limit).find? fun pair => pair.1 ≠ pair.2 with
    | some (digit, bound) => digit > bound
    | none => false

/-- The value of a digit of the base. -/
def radixDigit (base : ℤ) (c : ℤ) : Option ℤ := (hexDigitValue c).filter fun d => d < base

def radixLoop (base : ℤ) (digits : List ℤ) : ℕ → Scan (List ℤ)
  | 0 => throw .unfinished
  | fuel + 1 => do
      let c ← peek chars
      match radixDigit base c with
      | some d =>
          advance 1
          radixLoop base (digits ++ [d]) fuel
      | none =>
          if c = 95 ∧ digits ≠ [] then
            advance 1
            if (radixDigit base (← peek chars)).isSome then radixLoop base digits fuel
            else fail chars "an underscore must sit between digits"
          else return digits

/-- The digits without leading zeros; the last one stays. -/
def significantDigits : List ℤ → List ℤ
  | 0 :: d :: rest => significantDigits (d :: rest)
  | digits => digits

/-- Too many significant digits for 64 bits? -/
def radixOver (base : ℤ) (significant : List ℤ) : Bool :=
  if base = 16 then significant.length > 16 || (significant.length = 16 && significant.getD 0 0 > 7)
  else if base = 8 then significant.length > 21
  else significant.length > 63

/-- `value * base + d`, digit by digit, in 64-bit arithmetic. -/
def radixValue (base : ℤ) (digits : List ℤ) : I64 := digits.foldl (fun value d => wrapI64 (value.1 * base + d)) ⟨0, zero_inRange⟩

def parseRadixInt (base : ℤ) : Scan I64 := do
  advance 2
  let digits ← radixLoop chars base [] (chars.length + 1)
  if digits = [] then fail chars "expected a digit"
  else if radixOver base (significantDigits digits) then fail chars "integer is out of range"
  else return radixValue base (significantDigits digits)

/-- The doubles that have no digits, and the rounding of a decimal. -/
structure Doubles (D : Type) where
  round : List ℤ → D
  infinity : D
  negInfinity : D
  nan : D

variable {D : Type} (doubles : Doubles D)

/-- The fraction of a decimal, with its point, if there is one. -/
def decimalFraction : Scan (List ℤ) := do
  if (← peek chars) = 46 then
    advance 1
    return 46 :: (← digitRun chars)
  else return []

/-- The exponent of a decimal, if there is one. -/
def decimalExponent : Scan (List ℤ) := do
  let c ← peek chars
  if c = 101 ∨ c = 69 then
    advance 1
    let s ← peek chars
    if s = 43 ∨ s = 45 then
      advance 1
      return 101 :: s :: (← digitRun chars)
    else return 101 :: (← digitRun chars)
  else return []

def parseDecimal (negative : Bool) : Scan (Scalar D) := do
  let intDigits ← digitRun chars
  if intDigits.length > 1 ∧ intDigits.getD 0 0 = 48 then fail chars "number cannot have a leading zero"
  else
    let fraction ← decimalFraction chars
    let exponent ← decimalExponent chars
    let token := (if negative then [45] else []) ++ intDigits ++ fraction ++ exponent
    if fraction ≠ [] ∨ exponent ≠ [] then
      match toDouble doubles.round token with
      | some x => return .double x
      | none => fail chars "invalid number"
    else if exceedsI64 intDigits negative then fail chars "integer is out of range"
    else match toInt token with
      | some n => return .int n
      | none => fail chars "invalid number"

/-- The base that the marker of a prefixed integer names. -/
def radixMarker (marker : ℤ) : Option ℤ :=
  if marker = 120 then some 16 else if marker = 111 then some 8 else if marker = 98 then some 2 else none

def parseNumber : Scan (Scalar D) := do
  let c ← peek chars
  let negative := c = 45
  let signed := c = 43 || c = 45
  advance (if signed then 1 else 0)
  if ← matchLiteral chars "inf".toList then return .double (if negative then doubles.negInfinity else doubles.infinity)
  else if ← matchLiteral chars "nan".toList then return .double doubles.nan
  else
    let zero ← peek chars
    let marker ← cpAhead chars 1
    match if !signed && zero = 48 then radixMarker marker else none with
    | some base => return .int (← parseRadixInt chars base)
    | none => parseDecimal chars doubles negative

/-- A number, unless the text spells a date or a time. -/
def parseNumberOrDatetime : Scan (Scalar D) := do
  let c ← peek chars
  let date := isDigit (← cpAhead chars 1) && isDigit (← cpAhead chars 2) && isDigit (← cpAhead chars 3) &&
    (← cpAhead chars 4) = 45
  let time := isDigit (← cpAhead chars 1) && (← cpAhead chars 2) = 58
  if isDigit c && date then return .datetime (← parseDatetime chars true)
  else if isDigit c && time then return .datetime (← parseDatetime chars false)
  else parseNumber chars doubles

/-! ## Values -/

def arrayTriviaLoop : ℕ → Scan Unit
  | 0 => throw .unfinished
  | fuel + 1 => do
      let c ← peek chars
      if isInlineSpace c then
        advance 1
        arrayTriviaLoop fuel
      else if c = 35 then
        skipComment chars
        arrayTriviaLoop fuel
      else if c = 10 ∨ c = 13 then
        expectNewline chars
        arrayTriviaLoop fuel
      else pure ()

def skipArrayTrivia : Scan Unit := arrayTriviaLoop chars (chars.length + 1)

/-- Go on, or report a fault of building at the current position. -/
def building {A : Type} : Build A → Scan A
  | .ok a => return a
  | .error (.report message) => fail chars message
  | .error .outOfRange => throw .outOfRange

/-- A string, basic or literal, on one line or more. -/
def parseStringValue (quote : ℤ) : Scan (List Char) := do
  if (← cpAhead chars 1) = quote ∧ (← cpAhead chars 2) = quote then
    if quote = 34 then parseMlBasicString chars else parseMlLiteralString chars
  else if quote = 34 then parseBasicString chars
  else parseLiteralString chars

/-- The last choices of a value, `c` being the next code point. -/
def parseScalar (c : ℤ) : Scan (Scalar D) := do
  if ← matchLiteral chars "true".toList then return .bool true
  else if ← matchLiteral chars "false".toList then return .bool false
  else if c = 43 ∨ c = 45 ∨ c = 105 ∨ c = 110 ∨ isDigit c then parseNumberOrDatetime chars doubles
  else if c = -1 then fail chars "unexpected end of input"
  else fail chars "expected a value"

/-- The pairs of an inline table, the value read by `value` and each pair added by `add`. -/
def pairsLoop {S V : Type} (value : Scan V) (add : S → List Key → V → Build S) (s : S) : ℕ → Scan S
  | 0 => throw .unfinished
  | fuel + 1 => do
      let path ← parseKey chars
      if (← peek chars) ≠ 61 then fail chars "expected = after key"
      else
        advance 1
        skipInlineWs chars
        let v ← value
        let s ← building chars (add s path v)
        skipInlineWs chars
        let c ← peek chars
        if c = 44 then
          advance 1
          pairsLoop value add s fuel
        else if c = 125 then
          advance 1
          return s
        else fail chars "expected , or \x7d in inline table"

/-- The pairs of an inline table in braces. -/
def inlinePairs {S V : Type} (value : Scan V) (add : S → List Key → V → Build S) (empty : S) : Scan S := do
  advance 1
  skipInlineWs chars
  if (← peek chars) = 125 then
    advance 1
    return empty
  else pairsLoop chars value add empty (chars.length + 1)

def parseInlineTable (value : Scan (Toml D)) : Scan (Toml D) := do
  let inline ← inlinePairs chars value Inline.add Inline.empty
  match inline.tree with
  | some tree => return tree
  | none => throw .unfinished

/-- The elements of an array. -/
def elementsLoop {V : Type} (value : Scan V) (items : List V) : ℕ → Scan (List V)
  | 0 => throw .unfinished
  | fuel + 1 => do
      skipArrayTrivia chars
      if (← peek chars) = 93 then
        advance 1
        return items
      else
        let v ← value
        skipArrayTrivia chars
        let c ← peek chars
        if c = 44 then
          advance 1
          elementsLoop value (items ++ [v]) fuel
        else if c = 93 then
          advance 1
          return items ++ [v]
        else fail chars "expected , or ] in array"

def parseArray (value : Scan (Toml D)) : Scan (Toml D) := do
  advance 1
  return .array (← elementsLoop chars value [] (chars.length + 1))

def parseValue : ℕ → Scan (Toml D)
  | 0 => throw .unfinished
  | depth + 1 => do
      let c ← peek chars
      if c = 34 ∨ c = 39 then return .scalar (.str (← parseStringValue chars c))
      else if c = 91 then parseArray chars (parseValue depth)
      else if c = 123 then parseInlineTable chars (parseValue depth)
      else return .scalar (← parseScalar chars doubles c)

/-! ## Documents -/

/-- What stands between the brackets of a header, and the brackets. -/
def headerPath : Scan (List Key × Bool) := do
  let isArray := (← cpAhead chars 1) = 91
  advance (if isArray then 2 else 1)
  let path ← parseKey chars
  if (← peek chars) ≠ 93 then fail chars "expected ] to close the table header"
  else
    advance 1
    if isArray then
      if (← peek chars) ≠ 93 then fail chars "expected ]] to close the array header"
      else
        advance 1
        return (path, true)
    else return (path, false)

def parseHeader {V : Type} : Scan (Line V) := do
  let (path, isArray) ← headerPath chars
  return .header path isArray

/-- A key and its value. -/
def parsePair {V : Type} (value : Scan V) : Scan (Line V) := do
  let path ← parseKey chars
  if (← peek chars) ≠ 61 then fail chars "expected = after key"
  else
    advance 1
    skipInlineWs chars
    return .pair path (← value)

/-- A header or a pair, `c` being the next code point. -/
def parseLine {V : Type} (value : Scan V) (c : ℤ) : Scan (Line V) :=
  if c = 91 then parseHeader chars else parsePair chars value

/-- The lines of a document, each added by `add`. -/
def linesLoop {S V : Type} (value : Scan V) (add : S → Line V → Build S) (s : S) : ℕ → Scan S
  | 0 => throw .unfinished
  | fuel + 1 => do
      skipInlineWs chars
      let c ← peek chars
      if c = -1 then return s
      else if c = 35 then
        skipComment chars
        linesLoop value add s fuel
      else if c = 10 ∨ c = 13 then
        expectNewline chars
        linesLoop value add s fuel
      else
        let line ← parseLine chars value c
        let s ← building chars (add s line)
        expectLineEnd chars
        linesLoop value add s fuel

def parseDoc : Scan (Doc D) :=
  linesLoop chars (parseValue chars doubles (chars.length + 1)) Doc.add Doc.empty (chars.length + 1)

end

section

variable {D : Type} (doubles : Doubles D)

/-- `toml.parse`. -/
def parse (text : List Char) : Except Stop (Toml D) := do
  let doc ← (parseDoc (codePoints text) doubles).run' 0
  match doc.tree with
  | some tree => return tree
  | none => throw .unfinished

end

end Thera.Sdk.TomlFormat
