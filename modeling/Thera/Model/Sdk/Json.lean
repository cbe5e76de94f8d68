import Thera.ToMathlib.OrderedAssoc
import Thera.Model.Sdk.Scan

/-! # JSON

The scanner and the recursive-descent parser of `std.json`, and its serializer. How a decimal is rounded to a
double, and how a double is displayed, is left open.
-/

namespace Thera.Sdk

/-! ## Values -/

/-- A JSON value with doubles in `D`; an object keeps its fields in the order of insertion. -/
inductive Json (D : Type) where
  | null
  | bool (b : Bool)
  | int (n : I64)
  | double (x : D)
  | str (s : String)
  | array (items : List (Json D))
  | object (fields : List (String × Json D))

/-- `fields[key] = value`. -/
def setField {D : Type} (fields : List (String × Json D)) (key : String) (value : Json D) : List (String × Json D) :=
  OrderedAssoc.insert (fun a b => decide (a = b)) fields key value

/-! ## The scanner -/

section

variable (chars : List ℤ)

def skipWs : Scan Unit := skipWhile chars isWhitespace (chars.length + 1)

def skipDigits : Scan Unit := skipWhile chars isDigit (chars.length + 1)

/-- Do the code points from an offset on spell what is wanted? -/
def spells (offset : ℕ) : List ℤ → Scan Bool
  | [] => return true
  | want :: rest => do
      let pos ← get
      if pos + offset ≥ chars.length then return false
      else if (← charAt chars (pos + offset)) ≠ want then return false
      else spells (offset + 1) rest

def matchLiteral (literal : List Char) : Scan Bool := do
  if ← spells chars 0 (codePoints literal) then
    advance literal.length
    return true
  else return false

/-! ## Strings -/

def hexValue (c : ℤ) : ℤ :=
  if isDigit c then c - 48
  else if toLowercase c ≥ 97 ∧ toLowercase c ≤ 102 then toLowercase c - 97 + 10
  else -1

/-- So many hexadecimal digits, after a value read so far. -/
def hexDigits (value : ℤ) : ℕ → Scan ℤ
  | 0 => return value
  | n + 1 => do
      if ← atEnd chars then fail chars "truncated \\u escape"
      else
        let d := hexValue (← current chars)
        if d < 0 then fail chars "invalid hex digit"
        else
          advance 1
          hexDigits (value * 16 + d) n

def parseHex4 : Scan ℤ := hexDigits chars 0 4

/-- Does another unicode escape follow? -/
def escapeFollows : Scan Bool := do
  let pos ← get
  if pos + 1 < chars.length then
    if (← charAt chars pos) = 92 then return decide ((← charAt chars (pos + 1)) = 117) else return false
  else return false

def parseUnicodeEscape : Scan ℤ := do
  let hi ← parseHex4 chars
  if hi ≥ 55296 ∧ hi ≤ 56319 then
    if ← escapeFollows chars then
      advance 2
      let lo ← parseHex4 chars
      if lo ≥ 56320 ∧ lo ≤ 57343 then return 65536 + (hi - 55296) * 1024 + (lo - 56320)
      else fail chars "invalid low surrogate"
    else fail chars "expected a low surrogate"
  else if hi ≥ 56320 ∧ hi ≤ 57343 then fail chars "unexpected low surrogate"
  else return hi

/-- One escape, after its backslash. -/
def parseEscape : Scan ℤ := do
  if ← atEnd chars then fail chars "unterminated escape"
  else
    let e ← current chars
    advance 1
    if e = 34 then return 34
    else if e = 92 then return 92
    else if e = 47 then return 47
    else if e = 98 then return 8
    else if e = 102 then return 12
    else if e = 110 then return 10
    else if e = 114 then return 13
    else if e = 116 then return 9
    else if e = 117 then parseUnicodeEscape chars
    else fail chars "invalid escape"

/-- The rest of a string, after what was decoded so far. -/
def stringLoop (out : List ℤ) : ℕ → Scan (List ℤ)
  | 0 => throw .unfinished
  | fuel + 1 => do
      if ← atEnd chars then fail chars "unterminated string"
      else
        let c ← current chars
        advance 1
        if c = 34 then return out
        else if c = 92 then
          let e ← parseEscape chars
          stringLoop (out ++ [e]) fuel
        else if c < 32 then fail chars "unescaped control character in string"
        else stringLoop (out ++ [c]) fuel

def parseString : Scan String := do
  advance 1
  return fromChars (← stringLoop chars [] (chars.length + 1))

/-! ## Values -/

variable {D : Type} (round : List ℤ → D)

/-- Pass over a minus sign, or over another sign where that one is allowed. -/
def skipSign (other : ℤ) : Scan Unit := do
  let c ← peek chars
  if c = other ∨ c = 45 then advance 1 else pure ()

/-- The integer part: a lone zero, or digits that do not start with one. -/
def integerPart : Scan Unit := do
  let c ← peek chars
  if c = 48 then
    advance 1
    if isDigit (← peek chars) then fail chars "number cannot have a leading zero" else pure ()
  else if isDigit c then skipDigits chars
  else fail chars "invalid number"

/-- The fraction, if there is one. -/
def fractionPart : Scan Bool := do
  if (← peek chars) = 46 then
    advance 1
    if isDigit (← peek chars) then
      skipDigits chars
      return true
    else fail chars "expected a digit after the decimal point"
  else return false

/-- The exponent, if there is one. -/
def exponentPart : Scan Bool := do
  let c ← peek chars
  if c = 101 ∨ c = 69 then
    advance 1
    skipSign chars 43
    if isDigit (← peek chars) then
      skipDigits chars
      return true
    else fail chars "expected a digit in the exponent"
  else return false

/-- The value of a number's text: an integer if it fits, else a double. -/
def numberOf (isDouble : Bool) (token : List ℤ) : Scan (Json D) :=
  match if isDouble then none else toInt token with
  | some n => return .int n
  | none => match toDouble round token with
    | some x => return .double x
    | none => fail chars "invalid number"

def parseNumber : Scan (Json D) := do
  let start ← get
  skipSign chars 45
  integerPart chars
  let fraction ← fractionPart chars
  let exponent ← exponentPart chars
  let stop ← get
  numberOf chars round (fraction || exponent) ((chars.drop start).take (stop - start))

/-- The last choices of a value, `c` being the next code point. -/
def parseLiteral (c : ℤ) : Scan (Json D) := do
  if ← matchLiteral chars "true".toList then return .bool true
  else if ← matchLiteral chars "false".toList then return .bool false
  else if ← matchLiteral chars "null".toList then return .null
  else if c = -1 then fail chars "unexpected end of input"
  else fail chars "unexpected character"

/-- A key with its colon. -/
def parseKey : Scan String := do
  skipWs chars
  if (← peek chars) ≠ 34 then fail chars "expected a string key"
  else
    let key ← parseString chars
    skipWs chars
    if (← peek chars) ≠ 58 then fail chars "expected : after key"
    else
      advance 1
      return key

mutual

def parseValue : ℕ → Scan (Json D)
  | 0 => throw .unfinished
  | fuel + 1 => do
      skipWs chars
      let c ← peek chars
      if c = 123 then parseObject fuel
      else if c = 91 then parseArray fuel
      else if c = 34 then return .str (← parseString chars)
      else if c = 45 ∨ isDigit c then parseNumber chars round
      else parseLiteral chars c

def parseArray : ℕ → Scan (Json D)
  | 0 => throw .unfinished
  | fuel + 1 => do
      advance 1
      skipWs chars
      if (← peek chars) = 93 then
        advance 1
        return .array []
      else elementsLoop [] fuel

def elementsLoop (items : List (Json D)) : ℕ → Scan (Json D)
  | 0 => throw .unfinished
  | fuel + 1 => do
      let value ← parseValue fuel
      skipWs chars
      let c ← peek chars
      if c = 44 then
        advance 1
        elementsLoop (items ++ [value]) fuel
      else if c = 93 then
        advance 1
        return .array (items ++ [value])
      else fail chars "expected , or ] in array"

def parseObject : ℕ → Scan (Json D)
  | 0 => throw .unfinished
  | fuel + 1 => do
      advance 1
      skipWs chars
      if (← peek chars) = 125 then
        advance 1
        return .object []
      else membersLoop [] fuel

def membersLoop (fields : List (String × Json D)) : ℕ → Scan (Json D)
  | 0 => throw .unfinished
  | fuel + 1 => do
      let key ← parseKey chars
      let value ← parseValue fuel
      skipWs chars
      let c ← peek chars
      if c = 44 then
        advance 1
        membersLoop (setField fields key value) fuel
      else if c = 125 then
        advance 1
        return .object (setField fields key value)
      else fail chars "expected , or \x7d in object"

end

end

/-- The parser, with enough fuel for any nesting the text can hold. -/
def parseChars {D : Type} (round : List ℤ → D) (chars : List ℤ) : Scan (Json D) := do
  let value ← parseValue chars round (3 * chars.length + 3)
  skipWs chars
  if (← get) < chars.length then fail chars "trailing characters after JSON value" else return value

/-- `json.parse`. -/
def parse {D : Type} (round : List ℤ → D) (text : String) : Except Stop (Json D) :=
  (parseChars round (codePoints text.toList)).run' 0

/-! ## The serializer -/

def hexChar (n : ℤ) : ℤ := if n < 10 then 48 + n else 97 + n - 10

/-- One character of a string literal. -/
def quoteChar (c : ℤ) : List ℤ :=
  if c = 34 then [92, 34]
  else if c = 92 then [92, 92]
  else if c = 8 then [92, 98]
  else if c = 12 then [92, 102]
  else if c = 10 then [92, 110]
  else if c = 13 then [92, 114]
  else if c = 9 then [92, 116]
  else if c < 32 then [92, 117, 48, 48, hexChar (c / 16), hexChar (c % 16)]
  else [c]

def quote (s : String) : String := fromChars (34 :: (codePoints s.toList).flatMap quoteChar ++ [34])

def indentStr (level : ℕ) : String := fromChars (List.replicate (level * 2) 32)

def displayBool (b : Bool) : String := if b then "true" else "false"

section

variable {D : Type} (displayDouble : D → String) (pretty : Bool)

/-- The line break before an item, when it is wanted. -/
def breakLine (indent : ℕ) : List String := if pretty then ["\n", indentStr indent] else []

mutual

/-- The pieces a value is written as. -/
def writeValue (indent : ℕ) : Json D → List String
  | .null => ["null"]
  | .bool b => [displayBool b]
  | .int n => [displayInt n]
  | .double x => [displayDouble x]
  | .str s => [quote s]
  | .array items => if items.isEmpty then ["[]"] else "[" :: writeItems indent items ++ breakLine pretty indent ++ ["]"]
  | .object fields =>
      if fields.isEmpty then ["\x7b\x7d"] else "\x7b" :: writeFields indent fields ++ breakLine pretty indent ++ ["\x7d"]

def writeItems (indent : ℕ) : List (Json D) → List String
  | [] => []
  | item :: rest =>
      breakLine pretty (indent + 1) ++ writeValue (indent + 1) item ++ (if rest.isEmpty then [] else [","]) ++
        writeItems indent rest

/-- The fields in order; the value under a key of a map is the one of its entry. -/
def writeFields (indent : ℕ) : List (String × Json D) → List String
  | [] => []
  | (key, value) :: rest =>
      breakLine pretty (indent + 1) ++ quote key :: (if pretty then ": " else ":") :: writeValue (indent + 1) value ++
        (if rest.isEmpty then [] else [","]) ++ writeFields indent rest

end

/-- `json.stringify`. -/
def stringify (value : Json D) : String := String.ofList ((writeValue displayDouble pretty 0 value).flatMap String.toList)

end

end Thera.Sdk
