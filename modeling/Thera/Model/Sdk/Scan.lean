import Mathlib

/-! # Text and scanning

Code points, numbers as text, and what the scanners of `std.json` and `std.toml` share. A code point is an integer, with `-1` for
the end of the input. Reading a list out of range stops a run, and so does running out of the fuel that a loop is
given; neither is a result of a parser.
-/

namespace Thera.Sdk

/-! ## Code points -/

def isDigit (cp : ℤ) : Bool := cp ≥ 48 && cp ≤ 57

def isUpper (cp : ℤ) : Bool := cp ≥ 65 && cp ≤ 90

def isWhitespace (cp : ℤ) : Bool := cp = 32 || cp = 9 || cp = 10 || cp = 13

def toLowercase (cp : ℤ) : ℤ := if isUpper cp then cp + 32 else cp

def codePoint (c : Char) : ℤ := c.toNat

/-- `s.chars()`. -/
def codePoints (text : List Char) : List ℤ := text.map codePoint

/-- The character of a code point; one that is no scalar value becomes U+FFFD. -/
def charOf (cp : ℤ) : Char := if 0 ≤ cp ∧ cp.toNat.isValidChar then Char.ofNat cp.toNat else '�'

/-- `String.from_chars`. -/
def fromChars (cps : List ℤ) : String := String.ofList (cps.map charOf)

/-! ## Numbers -/

abbrev I64 := {n : ℤ // -2 ^ 63 ≤ n ∧ n < 2 ^ 63}

theorem zero_inRange : -2 ^ 63 ≤ (0 : ℤ) ∧ (0 : ℤ) < 2 ^ 63 := by decide

/-- The wrap-around of 64-bit arithmetic. -/
def wrapI64 (n : ℤ) : I64 :=
  ⟨(n + 2 ^ 63) % 2 ^ 64 - 2 ^ 63, by omega, by omega⟩

def toI64 (n : ℤ) : Option I64 := if range : -2 ^ 63 ≤ n ∧ n < 2 ^ 63 then some ⟨n, range⟩ else none

/-- A non-empty run of decimal digits. -/
def digitsValue (digits : List ℤ) : Option ℕ :=
  if digits ≠ [] ∧ digits.all isDigit then some (digits.foldl (fun n d => n * 10 + (d - 48).toNat) 0) else none

/-- `token.to_int()`: an optional sign and digits, within 64 bits. -/
def toInt : List ℤ → Option I64
  | 45 :: digits => do toI64 (-(← digitsValue digits))
  | 43 :: digits => do toI64 (← digitsValue digits)
  | digits => do toI64 (← digitsValue digits)

/-- What is left after a run of digits. -/
def afterDigits (token : List ℤ) : List ℤ := token.dropWhile isDigit

def dropSign : List ℤ → List ℤ
  | 43 :: rest => rest
  | 45 :: rest => rest
  | rest => rest

/-- The exponent of a floating-point literal, or nothing. -/
def isExponent : List ℤ → Bool
  | [] => true
  | e :: rest => (e = 101 || e = 69) && dropSign rest ≠ [] && (dropSign rest).all isDigit

/-- Digits with an optional point, at least one digit, and an optional exponent. -/
def isDecimal (token : List ℤ) : Bool :=
  match afterDigits token with
  | 46 :: fraction =>
      let digits := (token.takeWhile isDigit).length + (fraction.takeWhile isDigit).length
      digits ≠ 0 && isExponent (afterDigits fraction)
  | rest => token.takeWhile isDigit ≠ [] && isExponent rest

/-- The names of the special values of a double. -/
def specialNames : List (List ℤ) := ["inf", "infinity", "nan"].map fun name => codePoints name.toList

/-- The texts that parse as a double: a sign, and a decimal or the name of a special value. -/
def isDouble (token : List ℤ) : Bool :=
  isDecimal (dropSign token) || (dropSign token).map toLowercase ∈ specialNames

/-- `token.to_double()`, with the rounding of a decimal to a double left open. -/
def toDouble {D : Type} (round : List ℤ → D) (token : List ℤ) : Option D :=
  if isDouble token then some (round token) else none

/-- The decimal digits of a number, as an integer is displayed. -/
def decimalDigits (n : ℕ) : List Char :=
  if n < 10 then [Char.ofNat (48 + n)] else decimalDigits (n / 10) ++ [Char.ofNat (48 + n % 10)]

def displayInt (n : ℤ) : String := String.ofList (if n < 0 then '-' :: decimalDigits n.natAbs else decimalDigits n.natAbs)

/-! ## The scanner -/

/-- How a run ends without a value. -/
inductive Stop where
  | malformed (message : String)
  | outOfRange
  | unfinished
  deriving DecidableEq

/-- A computation that may stop. -/
abbrev Parse := Except Stop

/-- `cs[i]`. -/
def codeAt (cs : List ℤ) (i : ℕ) : Parse ℤ :=
  match cs[i]? with
  | some c => .ok c
  | none => .error .outOfRange

/-- A step of the scanner: it reads the input and moves the position. -/
abbrev Scan := StateT ℕ (Except Stop)

section

variable (chars : List ℤ)

/-- `self.chars[i]`. -/
def charAt (i : ℕ) : Scan ℤ :=
  match chars[i]? with
  | some c => pure c
  | none => throw .outOfRange

def peek : Scan ℤ := do
  let pos ← get
  if pos ≥ chars.length then return -1 else charAt chars pos

/-- `self.chars[self.pos]`. -/
def current : Scan ℤ := do charAt chars (← get)

def atEnd : Scan Bool := do return decide ((← get) ≥ chars.length)

def advance (n : ℕ) : Scan Unit := modify (· + n)

/-- Advance while the current code point passes the test. -/
def skipWhile (test : ℤ → Bool) : ℕ → Scan Unit
  | 0 => throw .unfinished
  | fuel + 1 => do
      if test (← peek chars) then
        advance 1
        skipWhile test fuel
      else pure ()

/-- The line and column behind one more code point. -/
def countLine (counted : ℕ × ℕ) (i : ℕ) : Scan (ℕ × ℕ) := do
  if (← charAt chars i) = 10 then return (counted.1 + 1, 1) else return (counted.1, counted.2 + 1)

/-- The line and column of the current position. -/
def position : Scan String := do
  let counted ← (List.range (← get)).foldlM (countLine chars) (1, 1)
  return "line " ++ toString counted.1 ++ " col " ++ toString counted.2

def fail {A : Type} (message : String) : Scan A := do throw (.malformed (message ++ " at " ++ (← position chars)))

end

end Thera.Sdk
