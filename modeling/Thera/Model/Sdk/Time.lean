import Thera.Model.Sdk.Int64
import Thera.Model.Sdk.Text

/-! # Dates and timestamps

The civil calendar of `std.time`, and RFC 3339 timestamps: `DateTime` is a count of milliseconds since 1970, in UTC.
-/

namespace Thera.Sdk.Time

/-! ## Civil dates -/

/-- `[year, month, day]`. -/
structure Date where
  year : I64
  month : I64
  day : I64
  deriving DecidableEq

/-- Division by a positive number, rounding down. -/
def floorDiv (a b : I64) : I64 :=
  let q := a / b
  if a % b ≠ 0 ∧ a < 0 then q - 1 else q

/-- Days since 1970-01-01. -/
def daysFromCivil (y0 m d : I64) : I64 :=
  let y := if m ≤ 2 then y0 - 1 else y0
  let era := if y < 0 then (y - 399) / 400 else y / 400
  let yoe := y - era * 400
  let mq := if m ≤ 2 then m + 9 else m - 3
  let doy := (153 * mq + 2) / 5 + d - 1
  let doe := yoe * 365 + yoe / 4 - yoe / 100 + doy
  era * 146097 + doe - 719468

/-- The date of a count of days since 1970-01-01. -/
def civilFromDays (days : I64) : Date :=
  let z := days + 719468
  let era := if z < 0 then (z - 146096) / 146097 else z / 146097
  let doe := z - era * 146097
  let yoe := (doe - doe / 1460 + doe / 36524 - doe / 146096) / 365
  let y := yoe + era * 400
  let doy := doe - (365 * yoe + yoe / 4 - yoe / 100)
  let mp := (5 * doy + 2) / 153
  let d := doy - (153 * mp + 2) / 5 + 1
  let m := if mp ≥ 10 then mp - 9 else mp + 3
  let year := if m ≤ 2 then y + 1 else y
  ⟨year, m, d⟩

/-! ## Writing -/

/-- `'${n}'`. -/
def intText (n : I64) : Text := (displayInt n.1).toList

def pad2 (n : I64) : Text := if n < 10 then '0' :: intText n else intText n

def pad3 (n : I64) : Text :=
  if n < 10 then '0' :: '0' :: intText n
  else if n < 100 then '0' :: intText n
  else intText n

def pad4 (n : I64) : Text :=
  if n < 10 then '0' :: '0' :: '0' :: intText n
  else if n < 100 then '0' :: '0' :: intText n
  else if n < 1000 then '0' :: intText n
  else intText n

structure DateTime where
  millis : I64
  deriving DecidableEq

def formatRfc3339 (self : DateTime) : Text :=
  let totalSecs := floorDiv self.millis 1000
  let ms := self.millis - totalSecs * 1000
  let days := floorDiv totalSecs 86400
  let sod := totalSecs - days * 86400
  let hour := sod / 3600
  let minute := sod % 3600 / 60
  let second := sod % 60
  let date := civilFromDays days
  let stamp := pad4 date.year ++ ['-'] ++ pad2 date.month ++ ['-'] ++ pad2 date.day ++ ['T'] ++ pad2 hour ++ [':'] ++ pad2 minute ++
    [':'] ++ pad2 second
  if ms = 0 then stamp ++ ['Z'] else stamp ++ ['.'] ++ pad3 ms ++ ['Z']

/-! ## Reading -/

def parseFail {A : Type} (why : String) : Parse A := .error (.malformed ("invalid RFC 3339 timestamp: " ++ why))

def checkRange (value low high : I64) (what : String) : Parse Unit :=
  if value < low ∨ value > high then .error (.malformed (what ++ " out of range: " ++ displayInt value.1)) else .ok ()

section

variable (cs : List ℤ)

/-- The value of a digit's code point. -/
def digitAt (c : ℤ) : I64 := wrapI64 (c - 48)

def digitsLoop (i stop : ℕ) (value : I64) : ℕ → Parse I64
  | 0 => .error .unfinished
  | fuel + 1 => do
      if i < stop then
        let c ← codeAt cs i
        if isDigit c then digitsLoop (i + 1) stop (value * 10 + digitAt c) fuel
        else .error (.malformed "expected a digit in timestamp")
      else return value

/-- Exactly `count` decimal digits at `start`. -/
def readDigits (start count : ℕ) : Parse I64 :=
  if start + count > cs.length then .error (.malformed "unexpected end of timestamp")
  else digitsLoop cs start (start + count) 0 (count + 1)

def expectCode (i : ℕ) (code : ℤ) : Parse Unit := do
  if i ≥ cs.length then .error (.malformed "malformed timestamp")
  else if (← codeAt cs i) ≠ code then .error (.malformed "malformed timestamp")
  else return ()

/-- The digits of a fraction: the first three count, and it is noted whether there was one. -/
def fractionLoop (i : ℕ) (fracMs place : I64) (seen : Bool) : ℕ → Parse (ℕ × I64 × Bool)
  | 0 => .error .unfinished
  | fuel + 1 => do
      if i < cs.length then
        let c ← codeAt cs i
        if isDigit c then
          if place ≥ 1 then fractionLoop (i + 1) (fracMs + digitAt c * place) (place / 10) true fuel
          else fractionLoop (i + 1) fracMs place true fuel
        else return (i, fracMs, seen)
      else return (i, fracMs, seen)

/-- An optional fraction of a second, and the position behind it. -/
def readFraction (i : ℕ) : Parse (ℕ × I64) := do
  if i < cs.length then
    if (← codeAt cs i) = 46 then
      let (i, fracMs, seen) ← fractionLoop cs (i + 1) 0 100 false (cs.length + 1)
      if seen then return (i, fracMs) else parseFail "fractional seconds need at least one digit"
    else return (i, 0)
  else return (i, 0)

/-- A zone, in minutes, and the position behind it. -/
def readZone (i : ℕ) : Parse (ℕ × I64) := do
  if i ≥ cs.length then parseFail "missing time zone"
  else
    let z ← codeAt cs i
    if z = 90 then return (i + 1, 0)
    else if z = 43 ∨ z = 45 then
      let oh ← readDigits cs (i + 1) 2
      expectCode cs (i + 3) 58
      let om ← readDigits cs (i + 4) 2
      let offset := oh * 60 + om
      return (i + 6, if z = 45 then -offset else offset)
    else parseFail "invalid time zone"

end

def parseRfc3339 (s : Text) : Parse DateTime := do
  let cs := codePoints s
  if cs.length < 20 then parseFail "timestamp too short"
  else
    let year ← readDigits cs 0 4
    expectCode cs 4 45
    let month ← readDigits cs 5 2
    expectCode cs 7 45
    let day ← readDigits cs 8 2
    expectCode cs 10 84
    let hour ← readDigits cs 11 2
    expectCode cs 13 58
    let minute ← readDigits cs 14 2
    expectCode cs 16 58
    let second ← readDigits cs 17 2
    checkRange month 1 12 "month"
    checkRange day 1 31 "day"
    checkRange hour 0 23 "hour"
    checkRange minute 0 59 "minute"
    checkRange second 0 60 "second"
    let (i, fracMs) ← readFraction cs 19
    let (i, offsetMinutes) ← readZone cs i
    if i ≠ cs.length then parseFail "trailing characters after timestamp"
    else
      let days := daysFromCivil year month day
      let localSecs := days * 86400 + hour * 3600 + minute * 60 + second
      let utcSecs := localSecs - offsetMinutes * 60
      return ⟨utcSecs * 1000 + fracMs⟩

end Thera.Sdk.Time
