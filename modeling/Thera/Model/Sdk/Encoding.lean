import Thera.Model.Sdk.Scan
import Thera.Model.Sdk.Text

/-! # Text encodings

The base64, hex and percent codecs of `std.encoding`. Bytes are numbers while they are computed with; a decoder reads its input by
position.
-/

namespace Thera.Sdk.Encoding

/-! ## Characters -/

def isLower (cp : ℤ) : Bool := cp ≥ 97 && cp ≤ 122

def isAlphanumeric (cp : ℤ) : Bool := isUpper cp || isLower cp || isDigit cp

def hexDigitValue (cp : ℤ) : Option ℤ :=
  if isDigit cp then some (cp - 48)
  else if cp ≥ 65 ∧ cp ≤ 70 then some (cp - 65 + 10)
  else if cp ≥ 97 ∧ cp ≤ 102 then some (cp - 97 + 10)
  else none

/-- `String.from_chars`. -/
def textOfCodes (cps : List ℤ) : Text := cps.map charOf

/-- `data.to_list()`. -/
def toList (data : Bytes) : List ℕ := data.map UInt8.toNat

/-- `Bytes.from_list`. -/
def fromList (values : List ℕ) : Parse Bytes :=
  match values.find? (· > 255) with
  | some n => .error (.malformed ("byte value out of range (0..=255): " ++ displayInt n))
  | none => .ok (values.map UInt8.ofNat)

/-! ## Digits -/

def b64Char (v : ℕ) : ℤ :=
  if v < 26 then 65 + v
  else if v < 52 then 97 + (v - 26)
  else if v < 62 then 48 + (v - 52)
  else if v = 62 then 43
  else 47

/-- The value of a character, `-1` outside the alphabet. -/
def b64Value (cp : ℤ) : ℤ :=
  if isUpper cp then cp - 65
  else if isLower cp then cp - 97 + 26
  else if isDigit cp then cp - 48 + 52
  else if cp = 43 then 62
  else if cp = 47 then 63
  else -1

def hexDigit (nibble : ℕ) (upper : Bool) : ℤ :=
  if nibble < 10 then 48 + nibble
  else if upper then 65 + (nibble - 10)
  else 97 + (nibble - 10)

def hexValue (cp : ℤ) : ℤ := (hexDigitValue cp).getD (-1)

def isUnreserved (b : ℤ) : Bool := isAlphanumeric b || b = 45 || b = 95 || b = 46 || b = 126

/-! ## Base64 -/

/-- Groups of three bytes, and a tail of one or two. -/
def base64Codes : List ℕ → List ℤ
  | a :: b :: c :: rest =>
      let triple := a <<< 16 ||| b <<< 8 ||| c
      b64Char (triple >>> 18 &&& 0x3F) :: b64Char (triple >>> 12 &&& 0x3F) :: b64Char (triple >>> 6 &&& 0x3F) ::
        b64Char (triple &&& 0x3F) :: base64Codes rest
  | [a, b] =>
      let triple := a <<< 16 ||| b <<< 8
      [b64Char (triple >>> 18 &&& 0x3F), b64Char (triple >>> 12 &&& 0x3F), b64Char (triple >>> 6 &&& 0x3F), 61]
  | [a] =>
      let triple := a <<< 16
      [b64Char (triple >>> 18 &&& 0x3F), b64Char (triple >>> 12 &&& 0x3F), 61, 61]
  | [] => []

def base64Encode (data : Bytes) : Text := textOfCodes (base64Codes (toList data))

/-- The bytes of a group of four characters at `i`. -/
def base64Group (cps : List ℤ) (i : ℕ) : Parse (List ℕ) := do
  let v0 := b64Value (← codeAt cps i)
  let v1 := b64Value (← codeAt cps (i + 1))
  if v0 < 0 ∨ v1 < 0 then .error (.malformed "base64_decode: invalid character")
  else
    let pad2 := decide ((← codeAt cps (i + 2)) = 61)
    let pad3 := decide ((← codeAt cps (i + 3)) = 61)
    if (pad2 || pad3) ∧ i + 4 ≠ cps.length then .error (.malformed "base64_decode: misplaced padding")
    else if pad2 ∧ ¬ pad3 then .error (.malformed "base64_decode: invalid padding")
    else
      let first := (v0.toNat <<< 2 ||| v1.toNat >>> 4) &&& 0xFF
      if pad2 then return [first]
      else
        let v2 := b64Value (← codeAt cps (i + 2))
        if v2 < 0 then .error (.malformed "base64_decode: invalid character")
        else
          let second := (v1.toNat <<< 4 ||| v2.toNat >>> 2) &&& 0xFF
          if pad3 then return [first, second]
          else
            let v3 := b64Value (← codeAt cps (i + 3))
            if v3 < 0 then .error (.malformed "base64_decode: invalid character")
            else return [first, second, (v2.toNat <<< 6 ||| v3.toNat) &&& 0xFF]

/-- The groups of `size` characters from `i` on. -/
def decodeLoop (size n : ℕ) (group : ℕ → Parse (List ℕ)) (i : ℕ) (bytes : List ℕ) : ℕ → Parse (List ℕ)
  | 0 => .error .unfinished
  | fuel + 1 => do
      if i < n then
        let decoded ← group i
        decodeLoop size n group (i + size) (bytes ++ decoded) fuel
      else return bytes

def base64Decode (s : Text) : Parse Bytes := do
  let cps := codePoints s
  if cps.length % 4 ≠ 0 then .error (.malformed "base64_decode: length is not a multiple of 4")
  else
    let bytes ← decodeLoop 4 cps.length (base64Group cps) 0 [] (cps.length + 1)
    fromList bytes

/-! ## Hex -/

def hexCodes (upper : Bool) (b : ℕ) : List ℤ := [hexDigit (b >>> 4 &&& 0xF) upper, hexDigit (b &&& 0xF) upper]

def hexEncode (data : Bytes) : Text := textOfCodes ((toList data).flatMap (hexCodes false))

/-- The byte of two hex digits at `i`. -/
def hexPair (message : String) (cps : List ℤ) (i : ℕ) : Parse (List ℕ) := do
  let hi := hexValue (← codeAt cps i)
  let lo := hexValue (← codeAt cps (i + 1))
  if hi < 0 ∨ lo < 0 then .error (.malformed message) else return [hi.toNat <<< 4 ||| lo.toNat]

def hexDecode (s : Text) : Parse Bytes := do
  let cps := codePoints s
  if cps.length % 2 ≠ 0 then .error (.malformed "hex_decode: odd-length input")
  else
    let bytes ← decodeLoop 2 cps.length (hexPair "hex_decode: invalid hex digit" cps) 0 [] (cps.length + 1)
    fromList bytes

/-! ## Percent encoding -/

def urlCodes (b : ℕ) : List ℤ := if isUnreserved b then [(b : ℤ)] else 37 :: hexCodes true b

def urlEncode (s : Text) : Text := textOfCodes ((toList (bytesOf s)).flatMap urlCodes)

def urlLoop (cps : List ℤ) (i : ℕ) (bytes : List ℕ) : ℕ → Parse (List ℕ)
  | 0 => .error .unfinished
  | fuel + 1 => do
      if i < cps.length then
        let c ← codeAt cps i
        if c = 37 then
          if i + 2 ≥ cps.length then .error (.malformed "url_decode: truncated percent-escape")
          else
            let byte ← hexPair "url_decode: invalid percent-escape" cps (i + 1)
            urlLoop cps (i + 3) (bytes ++ byte) fuel
        else if c ≤ 127 then urlLoop cps (i + 1) (bytes ++ [c.toNat]) fuel
        else urlLoop cps (i + 1) (bytes ++ toList (bytesOf (textOfCodes [c]))) fuel
      else return bytes

def urlDecode (s : Text) : Parse Text := do
  let cps := codePoints s
  let bytes ← urlLoop cps 0 [] (cps.length + 1)
  let data ← fromList bytes
  match textOf data with
  | some text => return text
  | none => .error (.malformed "bytes are not valid UTF-8")

end Thera.Sdk.Encoding
