import Mathlib

/-! # Strings and bytes -/

namespace Thera.Sdk

abbrev Bytes := List UInt8

abbrev Text := List Char

/-- `s.bytes()`. -/
def bytesOf (text : Text) : Bytes := text.flatMap String.utf8EncodeChar

/-- `bytes.to_string()`: nothing if the bytes are not UTF-8. -/
def textOf (bytes : Bytes) : Option Text := bytes.toByteArray.utf8Decode?.map Array.toList

/-- `strip_cr`: the bytes without a single CR at their end. -/
def stripCr (raw : Bytes) : Bytes := if raw.getLast? = some 13 then raw.dropLast else raw

end Thera.Sdk
