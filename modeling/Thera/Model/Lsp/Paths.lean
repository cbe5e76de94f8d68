import Thera.Model.Sdk.Text

/-! # Paths and URIs

The language server's conversions between paths and `file://` URIs.
-/

namespace Thera.Lsp

open Sdk

def isUnreserved (b : ℕ) : Bool :=
  (b ≥ 65 && b ≤ 90) || (b ≥ 97 && b ≤ 122) || (b ≥ 48 && b ≤ 57) || b = 45 || b = 46 || b = 95 || b = 126

def hexDigit (v : ℕ) : ℕ := if v < 10 then 48 + v else 55 + v

def hexVal (b : ℕ) : Option ℕ :=
  if b ≥ 48 ∧ b ≤ 57 then some (b - 48)
  else if b ≥ 65 ∧ b ≤ 70 then some (b - 55)
  else if b ≥ 97 ∧ b ≤ 102 then some (b - 87)
  else none

def hexPair (hi lo : ℕ) : Option ℕ := do
  let h ← hexVal hi
  let l ← hexVal lo
  return h * 16 + l

/-- The bytes written for one byte. -/
def encodeByte (b : UInt8) : Bytes :=
  if isUnreserved b.toNat || b = 47 then [b]
  else [37, UInt8.ofNat (hexDigit (b.toNat >>> 4 &&& 15)), UInt8.ofNat (hexDigit (b.toNat &&& 15))]

def percentEncode (s : Text) : Text := (textOf ((bytesOf s).flatMap encodeByte)).getD s

/-- A `%` that two hex digits do not follow stands for itself. -/
def decodeBytes : Bytes → Bytes
  | [] => []
  | b :: rest =>
      match rest with
      | h :: l :: rest' =>
          if b = 37 then
            match hexPair h.toNat l.toNat with
            | some v => UInt8.ofNat v :: decodeBytes rest'
            | none => b :: decodeBytes (h :: l :: rest')
          else b :: decodeBytes (h :: l :: rest')
      | rest => b :: decodeBytes rest

def percentDecode (s : Text) : Text := (textOf (decodeBytes (bytesOf s))).getD s

/-- The scheme of a file URI. -/
def scheme : Text := "file://".toList

def pathToUri (path : Text) : Text := scheme ++ percentEncode path

def uriToPath (uri : Text) : Text := if scheme <+: uri then percentDecode (uri.drop scheme.length) else percentDecode uri

end Thera.Lsp
