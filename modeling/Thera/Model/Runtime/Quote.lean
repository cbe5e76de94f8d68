import Mathlib

/-! # The debug rendering of a string

`quote_str`: single-quoted, with the characters that would not survive in source re-escaped.
-/

namespace Thera.Runtime

/-- A character as it is quoted, given the one that follows it; only a `$` that opens an interpolation is escaped. -/
def quoteChar (ch : Char) (next : Option Char) : List Char :=
  if ch = '\\' then ['\\', '\\']
  else if ch = '\'' then ['\\', '\'']
  else if ch = '$' ∧ next = some '{' then ['\\', '$']
  else if ch = '\n' then ['\\', 'n']
  else if ch = '\t' then ['\\', 't']
  else if ch = '\r' then ['\\', 'r']
  else if ch = '\x08' then ['\\', 'b']
  else if ch = '\x0c' then ['\\', 'f']
  else if ch = '\x0b' then ['\\', 'v']
  else if ch = '\x00' then ['\\', '0']
  else if ch.toNat < 0x20 ∨ ch.toNat = 0x7f then '\\' :: 'u' :: '{' :: Nat.toDigits 16 ch.toNat ++ ['}']
  else [ch]

def quoteChars : List Char → List Char
  | [] => []
  | ch :: rest => quoteChar ch rest.head? ++ quoteChars rest

def quoteStr (s : String) : String := String.ofList ('\'' :: quoteChars s.toList ++ ['\''])

end Thera.Runtime
