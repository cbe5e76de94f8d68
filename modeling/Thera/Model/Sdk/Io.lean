import Thera.Model.Sdk.Text

/-! # Lines from a reader

`BufReader` of `std.io`: lines from a source that is read in chunks. A source is the answers it will give; after them it is at its
end, as it is at an empty answer.
-/

namespace Thera.Sdk.Io

structure BufReader where
  source : List (Except String Bytes)
  /-- Bytes that were read and not returned. -/
  buf : Bytes
  /-- How much of `buf` has no LF. -/
  scanned : ℕ
  eof : Bool

/-- Why no line is returned. -/
inductive Halt where
  | failed (message : String)
  | invalid
  | unfinished
  deriving DecidableEq

def BufReader.new (source : List (Except String Bytes)) : BufReader := ⟨source, [], 0, false⟩

/-- The first LF at or behind a position. -/
def indexOfLf (b : Bytes) (start : ℕ) : Option ℕ := ((b.drop start).findIdx? (· = 10)).map fun j => start + j

/-- The text of a line, whose reader has moved on. -/
def lineText (line : Bytes) (reader : BufReader) : Except Halt (Option Text) × BufReader :=
  match textOf (stripCr line) with
  | some text => (.ok (some text), reader)
  | none => (.error .invalid, reader)

def readLineLoop : ℕ → BufReader → Except Halt (Option Text) × BufReader
  | 0, reader => (.error .unfinished, reader)
  | fuel + 1, reader =>
      match indexOfLf reader.buf reader.scanned with
      | some i => lineText (reader.buf.take i) { reader with buf := reader.buf.drop (i + 1), scanned := 0 }
      | none =>
          let reader := { reader with scanned := reader.buf.length }
          if reader.eof then
            -- End of input: a trailing partial line is one.
            if reader.buf.length > 0 then lineText reader.buf { reader with buf := [], scanned := 0 } else (.ok none, reader)
          else match reader.source with
            | [] => readLineLoop fuel { reader with eof := true }
            | .error message :: rest => (.error (.failed message), { reader with source := rest })
            | .ok [] :: rest => readLineLoop fuel { reader with source := rest, eof := true }
            | .ok (b :: chunk) :: rest => readLineLoop fuel { reader with source := rest, buf := reader.buf ++ b :: chunk }

/-- The next line without its terminator, or nothing at the end of the input. -/
def readLine (reader : BufReader) : Except Halt (Option Text) × BufReader := readLineLoop (reader.source.length + 2) reader

end Thera.Sdk.Io
