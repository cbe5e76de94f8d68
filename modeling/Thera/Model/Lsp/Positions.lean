import Thera.Model.Sdk.Scan
import Thera.Model.Sdk.Text

/-! # Positions

The language server's conversions between code-point offsets and positions, a position being a line and a count of UTF-16 units.
-/

namespace Thera.Lsp

open Sdk

/-- The units of a code point: two for an astral one. -/
def utf16Width (cp : ℤ) : ℤ := if cp ≥ 0x10000 then 2 else 1

def utf16Len (s : Text) : ℤ := (codePoints s).foldl (fun units cp => units + utf16Width cp) 0

/-- Spend units along a line; what is consumed is counted. -/
def spendUnits (character : ℤ) : ℤ → List ℤ → ℤ
  | _, [] => 0
  | units, cp :: cps =>
      if units + utf16Width cp ≤ character then 1 + spendUnits character (units + utf16Width cp) cps else 0

/-- The offset of a position; a line out of range below is no line at all. -/
def positionToOffset (text : Text) (line character : ℤ) : Option ℤ :=
  let lines := text.splitOn '\n'
  if line ≥ lines.length then some text.length
  else if line < 0 then none
  else do
    let offset := (lines.take line.toNat).foldl (fun (offset : ℤ) l => offset + l.length + 1) 0
    let current ← lines[line.toNat]?
    return offset + spendUnits character 0 (codePoints current)

/-- A region of a source, with the line and column of its start counted from 1. -/
structure SourceSpan where
  source : Text
  offset : ℤ
  length : ℤ
  line : ℤ
  column : ℤ

/-- `s.slice(start, end)`. -/
def slice (s : Text) (start stop : ℤ) : Text := (s.take stop.toNat).drop start.toNat

def SourceSpan.text (span : SourceSpan) : Text := slice span.source span.offset (span.offset + span.length)

structure Position where
  line : ℤ
  character : ℤ
  deriving DecidableEq

structure Range where
  start : Position
  stop : Position
  deriving DecidableEq

/-- The line behind the walked text, where it starts, and how much was walked. -/
def walkSpan (offset : ℤ) (walk : ℤ × ℤ × ℤ) (cp : ℤ) : ℤ × ℤ × ℤ :=
  let (endLine, endLineStart, walked) := walk
  if cp = 10 then (endLine + 1, offset + (walked + 1), walked + 1) else (endLine, endLineStart, walked + 1)

def spanToRange (span : SourceSpan) : Range :=
  let lineStart := span.offset - (span.column - 1)
  let (endLine, endLineStart, _) := (codePoints span.text).foldl (walkSpan span.offset) (span.line, lineStart, 0)
  if span.source = [] then ⟨⟨span.line - 1, span.column - 1⟩, ⟨endLine - 1, span.column - 1⟩⟩
  else
    let endOffset := span.offset + span.length
    ⟨⟨span.line - 1, utf16Len (slice span.source lineStart span.offset)⟩,
      ⟨endLine - 1, utf16Len (slice span.source endLineStart endOffset)⟩⟩

end Thera.Lsp
