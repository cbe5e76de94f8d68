import Thera.Model.Prose.Blocks

/-! # Line filling

Prose is filled over atoms: words, and code spans and links with what stands in them.
-/

namespace Thera.Prose

open Sdk

def isSpace (c : Char) : Bool := c = ' ' || c = '\t'

/-- The atoms so far and the current one; inside a code span, brackets and a link nothing breaks. -/
structure AtomScan where
  out : List Text
  cur : Text
  tick : Bool
  brk : ℕ
  link : Bool
  afterClose : Bool

def AtomScan.flush (s : AtomScan) : AtomScan :=
  if s.cur.length > 0 then { s with out := s.out ++ [s.cur], cur := [] } else s

/-- The delimiters behind a character. -/
def AtomScan.delimit (s : AtomScan) (c : Char) : AtomScan :=
  if c = backtick then { s with tick := !s.tick }
  else if s.tick then s
  else if c = '[' then { s with brk := s.brk + 1 }
  else if c = ']' ∧ s.brk > 0 then { s with brk := s.brk - 1 }
  else if c = '(' ∧ s.afterClose ∧ s.brk = 0 then { s with link := true }
  else if c = ')' ∧ s.link then { s with link := false }
  else s

def AtomScan.step (s : AtomScan) (c : Char) : AtomScan :=
  if s.tick = false ∧ s.brk = 0 ∧ s.link = false ∧ isSpace c then { s.flush with afterClose := false }
  else
    let s := s.delimit c
    { s with afterClose := !s.tick && c = ']', cur := s.cur ++ [c] }

/-- The atoms of a text; nothing if a delimiter is left open. -/
def atomsOf (text : Text) : Option (List Text) :=
  let s := text.foldl AtomScan.step ⟨[], [], false, 0, false, false⟩
  if s.tick ∨ s.brk > 0 ∨ s.link then none else some s.flush.out

/-- `strings.join(' ')`. -/
def joinWords (words : List Text) : Text := [' '].intercalate words

/-- The lines so far, the atoms of the current one and its width. -/
structure Filling where
  lines : List Text
  cur : List Text
  col : ℤ

/-- An atom stays on the current line if it fits, or if a line may not be broken there. -/
def stays (avail : ℤ) (cur : List Text) (col : ℤ) (a : Text) : Bool :=
  let fits := decide (col + 1 + a.length ≤ avail)
  let pinned := isWrapUnsafeLead a || (cur.length = 1 && cur.head?.any isWrapUnsafeLead)
  fits || pinned

def Filling.step (avail : ℤ) (f : Filling) (a : Text) : Filling :=
  if f.cur.length = 0 then { f with cur := [a], col := a.length }
  else if stays avail f.cur f.col a then { f with cur := f.cur ++ [a], col := f.col + 1 + a.length }
  else ⟨f.lines ++ [joinWords f.cur], [a], a.length⟩

def wrapAtoms (atoms : List Text) (avail : ℤ) : List Text :=
  let f := atoms.foldl (Filling.step avail) ⟨[], [], 0⟩
  if f.cur.length > 0 then f.lines ++ [joinWords f.cur] else f.lines

end Thera.Prose
