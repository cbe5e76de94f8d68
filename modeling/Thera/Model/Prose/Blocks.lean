import Thera.Model.Sdk.Http

/-! # Blocks of comment prose

The content lines of a comment run, cut into blocks: what may be rewrapped and what may not.
-/

namespace Thera.Prose

open Sdk

def backtick : Char := '\x60'

inductive BlockKind where
  /-- Lines that are one paragraph. -/
  | prose
  /-- Lines that are emitted as they came in. -/
  | verbatim
  /-- One empty line. -/
  | blank
  deriving DecidableEq

structure Block where
  kind : BlockKind
  lines : List Text
  deriving DecidableEq

/-! ## Leads -/

/-- The backticks of a fence marker, or 0. -/
def fenceLen (content : Text) : ℕ :=
  let n := (content.takeWhile (· = backtick)).length
  if n ≥ 3 then n else 0

/-- A marker that is long enough, with nothing behind it. -/
def closesFence (content : Text) (opened : ℕ) : Bool :=
  let n := fenceLen content
  if n < opened then false else Http.trim (content.drop n) = []

/-- Digits and a dot, at the end or before a space. -/
def isOrderedLead (cps : Text) : Bool :=
  match cps.takeWhile fun c => isDigit (codePoint c), cps.dropWhile fun c => isDigit (codePoint c) with
  | _ :: _, '.' :: [] => true
  | _ :: _, '.' :: c :: _ => c = ' '
  | _, _ => false

/-- The whole line is `**Something:**`. -/
def isBoldLabel (content : Text) : Bool :=
  if ¬ ['*', '*'] <+: content ∨ ¬ [':', '*', '*'] <:+ content then false
  else
    let n := content.length
    if n < 6 then false
    else
      let inner := (content.take (n - 3)).drop 2
      inner ≠ [] && '*' ∉ inner

def isBlockLead (content : Text) : Bool :=
  match content with
  | [] => false
  | c :: rest =>
      if fenceLen content ≥ 3 then true
      else if c = ' ' then true
      else if c = '-' ∧ (rest = [] ∨ rest.head? = some ' ') then true
      else isOrderedLead content || isBoldLabel content

/-- Three or more of one rule character. -/
def isRule (cps : Text) : Bool :=
  match cps with
  | [] => false
  | c :: rest =>
      if c ≠ '-' ∧ c ≠ '=' ∧ c ≠ '_' ∧ c ≠ '*' then false
      else if cps.length < 3 then false
      else rest.all (· = c)

/-- What the wrapper puts at no line's start: also what other readers take for a block. -/
def isWrapUnsafeLead (content : Text) : Bool :=
  if isBlockLead content then true
  else match content with
    | [] => false
    | c :: rest =>
        if (c = '*' ∨ c = '+') ∧ (rest = [] ∨ rest.head? = some ' ') then true
        else if c = '#' ∨ c = '>' ∨ c = '|' then true
        else isRule content

/-! ## Segmentation -/

/-- The blocks so far, the lines of the current one with its kind, and the backticks of the fence that is open. -/
structure Segmenting where
  out : List Block
  cur : List Text
  kind : BlockKind
  fenceOpen : ℕ

def Segmenting.flush (s : Segmenting) : Segmenting :=
  if s.cur.length > 0 then { s with out := s.out ++ [⟨s.kind, s.cur⟩], cur := [] } else s

def wantedKind (line : Text) : BlockKind :=
  if line = [] then .blank else if isBlockLead line then .verbatim else .prose

def Segmenting.step (s : Segmenting) (line : Text) : Segmenting :=
  if s.fenceOpen > 0 then
    let cur := s.cur ++ [line]
    if closesFence line s.fenceOpen then { s with out := s.out ++ [⟨.verbatim, cur⟩], cur := [], fenceOpen := 0 }
    else { s with cur := cur }
  else if fenceLen line ≥ 3 then { s.flush with cur := [line], kind := .verbatim, fenceOpen := fenceLen line }
  else
    let want := wantedKind line
    let same := s.cur.length > 0 ∧ s.kind = want ∧ want ≠ .blank
    let s := if same then s else s.flush
    { s with kind := want, cur := s.cur ++ [line] }

def blocksOf (lines : List Text) : List Block := (lines.foldl Segmenting.step ⟨[], [], .prose, 0⟩).flush.out

end Thera.Prose
