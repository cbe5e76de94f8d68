import Thera.Model.Sdk.Lists

/-! # Source edits

`edit.apply_edits`: a batch of replacements, sorted by offset and spliced in one pass. Offsets count code points; indexing outside
the text has no result.
-/

namespace Thera.Frontend

/-- Replace `source[start, stop)` with a new text. -/
structure TextEdit where
  start : ℤ
  stop : ℤ
  newText : String
deriving DecidableEq, Repr

/-- Copy `count` code points from index `i` on. -/
def copyRun (chars : List Char) : ℕ → ℤ → Option (List Char)
  | 0, _ => some []
  | count + 1, i => do
      let c ← if 0 ≤ i then chars[i.toNat]? else none
      let copied ← copyRun chars count (i + 1)
      return c :: copied

/-- Copy while the index is below a limit. -/
def copyUntil (chars : List Char) (i limit : ℤ) : Option (List Char) := copyRun chars (limit - i).toNat i

/-- The unedited run before each edit, its text, and the rest of the source behind the last one. -/
def splice (chars : List Char) (cursor : ℤ) : List TextEdit → Option (List Char)
  | [] => copyUntil chars cursor chars.length
  | e :: edits => do
      let before ← copyUntil chars cursor e.start
      let after ← splice chars e.stop edits
      return before ++ e.newText.toList ++ after

def applyEdits (source : String) (edits : List TextEdit) : Option String :=
  if edits.length = 0 then some source
  else do
    let (ordered, _) ← Sdk.sortedBy (fun a b : TextEdit => pure (decide (a.start < b.start))) edits ()
    let out ← splice source.toList 0 ordered
    return String.ofList out

end Thera.Frontend
