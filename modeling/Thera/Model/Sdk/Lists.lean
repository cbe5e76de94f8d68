import Mathlib

/-! # Lists

`List.sorted_by`: a bottom-up merge sort over a working copy. The comparison is a closure, which may read and change a state of its
own; indexing a list out of range has no result, and neither has a loop that runs out of its fuel. `List.insert` and
`List.remove_at` change the list in place: what they did to it stays when they trap.
-/

namespace Thera.Sdk

section

variable {α S : Type} (less : α → α → StateM S Bool)

/-- `src[i]`. -/
def item (src : List α) (i : ℕ) : StateT S Option α := fun s => src[i]?.map fun x => (x, s)

/-- `less(a, b)`. -/
def ask (a b : α) : StateT S Option Bool := fun s => some (less a b s)

/-- Merge the runs `src[i..mid]` and `src[j..hi]` onto the end of `dst`. -/
def mergeLoop (src : List α) (mid hi i j : ℕ) (dst : List α) : ℕ → StateT S Option (List α)
  | 0 => fun _ => none
  | fuel + 1 => do
      if i < mid ∨ j < hi then
        if i ≥ mid then
          let right ← item src j
          mergeLoop src mid hi i (j + 1) (dst ++ [right]) fuel
        else if j ≥ hi then
          let left ← item src i
          mergeLoop src mid hi (i + 1) j (dst ++ [left]) fuel
        else
          let right ← item src j
          let left ← item src i
          if ← ask less right left then mergeLoop src mid hi i (j + 1) (dst ++ [right]) fuel
          else mergeLoop src mid hi (i + 1) j (dst ++ [left]) fuel
      else return dst

/-- One pass over the runs of a width. -/
def passLoop (src : List α) (width lo : ℕ) (dst : List α) : ℕ → StateT S Option (List α)
  | 0 => fun _ => none
  | fuel + 1 => do
      if lo < src.length then
        let mid := min (lo + width) src.length
        let hi := min (lo + width + width) src.length
        let dst ← mergeLoop less src mid hi lo mid dst (src.length + 1)
        passLoop src width (lo + width + width) dst fuel
      else return dst

/-- Passes over runs of growing width. -/
def widthLoop (n : ℕ) (src : List α) (width : ℕ) : ℕ → StateT S Option (List α)
  | 0 => fun _ => none
  | fuel + 1 => do
      if width < n then
        let dst ← passLoop less src width 0 [] (src.length + 1)
        widthLoop n dst (width + width) fuel
      else return src

def sortedBy (xs : List α) : StateT S Option (List α) := widthLoop less xs.length xs 1 (xs.length + 1)

end

inductive Halt
  | indexOutOfBounds (index : ℤ) (len : ℕ)
  | outOfFuel
deriving Repr, DecidableEq

/-- A method that works on the list in place. -/
abbrev InPlace (α : Type) := ExceptT Halt (StateM (List α))

section

variable {α : Type}

def checkedListIndex (i : ℤ) (items : List α) : Except Halt (Fin items.length) :=
  if inside : 0 ≤ i ∧ i < items.length then .ok ⟨i.toNat, by omega⟩ else .error (.indexOutOfBounds i items.length)

/-- `self[i]`. -/
def listGet (i : ℤ) : InPlace α α := fun items => ((checkedListIndex i items).map items.get, items)

/-- `self[i] = value`. -/
def listSet (i : ℤ) (value : α) : InPlace α Unit := fun items =>
  match checkedListIndex i items with
  | .ok slot => (.ok (), items.set slot value)
  | .error trap => (.error trap, items)

/-- `self.push(item)`. -/
def push (item : α) : InPlace α Unit := modify (· ++ [item])

/-- Swap `prev` into every slot from `i` on; what the last slot held is left over. -/
def rippleLoop (i : ℤ) (prev : α) : ℕ → InPlace α α
  | 0 => throw .outOfFuel
  | fuel + 1 => do
      if i < (← get).length then
        let tmp ← listGet i
        listSet i prev
        rippleLoop (i + 1) tmp fuel
      else return prev

def listInsert (slot : ℤ) (item : α) : InPlace α Unit := do
  if slot = (← get).length then push item
  else
    let prev ← listGet slot
    listSet slot item
    push (← rippleLoop (slot + 1) prev ((← get).length + 1))

/-- Copy every slot behind `j` one slot toward the front. -/
def shiftLoop (last j : ℤ) : ℕ → InPlace α Unit
  | 0 => throw .outOfFuel
  | fuel + 1 => do
      if j < last then
        listSet j (← listGet (j + 1))
        shiftLoop last (j + 1) fuel

def listRemoveAt (i : ℤ) : InPlace α α := do
  let removed ← listGet i
  shiftLoop ((← get).length - 1) i ((← get).length + 1)
  modify List.dropLast
  return removed

end

end Thera.Sdk
