import Thera.Model.Sdk.Text

/-! # Methods of strings

`String.slice` and `String.byte_slice` are natives of the runtime, on UTF-8; `repeat` and `find` are written over them. Nothing is the
result of a slice off a character boundary, of an index out of range, and of a loop that runs out of its fuel.
-/

namespace Thera.Sdk

/-- `s.len()` of the runtime: the bytes of the encoding. -/
def byteLen (s : Text) : ℕ := (s.map Char.utf8Size).sum

/-- How many characters end at a byte offset; nothing if it falls inside one or behind the end. -/
def boundary : Text → ℕ → Option ℕ
  | [], offset => if offset = 0 then some 0 else none
  | c :: rest, offset =>
      if offset = 0 then some 0
      else if c.utf8Size ≤ offset then (boundary rest (offset - c.utf8Size)).map (· + 1)
      else none

/-- `s.get(a..b)`. -/
def getBytes (s : Text) (a b : ℕ) : Option Text := do
  guard (a ≤ b)
  let first ← boundary s a
  let last ← boundary s b
  return (s.take last).drop first

/-- The pass over the characters from the one at `cpIdx` on, for the byte offsets of two of them. -/
def sliceLoop (start stop : ℕ) : Text → ℕ → ℕ → ℕ → ℕ → ℕ × ℕ
  | [], _, _, byteStart, byteEnd => (byteStart, byteEnd)
  | c :: rest, cpIdx, byteIdx, byteStart, byteEnd =>
      let byteStart := if cpIdx = start then byteIdx else byteStart
      if cpIdx = stop then (byteStart, byteIdx) else sliceLoop start stop rest (cpIdx + 1) (byteIdx + c.utf8Size) byteStart byteEnd

def strSlice (s : Text) (start stop : ℤ) : Option Text :=
  let start := max start 0
  let stop := max stop 0
  if stop ≤ start then some []
  else
    let bounds := sliceLoop start.toNat stop.toNat s 0 0 (byteLen s) (byteLen s)
    getBytes s bounds.1 bounds.2

def strByteSlice (s : Text) (start stop : ℤ) : Text :=
  let a := (max 0 (min start (byteLen s))).toNat
  let b := max (max 0 (min stop (byteLen s))).toNat a
  (getBytes s a b).getD []

/-- Double and add. -/
def repeatLoop (result chunk : Text) (n : ℤ) : ℕ → Option Text
  | 0 => none
  | fuel + 1 =>
      if n > 0 then
        let result := if n.tmod 2 = 1 then result ++ chunk else result
        let n := n.tdiv 2
        repeatLoop result (if n > 0 then chunk ++ chunk else chunk) n fuel
      else some result

def strRepeat (s : Text) (count : ℤ) : Option Text := if count ≤ 0 then some [] else repeatLoop [] s count (count.toNat + 1)

/-- How far `pat` agrees with `hay` from `i` on. -/
def agreeLoop (hay pat : Text) (i j : ℕ) : ℕ → Option ℕ
  | 0 => none
  | fuel + 1 =>
      if j < pat.length then do
        if (← hay[i + j]?) = (← pat[j]?) then agreeLoop hay pat i (j + 1) fuel else return j
      else return j

def findLoop (hay pat : Text) (i : ℕ) : ℕ → Option (Option ℕ)
  | 0 => none
  | fuel + 1 =>
      if i + pat.length ≤ hay.length then do
        if (← agreeLoop hay pat i 0 (pat.length + 1)) = pat.length then return some i else findLoop hay pat (i + 1) fuel
      else return none

def strFind (hay pat : Text) : Option (Option ℕ) := if pat.length = 0 then some (some 0) else findLoop hay pat 0 (hay.length + 1)

end Thera.Sdk
