import Thera.Model.Runtime.Equality
import Thera.ToMathlib.Probing

/-! # The runtime map

Entries in insertion order, the hash of each key, and above `hashThreshold` entries an open-addressing
index of entry positions. The caller passes the key's hash. The two probe loops are `Probing.walk`
with one turn per index slot; an operation has no result where the source would panic, never leave a
probe loop, or compare keys without end.
-/

namespace Thera.Runtime

/-- Entry count from which a map maintains its hash index. -/
def hashThreshold : ℕ := 16

/-- Empty slot sentinel of the index. -/
def emptySlot : Int32 := -1

/-- An index slot's content as an entry position, by sign extension. -/
def entryIndex (e : Int32) : ℕ := e.toInt64.toUInt64.toNat

/-- A power-of-two capacity of at least twice the entries, and at least 32. -/
def indexCapacityFor (n : ℕ) : ℕ := 2 ^ Nat.clog 2 (max (n * 2) 32)

/-- The first of some positions that passes a test. -/
def firstWhere (test : ℕ → Option Bool) : List ℕ → Option (Option ℕ)
  | [] => some none
  | i :: rest => do if ← test i then some (some i) else firstWhere test rest

namespace MapObj

def empty : MapObj := ⟨[], [], []⟩

section

variable (heap : Heap) (depth : ℕ)

/-- Whether the entry at `i` has this key; the hashes are compared first. -/
def matchesAt (m : MapObj) (key : Value) (hash : UInt64) (i : ℕ) : Option Bool := do
  if (← m.hashes[i]?) = hash then valuesEq heap depth (← m.entries[i]?).1 key else some false

/-- The entry position of `key`: a linear scan without an index, a probe with one. -/
def find (m : MapObj) (key : Value) (hash : UInt64) : Option (Option ℕ) :=
  if m.index.isEmpty then firstWhere (m.matchesAt heap depth key hash) (List.range m.entries.length)
  else
    let mask := m.index.length - 1
    Probing.walk mask (fun slot => do
      let e ← m.index[slot]?
      if e = emptySlot then some (some none)
      else if ← m.matchesAt heap depth key hash (entryIndex e) then some (some (some (entryIndex e)))
      else some none) m.index.length (hash.toNat &&& mask)

def get (m : MapObj) (key : Value) (hash : UInt64) : Option (Option Value) := do
  match ← m.find heap depth key hash with
  | some i => some (some (← m.entries[i]?).2)
  | none => some none

def contains (m : MapObj) (key : Value) (hash : UInt64) : Option Bool :=
  (m.find heap depth key hash).map Option.isSome

/-- Whether the probe table has passed its load factor of three quarters. -/
def loadExceeded (m : MapObj) : Bool := m.index.length * 3 ≤ m.entries.length * 4

/-- Place an entry position in the first empty slot from its home; positions are cut to 32 bits. -/
def indexInsert (m : MapObj) (entryIndex : ℕ) (hash : UInt64) : Option MapObj := do
  let mask := m.index.length - 1
  let slot ← Probing.walk mask (fun slot => do
    if (← m.index[slot]?) ≠ emptySlot then some none else some (some slot)) m.index.length (hash.toNat &&& mask)
  some { m with index := m.index.set slot (Int32.ofNat entryIndex) }

def rebuildIndex (m : MapObj) : Option MapObj :=
  (List.range m.entries.length).foldlM (fun m i => do m.indexInsert i (← m.hashes[i]?))
    { m with index := List.replicate (indexCapacityFor m.entries.length) emptySlot }

/-- Insert or update; an update keeps the entry's position and key. -/
def insert (m : MapObj) (key : Value) (hash : UInt64) (val : Value) : Option MapObj := do
  match ← m.find heap depth key hash with
  | some i => some { m with entries := m.entries.modify i fun entry => (entry.1, val) }
  | none =>
      let ei := m.entries.length
      let m := { m with entries := m.entries ++ [(key, val)], hashes := m.hashes ++ [hash] }
      if m.index.isEmpty then
        -- Cross the threshold: switch from linear scan to a probe table.
        if hashThreshold ≤ m.entries.length then m.rebuildIndex else some m
      else if m.loadExceeded then m.rebuildIndex
      else m.indexInsert ei hash

/-- Remove a key, returning its value; every later entry moves, so the index is rebuilt. -/
def remove (m : MapObj) (key : Value) (hash : UInt64) : Option (Option Value × MapObj) := do
  match ← m.find heap depth key hash with
  | some i =>
      let v := (← m.entries[i]?).2
      let m := { m with entries := m.entries.eraseIdx i, hashes := m.hashes.eraseIdx i }
      if m.index.isEmpty then some (some v, m) else some (some v, ← m.rebuildIndex)
  | none => some (none, m)

def clear (_m : MapObj) : MapObj := empty

/-- Hash a key and insert it. -/
def insertKey (m : MapObj) (key val : Value) : Option MapObj := do
  m.insert heap depth key (← hashValue heap depth key) val

/-- Hash a key and remove it. -/
def removeKey (m : MapObj) (key : Value) : Option (Option Value × MapObj) := do
  m.remove heap depth key (← hashValue heap depth key)

/-- A map literal: later keys overwrite earlier ones. -/
def fromPairs (pairs : List (Value × Value)) : Option MapObj :=
  pairs.foldlM (fun m pair => m.insertKey heap depth pair.1 pair.2) empty

end

end MapObj

end Thera.Runtime
