import Thera.Model.Runtime.Heap

/-! # Structural equality and hashing

`values_eq` and `hash_value` recurse through the heap. The model bounds that recursion by `depth`, the
call depth that is left; running out of it, like meeting a dangling handle, leaves no result. Doubles
are compared as IEEE 754 does, read off their bit patterns.
-/

namespace Thera.Runtime

open Thera.Bytecode (F64)

def isNan (x : F64) : Bool := 0x7ff0000000000000 < x.bits &&& 0x7fffffffffffffff

def isZero (x : F64) : Bool := x.bits &&& 0x7fffffffffffffff == 0

/-- The `==` of `f64`: a NaN equals nothing, and the two zeros are equal. -/
def f64Eq (x y : F64) : Bool := !isNan x && !isNan y && (x.bits == y.bits || (isZero x && isZero y))

/-- Element-wise equality of two vectors of the same length, stopping at the first difference. -/
def allEq (eq : Value → Value → Option Bool) : List Value → List Value → Option Bool
  | x :: xs, y :: ys => do if ← eq x y then allEq eq xs ys else some false
  | _, _ => some true

/-- Equality of two vectors: the lengths are compared first. -/
def vecEq (eq : Value → Value → Option Bool) (xs ys : List Value) : Option Bool :=
  if xs.length = ys.length then allEq eq xs ys else some false

/-- The keys and values of a map's entries, in order. -/
def MapObj.flat (m : MapObj) : List Value := m.entries.flatMap fun (k, v) => [k, v]

/-- The derived equality of objects; a map's hashes and index play no part. -/
def objEq (eq : Value → Value → Option Bool) : Obj → Obj → Option Bool
  | .str s, .str t => some (s == t)
  | .bytes b, .bytes c => some (b == c)
  | .bytesBuilder b, .bytesBuilder c => some (b == c)
  | .list xs, .list ys => vecEq eq xs ys
  | .map m, .map n => vecEq eq m.flat n.flat
  | .struct t xs, .struct u ys => if t = u then vecEq eq xs ys else some false
  | .enum e, .enum f => if e.ty = f.ty ∧ e.variant = f.variant then vecEq eq e.fields f.fields else some false
  | .closure f xs, .closure g ys => if f = g then vecEq eq xs ys else some false
  | _, _ => some false

/-- Structural equality; one handle equals itself without a look at its object. -/
def valuesEq (heap : Heap) (depth : ℕ) (a b : Value) : Option Bool :=
  match a, b with
  | .int x, .int y => some (x == y)
  | .double x, .double y => some (f64Eq x y)
  | .bool x, .bool y => some (x == y)
  | .unit, .unit => some true
  | .ref x, .ref y =>
      if x = y then some true
      else match depth with
        | 0 => none
        | depth + 1 => do objEq (valuesEq heap depth) (← heap.get? x) (← heap.get? y)
  | _, _ => some false

/-! ## Hashing -/

def fnvOffset : UInt64 := 0xcbf29ce484222325
def fnvPrime : UInt64 := 0x00000100000001b3

def mixByte (h : UInt64) (b : UInt8) : UInt64 := (h ^^^ b.toUInt64) * fnvPrime

def mixBytes (h : UInt64) (bytes : List UInt8) : UInt64 := bytes.foldl mixByte h

def leBytes (v : UInt64) : List UInt8 :=
  [v.toUInt8, (v >>> 8).toUInt8, (v >>> 16).toUInt8, (v >>> 24).toUInt8,
    (v >>> 32).toUInt8, (v >>> 40).toUInt8, (v >>> 48).toUInt8, (v >>> 56).toUInt8]

def mixU64 (h : UInt64) (v : UInt64) : UInt64 := mixBytes h (leBytes v)

/-- Fold an object into the running hash; a closure contributes its function only. -/
def hashObj (hashInto : Value → UInt64 → Option UInt64) (obj : Obj) (h : UInt64) : Option UInt64 :=
  let elements (h : UInt64) (values : List Value) := values.foldlM (fun h v => hashInto v h) h
  match obj with
  | .str s => some (mixBytes (mixByte h 5) s.toByteArray.data.toList)
  | .bytes b | .bytesBuilder b => some (mixBytes (mixByte h 6) b)
  | .list items => elements (mixByte h 7) items
  | .map m => elements (mixByte h 8) m.flat
  | .struct ty fields => elements (mixU64 (mixByte h 9) ty.toUInt64) fields
  | .enum e => elements (mixU64 (mixU64 (mixByte h 10) e.ty.toUInt64) e.variant.toUInt64) e.fields
  | .closure func _ => some (mixU64 (mixByte h 11) func.toUInt64)

/-- Fold a value into the running hash, behind a tag for its kind. The zeros hash alike. -/
def hashInto (heap : Heap) (depth : ℕ) (v : Value) (h : UInt64) : Option UInt64 :=
  match v with
  | .int n => some (mixU64 (mixByte h 1) n.toUInt64)
  | .double x => some (mixU64 (mixByte h 2) (if isZero x then 0 else x.bits))
  | .bool b => some (mixByte (mixByte h 3) b.toUInt8)
  | .unit => some (mixByte h 4)
  | .ref handle =>
      match depth with
      | 0 => none
      | depth + 1 => do hashObj (hashInto heap depth) (← heap.get? handle) h

/-- A content hash, consistent with `valuesEq`. -/
def hashValue (heap : Heap) (depth : ℕ) (v : Value) : Option UInt64 := hashInto heap depth v fnvOffset

end Thera.Runtime
