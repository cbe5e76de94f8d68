import Thera.Model.Bytecode.Serialize

/-! # Runtime values

A value is a small tagged word; everything else lives on the heap and is referred to by handle, so
copying a value copies the handle. The objects follow the source's `Obj`, with a map's hash index
kept as the data it is.
-/

namespace Thera.Runtime

open Thera.Bytecode (F64)

/-- A value on the operand stack, in a local slot or inside a heap object. -/
inductive Value where
  | int (n : Int64)
  | double (x : F64)
  | bool (b : Bool)
  | unit
  | ref (handle : UInt32)
deriving DecidableEq, Repr

/-- An insertion-ordered key/value store with a per-entry key hash and an open-addressing index. -/
structure MapObj where
  entries : List (Value × Value)
  hashes : List UInt64
  index : List Int32
deriving DecidableEq, Repr

/-- A tagged-union value: the variant selected from type `ty`, with its payload. -/
structure EnumObj where
  ty : UInt32
  variant : UInt16
  fields : List Value
deriving DecidableEq, Repr

inductive Obj where
  | str (s : String)
  | bytes (b : List UInt8)
  | bytesBuilder (b : List UInt8)
  | list (items : List Value)
  | map (m : MapObj)
  | struct (ty : UInt32) (fields : List Value)
  | enum (e : EnumObj)
  | closure (func : UInt32) (captures : List Value)
deriving DecidableEq, Repr

/-- The values `for_each_child` visits, in its order. -/
def Obj.childValues : Obj → List Value
  | .str _ | .bytes _ | .bytesBuilder _ => []
  | .list items => items
  | .map m => m.entries.flatMap fun (k, v) => [k, v]
  | .struct _ fields => fields
  | .enum e => e.fields
  | .closure _ captures => captures

/-- The handle a value carries, if it refers to the heap. -/
def Value.handle? : Value → Option UInt32
  | .ref handle => some handle
  | _ => none

@[simp] theorem Value.handle?_eq_some {v : Value} {handle : UInt32} :
    v.handle? = some handle ↔ v = .ref handle := by
  cases v <;> simp [Value.handle?]

end Thera.Runtime
