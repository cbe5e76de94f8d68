import Thera.Model.Bytecode.Serialize

/-! # The in-memory instruction set

One constructor per instruction the interpreter runs, with the operand widths of the source: a
local slot is a `u16`, a jump target an absolute `usize` index into the function's code, and the
serialized forms' pool references are already resolved to strings and native table indices.
-/

namespace Thera.Bytecode

/-- A local-slot index; parameters and locals share one array. -/
abbrev Slot := UInt16

/-- A jump target: an absolute index into the function's instructions. -/
abbrev Addr := UInt64

inductive Instr where
  -- constants
  | constInt (value : Int64)
  | constDouble (value : F64)
  | constBool (value : Bool)
  | constUnit
  | constStr (value : String)
  -- locals and module globals
  | load (slot : Slot)
  | store (slot : Slot)
  | globalGet (idx : UInt32)
  | globalSet (idx : UInt32)
  -- integer arithmetic and bitwise operations
  | addI64
  | subI64
  | mulI64
  | divI64
  | modI64
  | negI64
  | andI64
  | orI64
  | xorI64
  | bNotI64
  | shlI64
  | shrI64
  | uShrI64
  -- float arithmetic
  | addF64
  | subF64
  | mulF64
  | divF64
  | negF64
  -- comparison
  | eqI64
  | neI64
  | ltI64
  | leI64
  | gtI64
  | geI64
  | eqF64
  | neF64
  | ltF64
  | leF64
  | gtF64
  | geF64
  | not
  -- conversions and stack manipulation
  | i64ToF64
  | f64ToI64
  | pop
  | dup
  -- calls
  | call (func : UInt32) (argc : UInt8)
  | callNative (native : UInt32) (argc : UInt8)
  | callIndirect (argc : UInt8)
  | callVirtual (selector : String) (argc : UInt8)
  -- enums, structs, collections and closures
  | enumNew (ty : UInt32) (variant : UInt16) (fieldCount : UInt8)
  | enumTag
  | enumGet (idx : UInt16)
  | structNew (ty : UInt32)
  | fieldGet (idx : UInt16)
  | fieldSet (idx : UInt16)
  | listNew (count : UInt32)
  | listGet
  | listSet
  | listLen
  | closureNew (func : UInt32) (captures : UInt8)
  -- control
  | jump (target : Addr)
  | jumpIfTrue (target : Addr)
  | jumpIfFalse (target : Addr)
  | «return»
deriving DecidableEq, Repr

end Thera.Bytecode
