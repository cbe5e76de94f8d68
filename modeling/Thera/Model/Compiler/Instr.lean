import Thera.Model.Bytecode.Serialize

/-! # Front-end bytecode

The instructions and the module code generation produces. Unlike the runtime's, an operand is an
unbounded number here, and an opcode without operands is carried by `simple`.
-/

namespace Thera.Compiler

open Thera.Bytecode (F64)

inductive Op where
  | constInt | constDouble | constBool | constUnit | constStr
  | load | store
  | addI64 | subI64 | mulI64 | divI64 | modI64 | negI64
  | addF64 | subF64 | mulF64 | divF64 | negF64
  | eqI64 | neI64 | ltI64 | leI64 | gtI64 | geI64
  | eqF64 | neF64 | ltF64 | leF64 | gtF64 | geF64
  | not | i64ToF64 | f64ToI64 | pop | dup
  | call | callNative
  | enumNew | enumTag | enumGet | listNew
  | jump | jumpIfTrue | jumpIfFalse | return
  | structNew | fieldGet | fieldSet
  | closureNew | callIndirect | callVirtual
  | listGet | listSet
  | andI64 | orI64 | xorI64 | bnotI64 | shlI64 | shrI64 | uShrI64
  | listLen | globalGet | globalSet
  deriving DecidableEq

inductive Instr where
  | simple (op : Op)
  | constInt (value : ℤ)
  | constDouble (value : F64)
  | constBool (value : Bool)
  | constStr (value : String)
  | load (slot : ℕ)
  | store (slot : ℕ)
  | globalGet (slot : ℕ)
  | globalSet (slot : ℕ)
  | call (func argc : ℕ)
  | callNative (name : String) (argc : ℕ)
  | enumNew (ty variant fieldCount : ℕ)
  | enumGet (field : ℕ)
  | structNew (ty : ℕ)
  | fieldGet (field : ℕ)
  | fieldSet (field : ℕ)
  | listNew (count : ℕ)
  | closureNew (func captures : ℕ)
  | callIndirect (argc : ℕ)
  | callVirtual (selector : String) (argc : ℕ)
  | jump (target : ℕ)
  | jumpIfTrue (target : ℕ)
  | jumpIfFalse (target : ℕ)
  deriving DecidableEq

/-- A struct layout; empty field names render positionally. -/
structure TypeDef where
  name : String
  fieldCount : ℕ
  fieldNames : List String
  deriving DecidableEq

/-- An enum's variant names, indexed by tag. -/
structure EnumDef where
  ty : ℕ
  name : String
  variants : List String
  deriving DecidableEq

/-- A function; its locals, parameters first, are the slots below `localCount`. -/
structure FuncDef where
  name : String
  paramCount : ℕ
  localCount : ℕ
  code : List Instr
  deriving DecidableEq

/-- Enum type ids carry this offset in the dispatch table, struct ids do not. -/
def enumDispatchBase : ℕ := 2 ^ 31

/-- `functions[func]` implements `selector` for the type `typeId`. -/
structure DispatchEntry where
  typeId : ℕ
  selector : String
  func : ℕ
  deriving DecidableEq

structure Module where
  functions : List FuncDef
  types : List TypeDef
  enums : List EnumDef
  dispatch : List DispatchEntry
  globalCount : ℕ
  deriving DecidableEq

end Thera.Compiler
