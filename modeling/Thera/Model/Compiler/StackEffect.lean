import Thera.Model.Compiler.Instr

/-! # What an instruction does to the operand stack

How many operands the interpreter's loop takes off the stack for an instruction, and how many it puts on
when it goes on to the next one. A call counts with the result that its callee's return pushes. The
opcodes that carry operands do not occur as `simple`.
-/

namespace Thera.Compiler

namespace Op

def pops : Op → ℕ
  | addI64 | subI64 | mulI64 | divI64 | modI64 | addF64 | subF64 | mulF64 | divF64 => 2
  | eqI64 | neI64 | ltI64 | leI64 | gtI64 | geI64 | eqF64 | neF64 | ltF64 | leF64 | gtF64 | geF64 => 2
  | andI64 | orI64 | xorI64 | shlI64 | shrI64 | uShrI64 | listGet => 2
  | negI64 | negF64 | not | i64ToF64 | f64ToI64 | bnotI64 | enumTag | listLen | pop | dup | «return» => 1
  | listSet => 3
  | _ => 0

def pushes : Op → ℕ
  | pop | listSet => 0
  | dup => 2
  | _ => 1

end Op

namespace Instr

/-- A struct takes as many operands as its type has fields. -/
def pops (types : List TypeDef) : Instr → ℕ
  | simple op => op.pops
  | constInt _ | constDouble _ | constBool _ | constStr _ | load _ | globalGet _ | jump _ => 0
  | store _ | globalSet _ | enumGet _ | fieldGet _ | jumpIfTrue _ | jumpIfFalse _ => 1
  | fieldSet _ => 2
  | call _ argc | callNative _ argc | callVirtual _ argc => argc
  | callIndirect argc => argc + 1
  | enumNew _ _ count | listNew count | closureNew _ count => count
  | structNew ty => (types[ty]?.map TypeDef.fieldCount).getD 0

def pushes : Instr → ℕ
  | simple op => op.pushes
  | store _ | globalSet _ | fieldSet _ | jump _ | jumpIfTrue _ | jumpIfFalse _ => 0
  | _ => 1

/-- The places control can be after the instruction at `pc`, which a return leaves for good. -/
def successors (pc : ℕ) : Instr → List ℕ
  | simple .return => []
  | jump target => [target]
  | jumpIfTrue target | jumpIfFalse target => [target, pc + 1]
  | _ => [pc + 1]

end Instr

/-- `Reaches types code pc depth`: some path of control from the entry arrives at `pc` with `depth` operands
of the frame on the stack. -/
inductive Reaches (types : List TypeDef) (code : List Instr) : ℕ → ℕ → Prop
  | entry : Reaches types code 0 0
  | step {pc depth next : ℕ} {instr : Instr} (before : Reaches types code pc depth) (here : code[pc]? = some instr)
      (goes : next ∈ instr.successors pc) : Reaches types code next (depth - instr.pops types + instr.pushes)

end Thera.Compiler
