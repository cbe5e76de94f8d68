import Thera.Model.Compiler.ModuleScope
import Thera.ToMathlib.Framing

/-! # The front-end's module encoder

The toolchain writes `.thera-bc` files itself, with a byte builder whose integer writers are plain
code over the signed 64-bit `Int`. A write is modelled by the bytes it appends. Looking up a string
that was not interned traps, so the encoder is partial there. The varint loops run at most ten times
on a 64-bit value and carry that count as fuel.
-/

namespace Thera.Compiler

open Framing (joined)

/-! ## The byte builder -/

namespace BytesBuilder

/-- `>>>`, the logical shift of the bit pattern. -/
def ushr (x : Int64) (count : UInt64) : Int64 := (x.toUInt64 >>> count).toInt64

/-- The low 8 bits of `byte`. -/
def writeU8 (byte : Int64) : List UInt8 := [byte.toUInt64.toUInt8]

def writeU32Le (v : Int64) : List UInt8 :=
  writeU8 v ++ writeU8 (ushr v 8) ++ writeU8 (ushr v 16) ++ writeU8 (ushr v 24)

def writeU64Le (v : Int64) : List UInt8 :=
  writeU8 v ++ writeU8 (ushr v 8) ++ writeU8 (ushr v 16) ++ writeU8 (ushr v 24) ++
    writeU8 (ushr v 32) ++ writeU8 (ushr v 40) ++ writeU8 (ushr v 48) ++ writeU8 (ushr v 56)

/-- `Double.to_bits` gives the pattern as an `Int`. -/
def writeF64Le (d : Bytecode.F64) : List UInt8 := writeU64Le d.bits.toInt64

/-- The unsigned LEB128 loop, cut off after `fuel` further bytes. -/
def uvarintBytes : ℕ → Int64 → List UInt8
  | 0, x => writeU8 (x &&& 0x7f)
  | fuel + 1, x =>
      let low := x &&& 0x7f
      let x := ushr x 7
      if x ≠ 0 then writeU8 (low ||| 0x80) ++ uvarintBytes fuel x else writeU8 low

def writeUvarint (v : Int64) : List UInt8 := uvarintBytes 9 v

/-- The signed LEB128 loop, cut off after `fuel` further bytes. -/
def ivarintBytes : ℕ → Int64 → List UInt8
  | 0, x => writeU8 (x &&& 0x7f)
  | fuel + 1, x =>
      let low := x &&& 0x7f
      let x := x >>> 7
      let signSet := low &&& 0x40 ≠ 0
      if (x = 0 ∧ ¬ signSet) ∨ (x = -1 ∧ signSet) then writeU8 low
      else writeU8 (low ||| 0x80) ++ ivarintBytes fuel x

def writeIvarint (v : Int64) : List UInt8 := ivarintBytes 9 v

/-- The UTF-8 encoding of `s`, without a length. -/
def writeStr (s : String) : List UInt8 := s.toByteArray.data.toList

end BytesBuilder

open BytesBuilder

/-! ## Opcodes and the string pool -/

/-- The one-byte wire tag of an opcode. -/
def Op.byte : Op → Int64
  | .constInt => 1
  | .constDouble => 2
  | .constBool => 3
  | .constUnit => 4
  | .constStr => 5
  | .load => 6
  | .store => 7
  | .addI64 => 8
  | .subI64 => 9
  | .mulI64 => 10
  | .divI64 => 11
  | .modI64 => 12
  | .negI64 => 13
  | .addF64 => 14
  | .subF64 => 15
  | .mulF64 => 16
  | .divF64 => 17
  | .negF64 => 18
  | .eqI64 => 19
  | .neI64 => 20
  | .ltI64 => 21
  | .leI64 => 22
  | .gtI64 => 23
  | .geI64 => 24
  | .eqF64 => 25
  | .neF64 => 26
  | .ltF64 => 27
  | .leF64 => 28
  | .gtF64 => 29
  | .geF64 => 30
  | .not => 31
  | .i64ToF64 => 32
  | .f64ToI64 => 33
  | .pop => 34
  | .dup => 35
  | .call => 36
  | .callNative => 37
  | .enumNew => 38
  | .enumTag => 39
  | .enumGet => 40
  | .listNew => 41
  | .jump => 42
  | .jumpIfTrue => 43
  | .jumpIfFalse => 44
  | .return => 45
  | .structNew => 46
  | .fieldGet => 47
  | .fieldSet => 48
  | .closureNew => 49
  | .callIndirect => 50
  | .callVirtual => 51
  | .listGet => 52
  | .listSet => 53
  | .andI64 => 54
  | .orI64 => 55
  | .xorI64 => 56
  | .bnotI64 => 57
  | .shlI64 => 58
  | .shrI64 => 59
  | .uShrI64 => 60
  | .listLen => 61
  | .globalGet => 62
  | .globalSet => 63

/-- Strings in first-seen order, and the pool index of each. -/
structure StringPool where
  strings : List String
  index : Table String ℕ

namespace StringPool

/-- Intern `s`, returning its pool index and reusing an existing entry. -/
def intern (pool : StringPool) (s : String) : ℕ × StringPool :=
  match pool.index.get s with
  | some i => (i, pool)
  | none =>
      let n := pool.strings.length
      (n, ⟨pool.strings ++ [s], pool.index.set s n⟩)

/-- The index of an interned string; any other key traps. -/
def indexOf (pool : StringPool) (s : String) : Option ℕ := pool.index.get s

end StringPool

/-- The strings an instruction refers to by pool index. -/
def Instr.strings : Instr → List String
  | .constStr v => [v]
  | .callVirtual selector _ => [selector]
  | .callNative name _ => [name]
  | _ => []

/-- Every string the module references, in the order of the interning pass. -/
def Module.strings (m : Module) : List String :=
  m.types.flatMap (fun t => t.name :: t.fieldNames) ++ m.enums.flatMap (fun e => e.name :: e.variants) ++
    m.functions.flatMap (fun f => f.code.flatMap Instr.strings) ++ m.dispatch.map DispatchEntry.selector

def internModule (m : Module) : StringPool :=
  m.strings.foldl (fun pool s => (pool.intern s).2) ⟨[], []⟩

/-! ## Sections -/

def writeNat (n : ℕ) : Option (List UInt8) := some (writeUvarint (.ofNat n))

def writeRef (pool : StringPool) (s : String) : Option (List UInt8) := (pool.indexOf s).bind writeNat

/-- A length-prefixed string. -/
def writeStrLp (s : String) : List UInt8 := writeUvarint (.ofNat (writeStr s).length) ++ writeStr s

/-- The number of elements, then each of them. -/
def writeEach {α : Type} (encode : α → Option (List UInt8)) (values : List α) : Option (List UInt8) :=
  joined (writeNat values.length :: values.map encode)

def opcode (op : Op) : Option (List UInt8) := some (writeU8 op.byte)

def encodeInstr (pool : StringPool) : Instr → Option (List UInt8)
  | .simple op => opcode op
  | .constInt value => joined [opcode .constInt, some (writeIvarint (.ofInt value))]
  | .constDouble value => joined [opcode .constDouble, some (writeF64Le value)]
  | .constBool value => joined [opcode .constBool, some (writeU8 (if value then 1 else 0))]
  | .constStr value => joined [opcode .constStr, writeRef pool value]
  | .load slot => joined [opcode .load, writeNat slot]
  | .store slot => joined [opcode .store, writeNat slot]
  | .globalGet slot => joined [opcode .globalGet, writeNat slot]
  | .globalSet slot => joined [opcode .globalSet, writeNat slot]
  | .call func argc => joined [opcode .call, writeNat func, writeNat argc]
  | .callNative name argc => joined [opcode .callNative, writeRef pool name, writeNat argc]
  | .enumNew ty variant fieldCount =>
      joined [opcode .enumNew, writeNat ty, writeNat variant, writeNat fieldCount]
  | .enumGet field => joined [opcode .enumGet, writeNat field]
  | .structNew ty => joined [opcode .structNew, writeNat ty]
  | .fieldGet field => joined [opcode .fieldGet, writeNat field]
  | .fieldSet field => joined [opcode .fieldSet, writeNat field]
  | .listNew count => joined [opcode .listNew, writeNat count]
  | .closureNew func captures => joined [opcode .closureNew, writeNat func, writeNat captures]
  | .callIndirect argc => joined [opcode .callIndirect, writeNat argc]
  | .callVirtual selector argc => joined [opcode .callVirtual, writeRef pool selector, writeNat argc]
  | .jump target => joined [opcode .jump, writeNat target]
  | .jumpIfTrue target => joined [opcode .jumpIfTrue, writeNat target]
  | .jumpIfFalse target => joined [opcode .jumpIfFalse, writeNat target]

def encodeFunction (pool : StringPool) (f : FuncDef) : Option (List UInt8) :=
  joined [writeNat f.paramCount, writeNat f.localCount, writeEach (encodeInstr pool) f.code]

def encodeType (pool : StringPool) (t : TypeDef) : Option (List UInt8) :=
  joined [writeRef pool t.name, writeNat t.fieldCount, writeEach (writeRef pool) t.fieldNames]

def encodeEnum (pool : StringPool) (e : EnumDef) : Option (List UInt8) :=
  joined [writeNat e.ty, writeRef pool e.name, writeEach (writeRef pool) e.variants]

def encodeDispatchEntry (pool : StringPool) (e : DispatchEntry) : Option (List UInt8) :=
  joined [writeNat e.typeId, writeRef pool e.selector, writeNat e.func]

namespace Section

def functions : Int64 := 1
def constants : Int64 := 2
def types : Int64 := 3
def dispatch : Int64 := 4
def globals : Int64 := 5
def entry : Int64 := 6
def symbols : Int64 := 7
def enums : Int64 := 8

end Section

/-- A section: its id, the length of the payload, and the payload. -/
def writeSection (id : Int64) (payload : List UInt8) : List UInt8 :=
  writeU8 id ++ writeUvarint (.ofNat payload.length) ++ payload

/-- The index of the function named `name`, or `-1`. -/
def findFunc (fns : List FuncDef) (name : String) : ℤ :=
  match fns.findIdx? (·.name = name) with
  | some i => i
  | none => -1

/-- The module's sections in written order, without those that are omitted when empty. -/
def moduleSections (m : Module) : Option (List (Int64 × List UInt8)) := do
  let pool := internModule m
  let consts ← writeEach (fun s => some (writeStrLp s)) pool.strings
  let types ← writeEach (encodeType pool) m.types
  let enums ← writeEach (encodeEnum pool) m.enums
  let funcs ← writeEach (encodeFunction pool) m.functions
  let symbols ← writeEach (fun f => some (writeStrLp f.name)) m.functions
  let dispatch ← writeEach (encodeDispatchEntry pool) m.dispatch
  let entryPlus1 := findFunc m.functions "main" + 1
  let initPlus1 := findFunc m.functions "<init>" + 1
  some ([(Section.constants, consts), (Section.types, types)] ++
    (if m.enums.length ≠ 0 then [(Section.enums, enums)] else []) ++
    [(Section.functions, funcs), (Section.symbols, symbols)] ++
    (if m.dispatch.length ≠ 0 then [(Section.dispatch, dispatch)] else []) ++
    (if 0 < m.globalCount then [(Section.globals, writeUvarint (.ofNat m.globalCount))] else []) ++
    (if entryPlus1 ≠ 0 ∨ initPlus1 ≠ 0 then
      [(Section.entry, writeUvarint (.ofInt entryPlus1) ++ writeUvarint (.ofInt initPlus1))]
    else []))

def magic : String := "THERA"

def version : Int64 := 3

def encodeModule (m : Module) : Option (List UInt8) := do
  let sections ← moduleSections m
  some (writeStr magic ++ writeU32Le version ++ sections.flatMap fun (id, payload) => writeSection id payload)

end Thera.Compiler
