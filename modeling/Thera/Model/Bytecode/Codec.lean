import Thera.Model.Bytecode.Module
import Thera.Model.Bytecode.Natives

/-! # The module codec

`encodeModule` and `decodeModule` follow `codec.rs`: a magic and version header, then length-prefixed
sections. Strings are interned in a first pass and referenced by pool index. The encoder is partial
where the source panics, on a string missing from the pool or a native index outside the table.
Decoding reads each section's payload on its own, so trailing payload bytes are ignored as there.
-/

namespace Thera.Bytecode

open Framing (joined readMany)

def magic : List UInt8 := [84, 72, 69, 82, 65]

/-- Current wire version, written by `encodeModule`. -/
def version : UInt32 := 3

/-- Version 2 lacks struct field names and the enums section. -/
def supportedVersions : List UInt32 := [2, 3]

namespace Section

@[match_pattern] abbrev functions : UInt8 := 1
@[match_pattern] abbrev constants : UInt8 := 2
@[match_pattern] abbrev types : UInt8 := 3
@[match_pattern] abbrev dispatch : UInt8 := 4
@[match_pattern] abbrev globals : UInt8 := 5
@[match_pattern] abbrev entry : UInt8 := 6
@[match_pattern] abbrev symbols : UInt8 := 7
@[match_pattern] abbrev enums : UInt8 := 8

end Section

namespace Op

@[match_pattern] abbrev constInt : UInt8 := 1
@[match_pattern] abbrev constDouble : UInt8 := 2
@[match_pattern] abbrev constBool : UInt8 := 3
@[match_pattern] abbrev constUnit : UInt8 := 4
@[match_pattern] abbrev constStr : UInt8 := 5
@[match_pattern] abbrev load : UInt8 := 6
@[match_pattern] abbrev store : UInt8 := 7
@[match_pattern] abbrev addI64 : UInt8 := 8
@[match_pattern] abbrev subI64 : UInt8 := 9
@[match_pattern] abbrev mulI64 : UInt8 := 10
@[match_pattern] abbrev divI64 : UInt8 := 11
@[match_pattern] abbrev modI64 : UInt8 := 12
@[match_pattern] abbrev negI64 : UInt8 := 13
@[match_pattern] abbrev addF64 : UInt8 := 14
@[match_pattern] abbrev subF64 : UInt8 := 15
@[match_pattern] abbrev mulF64 : UInt8 := 16
@[match_pattern] abbrev divF64 : UInt8 := 17
@[match_pattern] abbrev negF64 : UInt8 := 18
@[match_pattern] abbrev eqI64 : UInt8 := 19
@[match_pattern] abbrev neI64 : UInt8 := 20
@[match_pattern] abbrev ltI64 : UInt8 := 21
@[match_pattern] abbrev leI64 : UInt8 := 22
@[match_pattern] abbrev gtI64 : UInt8 := 23
@[match_pattern] abbrev geI64 : UInt8 := 24
@[match_pattern] abbrev eqF64 : UInt8 := 25
@[match_pattern] abbrev neF64 : UInt8 := 26
@[match_pattern] abbrev ltF64 : UInt8 := 27
@[match_pattern] abbrev leF64 : UInt8 := 28
@[match_pattern] abbrev gtF64 : UInt8 := 29
@[match_pattern] abbrev geF64 : UInt8 := 30
@[match_pattern] abbrev not : UInt8 := 31
@[match_pattern] abbrev i64ToF64 : UInt8 := 32
@[match_pattern] abbrev f64ToI64 : UInt8 := 33
@[match_pattern] abbrev pop : UInt8 := 34
@[match_pattern] abbrev dup : UInt8 := 35
@[match_pattern] abbrev call : UInt8 := 36
@[match_pattern] abbrev callNative : UInt8 := 37
@[match_pattern] abbrev enumNew : UInt8 := 38
@[match_pattern] abbrev enumTag : UInt8 := 39
@[match_pattern] abbrev enumGet : UInt8 := 40
@[match_pattern] abbrev listNew : UInt8 := 41
@[match_pattern] abbrev jump : UInt8 := 42
@[match_pattern] abbrev jumpIfTrue : UInt8 := 43
@[match_pattern] abbrev jumpIfFalse : UInt8 := 44
@[match_pattern] abbrev «return» : UInt8 := 45
@[match_pattern] abbrev structNew : UInt8 := 46
@[match_pattern] abbrev fieldGet : UInt8 := 47
@[match_pattern] abbrev fieldSet : UInt8 := 48
@[match_pattern] abbrev closureNew : UInt8 := 49
@[match_pattern] abbrev callIndirect : UInt8 := 50
@[match_pattern] abbrev callVirtual : UInt8 := 51
@[match_pattern] abbrev listGet : UInt8 := 52
@[match_pattern] abbrev listSet : UInt8 := 53
@[match_pattern] abbrev andI64 : UInt8 := 54
@[match_pattern] abbrev orI64 : UInt8 := 55
@[match_pattern] abbrev xorI64 : UInt8 := 56
@[match_pattern] abbrev bNotI64 : UInt8 := 57
@[match_pattern] abbrev shlI64 : UInt8 := 58
@[match_pattern] abbrev shrI64 : UInt8 := 59
@[match_pattern] abbrev uShrI64 : UInt8 := 60
@[match_pattern] abbrev listLen : UInt8 := 61
@[match_pattern] abbrev globalGet : UInt8 := 62
@[match_pattern] abbrev globalSet : UInt8 := 63

end Op

/-! ## Encoding -/

/-- The strings collected so far, each with the index it was given. -/
structure StringPool where
  strings : List String
  index : List (String × UInt32)
  indexed : index = strings.zipIdx.map fun (s, i) => (s, UInt32.ofNat i)

def StringPool.empty : StringPool := ⟨[], [], rfl⟩

/-- Intern `s`, returning its pool index and reusing an existing entry. -/
def StringPool.intern (pool : StringPool) (s : String) : UInt32 × StringPool :=
  match pool.index.lookup s with
  | some i => (i, pool)
  | none =>
      let i := UInt32.ofNat pool.strings.length
      (i, ⟨pool.strings ++ [s], pool.index ++ [(s, i)], by simp [pool.indexed, List.zipIdx_append, i]⟩)

/-- The strings an instruction refers to by pool index. -/
def Instr.strings : Instr → List String
  | .constStr s => [s]
  | .callVirtual selector _ => [selector]
  | .callNative native _ => (nativeName native).toList
  | _ => []

/-- Every string the module references, in the order of the interning pass. -/
def Module.strings (m : Module) : List String :=
  m.types.flatMap (fun t => t.name :: t.fieldNames) ++ m.enums.flatMap (fun e => e.name :: e.variants) ++
    m.functions.flatMap (fun f => f.code.flatMap Instr.strings) ++ m.dispatch.map DispatchEntry.selector

def internModule (m : Module) : StringPool :=
  m.strings.foldl (fun pool s => (pool.intern s).2) StringPool.empty

/-- A reference to an interned string; looking up any other string panics. -/
def StringPool.ref (pool : StringPool) (s : String) : Option (List UInt8) :=
  (pool.index.lookup s).map fun i => writeUvarint i.toUInt64

/-- A count followed by that many elements. -/
def writeVec {α : Type} (encode : α → Option (List UInt8)) (values : List α) : Option (List UInt8) :=
  joined (some (writeUvarint (.ofNat values.length)) :: values.map encode)

def encodeInstr (pool : StringPool) : Instr → Option (List UInt8)
  | .constInt value => joined [some (writeU8 Op.constInt), some (writeIvarint value)]
  | .constDouble value => joined [some (writeU8 Op.constDouble), some (writeF64 value)]
  | .constBool value => joined [some (writeU8 Op.constBool), some (writeU8 value.toUInt8)]
  | .constUnit => some (writeU8 Op.constUnit)
  | .constStr value => joined [some (writeU8 Op.constStr), pool.ref value]
  | .load slot => joined [some (writeU8 Op.load), some (writeUvarint slot.toUInt64)]
  | .store slot => joined [some (writeU8 Op.store), some (writeUvarint slot.toUInt64)]
  | .globalGet idx => joined [some (writeU8 Op.globalGet), some (writeUvarint idx.toUInt64)]
  | .globalSet idx => joined [some (writeU8 Op.globalSet), some (writeUvarint idx.toUInt64)]
  | .addI64 => some (writeU8 Op.addI64)
  | .subI64 => some (writeU8 Op.subI64)
  | .mulI64 => some (writeU8 Op.mulI64)
  | .divI64 => some (writeU8 Op.divI64)
  | .modI64 => some (writeU8 Op.modI64)
  | .negI64 => some (writeU8 Op.negI64)
  | .andI64 => some (writeU8 Op.andI64)
  | .orI64 => some (writeU8 Op.orI64)
  | .xorI64 => some (writeU8 Op.xorI64)
  | .bNotI64 => some (writeU8 Op.bNotI64)
  | .shlI64 => some (writeU8 Op.shlI64)
  | .shrI64 => some (writeU8 Op.shrI64)
  | .uShrI64 => some (writeU8 Op.uShrI64)
  | .addF64 => some (writeU8 Op.addF64)
  | .subF64 => some (writeU8 Op.subF64)
  | .mulF64 => some (writeU8 Op.mulF64)
  | .divF64 => some (writeU8 Op.divF64)
  | .negF64 => some (writeU8 Op.negF64)
  | .eqI64 => some (writeU8 Op.eqI64)
  | .neI64 => some (writeU8 Op.neI64)
  | .ltI64 => some (writeU8 Op.ltI64)
  | .leI64 => some (writeU8 Op.leI64)
  | .gtI64 => some (writeU8 Op.gtI64)
  | .geI64 => some (writeU8 Op.geI64)
  | .eqF64 => some (writeU8 Op.eqF64)
  | .neF64 => some (writeU8 Op.neF64)
  | .ltF64 => some (writeU8 Op.ltF64)
  | .leF64 => some (writeU8 Op.leF64)
  | .gtF64 => some (writeU8 Op.gtF64)
  | .geF64 => some (writeU8 Op.geF64)
  | .not => some (writeU8 Op.not)
  | .i64ToF64 => some (writeU8 Op.i64ToF64)
  | .f64ToI64 => some (writeU8 Op.f64ToI64)
  | .pop => some (writeU8 Op.pop)
  | .dup => some (writeU8 Op.dup)
  | .call func argc =>
      joined [some (writeU8 Op.call), some (writeUvarint func.toUInt64), some (writeUvarint argc.toUInt64)]
  | .callNative native argc =>
      joined [some (writeU8 Op.callNative), (nativeName native).bind pool.ref, some (writeUvarint argc.toUInt64)]
  | .callIndirect argc => joined [some (writeU8 Op.callIndirect), some (writeUvarint argc.toUInt64)]
  | .callVirtual selector argc =>
      joined [some (writeU8 Op.callVirtual), pool.ref selector, some (writeUvarint argc.toUInt64)]
  | .enumNew ty variant fieldCount =>
      joined [some (writeU8 Op.enumNew), some (writeUvarint ty.toUInt64), some (writeUvarint variant.toUInt64),
        some (writeUvarint fieldCount.toUInt64)]
  | .enumTag => some (writeU8 Op.enumTag)
  | .enumGet idx => joined [some (writeU8 Op.enumGet), some (writeUvarint idx.toUInt64)]
  | .structNew ty => joined [some (writeU8 Op.structNew), some (writeUvarint ty.toUInt64)]
  | .fieldGet idx => joined [some (writeU8 Op.fieldGet), some (writeUvarint idx.toUInt64)]
  | .fieldSet idx => joined [some (writeU8 Op.fieldSet), some (writeUvarint idx.toUInt64)]
  | .listNew count => joined [some (writeU8 Op.listNew), some (writeUvarint count.toUInt64)]
  | .listGet => some (writeU8 Op.listGet)
  | .listSet => some (writeU8 Op.listSet)
  | .listLen => some (writeU8 Op.listLen)
  | .closureNew func captures =>
      joined [some (writeU8 Op.closureNew), some (writeUvarint func.toUInt64), some (writeUvarint captures.toUInt64)]
  | .jump target => joined [some (writeU8 Op.jump), some (writeUvarint target)]
  | .jumpIfTrue target => joined [some (writeU8 Op.jumpIfTrue), some (writeUvarint target)]
  | .jumpIfFalse target => joined [some (writeU8 Op.jumpIfFalse), some (writeUvarint target)]
  | .«return» => some (writeU8 Op.«return»)

def encodeFunction (pool : StringPool) (f : Function) : Option (List UInt8) :=
  joined [some (writeUvarint f.paramCount.toUInt64), some (writeUvarint f.localCount.toUInt64),
    writeVec (encodeInstr pool) f.code]

def encodeType (pool : StringPool) (t : TypeDef) : Option (List UInt8) :=
  joined [pool.ref t.name, some (writeUvarint t.fieldCount.toUInt64), writeVec pool.ref t.fieldNames]

def encodeEnum (pool : StringPool) (e : EnumDef) : Option (List UInt8) :=
  joined [some (writeUvarint e.ty.toUInt64), pool.ref e.name, writeVec pool.ref e.variants]

def encodeDispatchEntry (pool : StringPool) (e : DispatchEntry) : Option (List UInt8) :=
  joined [some (writeUvarint e.ty.toUInt64), pool.ref e.selector, some (writeUvarint e.func.toUInt64)]

def writeSection (id : UInt8) (payload : List UInt8) : List UInt8 :=
  writeU8 id ++ writeUvarint (.ofNat payload.length) ++ payload

/-- The recorded entry point, or the first function of the given name. -/
def recordedOr (m : Module) (recorded : Option UInt32) (name : String) : Option UInt32 :=
  recorded <|> (m.functionIndex name).map UInt32.ofNat

/-- An entry point as `index + 1`, with `0` for an absent one; the sum wraps at `u32::MAX`. -/
def entryField (index : Option UInt32) : UInt32 := index.elim 0 (· + 1)

/-- The sections of a module in written order, without those that are omitted when empty. -/
def moduleSections (m : Module) : Option (List (UInt8 × List UInt8)) := do
  let pool := internModule m
  let consts ← writeVec (fun s => some (writeStr s)) pool.strings
  let types ← writeVec (encodeType pool) m.types
  let enums ← writeVec (encodeEnum pool) m.enums
  let funcs ← writeVec (encodeFunction pool) m.functions
  let symbols ← writeVec (fun f => some (writeStr f.name)) m.functions
  let dispatch ← writeVec (encodeDispatchEntry pool) m.dispatch
  let entry := recordedOr m m.entry "main"
  let init := recordedOr m m.init "<init>"
  some ([(Section.constants, consts), (Section.types, types)] ++
    (if m.enums.isEmpty then [] else [(Section.enums, enums)]) ++
    [(Section.functions, funcs), (Section.symbols, symbols)] ++
    (if m.dispatch.isEmpty then [] else [(Section.dispatch, dispatch)]) ++
    (if 0 < m.globalCount then [(Section.globals, writeUvarint m.globalCount.toUInt64)] else []) ++
    (if entry.isSome || init.isSome then
      [(Section.entry, writeUvarint (entryField entry).toUInt64 ++ writeUvarint (entryField init).toUInt64)]
    else []))

def encodeModule (m : Module) : Option (List UInt8) := do
  let sections ← moduleSections m
  some (magic ++ writeU32Le version ++ sections.flatMap fun (id, payload) => writeSection id payload)

/-! ## Decoding -/

/-- A count followed by that many elements. -/
def readVec {α : Type} (run : Reader α) : Reader (List α) := do readMany run (← readUvarint).toNat

/-- The string a pool index refers to. -/
def poolGet (pool : List String) (idx : UInt64) : Reader String :=
  match pool[idx.toNat]? with
  | some s => pure s
  | none => throw .constIndexOutOfRange

def pooled (pool : List String) : Reader String := do poolGet pool (← readUvarint)

/-- Resolve a native by name; a runtime may lack one that a newer front-end calls. -/
def nativeOf (name : String) : Reader UInt32 :=
  match nativeIndex name with
  | some native => pure native
  | none => throw (.unknownNative name)

def decodeOperands (pool : List String) (opcode : UInt8) : Reader Instr := do
  match opcode with
  | Op.constInt => return .constInt (← readIvarint)
  | Op.constDouble => return .constDouble (← readF64)
  | Op.constBool => return .constBool ((← readU8) != 0)
  | Op.constUnit => return .constUnit
  | Op.constStr => return .constStr (← pooled pool)
  | Op.load => return .load ((← readUvarint).toUInt16)
  | Op.store => return .store ((← readUvarint).toUInt16)
  | Op.globalGet => return .globalGet ((← readUvarint).toUInt32)
  | Op.globalSet => return .globalSet ((← readUvarint).toUInt32)
  | Op.addI64 => return .addI64
  | Op.subI64 => return .subI64
  | Op.mulI64 => return .mulI64
  | Op.divI64 => return .divI64
  | Op.modI64 => return .modI64
  | Op.negI64 => return .negI64
  | Op.andI64 => return .andI64
  | Op.orI64 => return .orI64
  | Op.xorI64 => return .xorI64
  | Op.bNotI64 => return .bNotI64
  | Op.shlI64 => return .shlI64
  | Op.shrI64 => return .shrI64
  | Op.uShrI64 => return .uShrI64
  | Op.addF64 => return .addF64
  | Op.subF64 => return .subF64
  | Op.mulF64 => return .mulF64
  | Op.divF64 => return .divF64
  | Op.negF64 => return .negF64
  | Op.eqI64 => return .eqI64
  | Op.neI64 => return .neI64
  | Op.ltI64 => return .ltI64
  | Op.leI64 => return .leI64
  | Op.gtI64 => return .gtI64
  | Op.geI64 => return .geI64
  | Op.eqF64 => return .eqF64
  | Op.neF64 => return .neF64
  | Op.ltF64 => return .ltF64
  | Op.leF64 => return .leF64
  | Op.gtF64 => return .gtF64
  | Op.geF64 => return .geF64
  | Op.not => return .not
  | Op.i64ToF64 => return .i64ToF64
  | Op.f64ToI64 => return .f64ToI64
  | Op.pop => return .pop
  | Op.dup => return .dup
  | Op.call => return .call ((← readUvarint).toUInt32) ((← readUvarint).toUInt8)
  | Op.callNative => return .callNative (← nativeOf (← pooled pool)) ((← readUvarint).toUInt8)
  | Op.callIndirect => return .callIndirect ((← readUvarint).toUInt8)
  | Op.callVirtual => return .callVirtual (← pooled pool) ((← readUvarint).toUInt8)
  | Op.enumNew =>
      return .enumNew ((← readUvarint).toUInt32) ((← readUvarint).toUInt16) ((← readUvarint).toUInt8)
  | Op.enumTag => return .enumTag
  | Op.enumGet => return .enumGet ((← readUvarint).toUInt16)
  | Op.structNew => return .structNew ((← readUvarint).toUInt32)
  | Op.fieldGet => return .fieldGet ((← readUvarint).toUInt16)
  | Op.fieldSet => return .fieldSet ((← readUvarint).toUInt16)
  | Op.listNew => return .listNew ((← readUvarint).toUInt32)
  | Op.listGet => return .listGet
  | Op.listSet => return .listSet
  | Op.listLen => return .listLen
  | Op.closureNew => return .closureNew ((← readUvarint).toUInt32) ((← readUvarint).toUInt8)
  | Op.jump => return .jump (← readUvarint)
  | Op.jumpIfTrue => return .jumpIfTrue (← readUvarint)
  | Op.jumpIfFalse => return .jumpIfFalse (← readUvarint)
  | Op.«return» => return .«return»
  | other => throw (.unknownOpcode other)

def decodeInstr (pool : List String) : Reader Instr := do decodeOperands pool (← readU8)

/-- The name lives in the symbols section; the decoder fills it in afterward. -/
def decodeFunction (pool : List String) : Reader Function := do
  let paramCount := (← readUvarint).toUInt16
  let localCount := (← readUvarint).toUInt16
  let code ← readVec (decodeInstr pool)
  return ⟨"", paramCount, localCount, code⟩

def decodeType (pool : List String) (version : UInt32) : Reader TypeDef := do
  let name ← pooled pool
  let fieldCount := (← readUvarint).toUInt16
  -- version 2 stops at the field count
  if version < 3 then return .new name fieldCount
  else
    let fieldNames ← readVec (pooled pool)
    return if fieldNames.isEmpty then .new name fieldCount else .named name fieldNames

def decodeEnum (pool : List String) : Reader EnumDef := do
  let ty := (← readUvarint).toUInt32
  let name ← pooled pool
  let variants ← readVec (pooled pool)
  return ⟨ty, name, variants⟩

def decodeDispatchEntry (pool : List String) : Reader DispatchEntry := do
  let ty := (← readUvarint).toUInt32
  let selector ← pooled pool
  let func := (← readUvarint).toUInt32
  return ⟨ty, selector, func⟩

/-- An entry point stored as `index + 1`, with `0` for an absent one. -/
def decodeOptIndex (raw : UInt64) : Option UInt32 := if raw ≠ 0 then some (raw - 1).toUInt32 else none

def decodeEntry : Reader (Option UInt32 × Option UInt32) := do
  let entry := decodeOptIndex (← readUvarint)
  let init := decodeOptIndex (← readUvarint)
  return (entry, init)

/-- The section payloads found so far; a repeated section replaces the earlier one. -/
structure Payloads where
  consts : Option (List UInt8) := none
  types : Option (List UInt8) := none
  enums : Option (List UInt8) := none
  funcs : Option (List UInt8) := none
  symbols : Option (List UInt8) := none
  dispatch : Option (List UInt8) := none
  globals : Option (List UInt8) := none
  entry : Option (List UInt8) := none

def Payloads.record (found : Payloads) (id : UInt8) (payload : List UInt8) : Payloads :=
  match id with
  | Section.constants => { found with consts := some payload }
  | Section.types => { found with types := some payload }
  | Section.enums => { found with enums := some payload }
  | Section.functions => { found with funcs := some payload }
  | Section.symbols => { found with symbols := some payload }
  | Section.dispatch => { found with dispatch := some payload }
  | Section.globals => { found with globals := some payload }
  | Section.entry => { found with entry := some payload }
  | _ => found

def readSection : Reader (UInt8 × List UInt8) := do
  let id ← readU8
  let len ← readUvarint
  return (id, ← take len.toNat)

/-- Collect sections while bytes are left. Each turn consumes at least an id byte, so `fuel` turns are
enough for as many bytes. -/
def readSections : ℕ → Payloads → Reader Payloads
  | 0, found => pure found
  | fuel + 1, found => do
      if (← get).isEmpty then return found
      else
        let (id, payload) ← readSection
        readSections fuel (found.record id payload)

/-- Read a whole section payload, or fall back when the section is absent. -/
def payloadOr {α : Type} (payload : Option (List UInt8)) (default : α) (run : Reader α) : Except DecodeError α :=
  match payload with
  | some bytes => run.run' bytes
  | none => .ok default

/-- Give each function its symbol, or a placeholder where the table has none. -/
def nameFunctions (symbols : List String) (functions : List Function) : List Function :=
  functions.mapIdx fun i f => { f with name := symbols[i]?.getD s!"fn#{i}" }

/-- Assemble the module from its section payloads. -/
def decodeSections (version : UInt32) (found : Payloads) : Except DecodeError Module := do
  -- The constant pool must be available before types and bodies.
  let pool ← payloadOr found.consts [] (readVec readStr)
  let types ← payloadOr found.types [] (readVec (decodeType pool version))
  let functions ← payloadOr found.funcs [] (readVec (decodeFunction pool))
  let symbols ← payloadOr found.symbols [] (readVec readStr)
  let m := Module.withTypes (nameFunctions symbols functions) types
  let enums ← payloadOr found.enums m.enums (readVec (decodeEnum pool))
  let dispatch ← payloadOr found.dispatch m.dispatch (readVec (decodeDispatchEntry pool))
  let globalCount ← payloadOr found.globals m.globalCount (UInt64.toUInt32 <$> readUvarint)
  let (entry, init) ← payloadOr found.entry (m.entry, m.init) decodeEntry
  return { m.setDispatch dispatch with enums, globalCount, entry, init }

def readHeader : Reader UInt32 := do
  if (← take magic.length) ≠ magic then throw .badMagic
  else
    let version ← readU32Le
    if version ∉ supportedVersions then throw (.unsupportedVersion version) else return version

def decodeModule (bytes : List UInt8) : Except DecodeError Module := do
  let (version, rest) ← readHeader bytes
  let (found, _) ← readSections rest.length {} rest
  decodeSections version found

end Thera.Bytecode
