import Thera.Model.Compiler.Encoder
import Thera.Proofs.Compiler.Tables
import Thera.Soundness.CodecRoundTrip

/-! # The two encoders agree

The front-end and the runtime encode modules independently: over signed 64-bit integers and over
fixed-width unsigned ones, from different instruction types and opcode tables. On modules that
correspond field by field both build the same string pool and write the same bytes, as long as the
indices the runtime narrows to 32 bits fit there.
-/

namespace Thera.Compiler

open Framing (joined)

/-! ## Integers -/

private theorem low_byte (x : Int64) : (x &&& 0x7f).toUInt64.toUInt8 = (x.toUInt64 &&& 0x7f).toUInt8 := by
  rw [Int64.toUInt64_and]
  rfl

private theorem high_flag (x : Int64) : (x ||| 0x80).toUInt64.toUInt8 = x.toUInt64.toUInt8 ||| 0x80 := by
  rw [Int64.toUInt64_or, UInt64.toUInt8_or]
  rfl

private theorem eq_zero_iff (x : Int64) : x = 0 ↔ x.toUInt64 = 0 := by
  constructor
  · rintro rfl
    rfl
  · exact fun zero => congrArg UInt64.toInt64 zero

/-- A bit of the low byte can be tested before or after the rest is cut off. -/
private theorem masked_byte (x : UInt64) {mask : UInt64} (small : mask.toNat < 256) :
    (x &&& mask).toUInt8 = 0 ↔ x &&& mask = 0 := by
  have bound : (x &&& mask).toNat < 2 ^ 8 := by
    rw [UInt64.toNat_and]
    exact Nat.lt_of_le_of_lt Nat.and_le_right small
  rw [← UInt8.toNat_inj, ← UInt64.toNat_inj, UInt64.toNat_toUInt8, Nat.mod_eq_of_lt bound]
  rfl

private theorem sign_set (x : Int64) : x &&& 0x40 ≠ 0 ↔ x.toUInt64.toUInt8 &&& 0x40 ≠ 0 := by
  have same : (x &&& 0x40).toUInt64 = x.toUInt64 &&& 0x40 := by
    rw [Int64.toUInt64_and]
    rfl
  rw [ne_eq, ne_eq, eq_zero_iff, same, ← masked_byte x.toUInt64 (by decide), UInt64.toUInt8_and]
  rfl

theorem uvarintBytes_eq (fuel : ℕ) (x : Int64) :
    BytesBuilder.uvarintBytes fuel x = Bytecode.uvarintBytes fuel x.toUInt64 := by
  induction fuel generalizing x with
  | zero => exact congrArg (fun byte => [byte]) (low_byte x)
  | succ fuel ih =>
    have rest : (BytesBuilder.ushr x 7).toUInt64 = x.toUInt64 >>> 7 := rfl
    simp only [BytesBuilder.uvarintBytes, Bytecode.uvarintBytes, BytesBuilder.writeU8, ne_eq, eq_zero_iff, ih, rest,
      high_flag, low_byte, List.singleton_append]

theorem ivarintBytes_eq (fuel : ℕ) (x : Int64) :
    BytesBuilder.ivarintBytes fuel x = Bytecode.ivarintBytes fuel x := by
  induction fuel generalizing x with
  | zero => rfl
  | succ fuel ih =>
    simp only [BytesBuilder.ivarintBytes, Bytecode.ivarintBytes, BytesBuilder.writeU8, sign_set, ih, high_flag,
      List.singleton_append]

/-- A count or an operand is the same varint in both encoders. -/
theorem writeNat_eq (n : ℕ) : writeNat n = some (Bytecode.writeUvarint (.ofNat n)) := by
  rw [writeNat, BytesBuilder.writeUvarint, uvarintBytes_eq]
  rfl

theorem writeNat_u8 (v : UInt8) : writeNat v.toNat = some (Bytecode.writeUvarint v.toUInt64) := by
  rw [writeNat_eq, ← UInt8.toNat_toUInt64, UInt64.ofNat_toNat]

theorem writeNat_u16 (v : UInt16) : writeNat v.toNat = some (Bytecode.writeUvarint v.toUInt64) := by
  rw [writeNat_eq, ← UInt16.toNat_toUInt64, UInt64.ofNat_toNat]

theorem writeNat_u32 (v : UInt32) : writeNat v.toNat = some (Bytecode.writeUvarint v.toUInt64) := by
  rw [writeNat_eq, ← UInt32.toNat_toUInt64, UInt64.ofNat_toNat]

theorem writeNat_u64 (v : UInt64) : writeNat v.toNat = some (Bytecode.writeUvarint v) := by
  rw [writeNat_eq, UInt64.ofNat_toNat]

theorem writeStrLp_eq (s : String) : writeStrLp s = Bytecode.writeStr s := by
  rw [writeStrLp, BytesBuilder.writeUvarint, uvarintBytes_eq]
  rfl

/-! ## The string pool -/

/-- The front-end's pool and the runtime's hold the same strings at the same positions. -/
structure PoolsAgree (front : StringPool) (pool : Bytecode.StringPool) : Prop where
  strings : front.strings = pool.strings
  index : ∀ s, front.index.get s = pool.strings.zipIdx.lookup s

theorem lookup_index (pool : Bytecode.StringPool) (s : String) :
    pool.index.lookup s = (pool.strings.zipIdx.lookup s).map UInt32.ofNat := by
  rw [pool.indexed]
  induction pool.strings.zipIdx with
  | nil => rfl
  | cons entry entries ih =>
    rw [List.map_cons, List.lookup_cons, List.lookup_cons, ih]
    cases s == entry.1 <;> rfl

variable {pool : Bytecode.StringPool} {front : Module} {m : Bytecode.Module}

theorem PoolsAgree.intern {front : StringPool} (agree : PoolsAgree front pool) (s : String) :
    PoolsAgree (front.intern s).2 (pool.intern s).2 := by
  have found := agree.index s
  have narrowed := lookup_index pool s
  rw [StringPool.intern, Bytecode.StringPool.intern]
  cases present : pool.strings.zipIdx.lookup s with
  | some i =>
    rw [present] at found narrowed
    simp only [found, narrowed, Option.map_some]
    exact agree
  | none =>
    rw [present] at found narrowed
    simp only [found, narrowed, Option.map_none]
    refine ⟨congrArg (· ++ [s]) agree.strings, fun t => ?_⟩
    rw [Table.get_set, agree.index, agree.strings, List.zipIdx_append, List.zipIdx_singleton, List.lookup_append]
    by_cases same : s = t
    · subst same
      simp [present]
    · simp [same, List.lookup_cons, beq_eq_false_iff_ne.mpr (Ne.symm same)]

theorem PoolsAgree.foldl {front : StringPool} (agree : PoolsAgree front pool) (strings : List String) :
    PoolsAgree (strings.foldl (fun pool s => (pool.intern s).2) front)
      (strings.foldl (fun pool s => (pool.intern s).2) pool) := by
  induction strings generalizing front pool with
  | nil => exact agree
  | cons s strings ih => exact ih (agree.intern s)

private theorem lookup_zipIdx_lt {strings : List String} {s : String} {i : ℕ}
    (found : strings.zipIdx.lookup s = some i) : i < strings.length := by
  obtain ⟨before, after, split, -⟩ := List.lookup_eq_some_iff.mp found
  have member : (s, i) ∈ strings.zipIdx := by simp [split]
  exact (List.mem_zipIdx member).2.1.trans_eq (Nat.zero_add _)

/-- A reference to a string is the same, as long as no pool index was cut to 32 bits. -/
theorem PoolsAgree.ref {front : StringPool} (agree : PoolsAgree front pool) (narrow : pool.strings.length ≤ 2 ^ 32)
    (s : String) : writeRef front s = pool.ref s := by
  rw [writeRef, StringPool.indexOf, Bytecode.StringPool.ref, agree.index, lookup_index]
  cases found : pool.strings.zipIdx.lookup s with
  | none => rfl
  | some i =>
    have small : i < 2 ^ 32 := Nat.lt_of_lt_of_le (lookup_zipIdx_lt found) narrow
    have exact_ := writeNat_u32 (.ofNat i)
    rw [UInt32.toNat_ofNat_of_lt' small] at exact_
    exact exact_

/-! ## Modules that correspond -/

/-- The runtime's instruction for an opcode without operands. -/
def Op.runtime : Op → Option Bytecode.Instr
  | .constUnit => some .constUnit
  | .addI64 => some .addI64
  | .subI64 => some .subI64
  | .mulI64 => some .mulI64
  | .divI64 => some .divI64
  | .modI64 => some .modI64
  | .negI64 => some .negI64
  | .addF64 => some .addF64
  | .subF64 => some .subF64
  | .mulF64 => some .mulF64
  | .divF64 => some .divF64
  | .negF64 => some .negF64
  | .eqI64 => some .eqI64
  | .neI64 => some .neI64
  | .ltI64 => some .ltI64
  | .leI64 => some .leI64
  | .gtI64 => some .gtI64
  | .geI64 => some .geI64
  | .eqF64 => some .eqF64
  | .neF64 => some .neF64
  | .ltF64 => some .ltF64
  | .leF64 => some .leF64
  | .gtF64 => some .gtF64
  | .geF64 => some .geF64
  | .not => some .not
  | .i64ToF64 => some .i64ToF64
  | .f64ToI64 => some .f64ToI64
  | .pop => some .pop
  | .dup => some .dup
  | .enumTag => some .enumTag
  | .return => some .return
  | .listGet => some .listGet
  | .listSet => some .listSet
  | .listLen => some .listLen
  | .andI64 => some .andI64
  | .orI64 => some .orI64
  | .xorI64 => some .xorI64
  | .bnotI64 => some .bNotI64
  | .shlI64 => some .shlI64
  | .shrI64 => some .shrI64
  | .uShrI64 => some .uShrI64
  | _ => none

/-- The same instruction with the same operand values; a native is named in one and numbered in
the other. -/
inductive Instr.Corresponds : Instr → Bytecode.Instr → Prop
  | simple {op : Op} {instr : Bytecode.Instr} (same : op.runtime = some instr) : Corresponds (.simple op) instr
  | constInt (value : Int64) : Corresponds (.constInt value.toInt) (.constInt value)
  | constDouble (value : Bytecode.F64) : Corresponds (.constDouble value) (.constDouble value)
  | constBool (value : Bool) : Corresponds (.constBool value) (.constBool value)
  | constStr (value : String) : Corresponds (.constStr value) (.constStr value)
  | load (slot : UInt16) : Corresponds (.load slot.toNat) (.load slot)
  | store (slot : UInt16) : Corresponds (.store slot.toNat) (.store slot)
  | globalGet (slot : UInt32) : Corresponds (.globalGet slot.toNat) (.globalGet slot)
  | globalSet (slot : UInt32) : Corresponds (.globalSet slot.toNat) (.globalSet slot)
  | call (func : UInt32) (argc : UInt8) : Corresponds (.call func.toNat argc.toNat) (.call func argc)
  | callNative {name : String} {native : UInt32} (named : Bytecode.nativeName native = some name) (argc : UInt8) :
      Corresponds (.callNative name argc.toNat) (.callNative native argc)
  | enumNew (ty : UInt32) (variant : UInt16) (fieldCount : UInt8) :
      Corresponds (.enumNew ty.toNat variant.toNat fieldCount.toNat) (.enumNew ty variant fieldCount)
  | enumGet (field : UInt16) : Corresponds (.enumGet field.toNat) (.enumGet field)
  | structNew (ty : UInt32) : Corresponds (.structNew ty.toNat) (.structNew ty)
  | fieldGet (field : UInt16) : Corresponds (.fieldGet field.toNat) (.fieldGet field)
  | fieldSet (field : UInt16) : Corresponds (.fieldSet field.toNat) (.fieldSet field)
  | listNew (count : UInt32) : Corresponds (.listNew count.toNat) (.listNew count)
  | closureNew (func : UInt32) (captures : UInt8) :
      Corresponds (.closureNew func.toNat captures.toNat) (.closureNew func captures)
  | callIndirect (argc : UInt8) : Corresponds (.callIndirect argc.toNat) (.callIndirect argc)
  | callVirtual (selector : String) (argc : UInt8) :
      Corresponds (.callVirtual selector argc.toNat) (.callVirtual selector argc)
  | jump (target : UInt64) : Corresponds (.jump target.toNat) (.jump target)
  | jumpIfTrue (target : UInt64) : Corresponds (.jumpIfTrue target.toNat) (.jumpIfTrue target)
  | jumpIfFalse (target : UInt64) : Corresponds (.jumpIfFalse target.toNat) (.jumpIfFalse target)

structure FuncDef.Corresponds (f : FuncDef) (g : Bytecode.Function) : Prop where
  name : f.name = g.name
  paramCount : f.paramCount = g.paramCount.toNat
  localCount : f.localCount = g.localCount.toNat
  code : List.Forall₂ Instr.Corresponds f.code g.code

structure TypeDef.Corresponds (t : TypeDef) (u : Bytecode.TypeDef) : Prop where
  name : t.name = u.name
  fieldCount : t.fieldCount = u.fieldCount.toNat
  fieldNames : t.fieldNames = u.fieldNames

structure EnumDef.Corresponds (e : EnumDef) (d : Bytecode.EnumDef) : Prop where
  ty : e.ty = d.ty.toNat
  name : e.name = d.name
  variants : e.variants = d.variants

structure DispatchEntry.Corresponds (e : DispatchEntry) (d : Bytecode.DispatchEntry) : Prop where
  typeId : e.typeId = d.ty.toNat
  selector : e.selector = d.selector
  func : e.func = d.func.toNat

/-- The runtime module has the front-end module's contents and no recorded entry points. -/
structure Module.Corresponds (front : Module) (m : Bytecode.Module) : Prop where
  functions : List.Forall₂ FuncDef.Corresponds front.functions m.functions
  types : List.Forall₂ TypeDef.Corresponds front.types m.types
  enums : List.Forall₂ EnumDef.Corresponds front.enums m.enums
  dispatch : List.Forall₂ DispatchEntry.Corresponds front.dispatch m.dispatch
  globalCount : front.globalCount = m.globalCount.toNat
  entry : m.entry = none
  init : m.init = none

private theorem map_eq_of_forall₂ {α β γ : Type} {R : α → β → Prop} {f : α → γ} {g : β → γ} {xs : List α} {ys : List β}
    (related : List.Forall₂ R xs ys) (same : ∀ x y, R x y → f x = g y) : xs.map f = ys.map g := by
  induction related with
  | nil => rfl
  | cons head _ ih => rw [List.map_cons, List.map_cons, same _ _ head, ih]

private theorem flatMap_eq_of_forall₂ {α β γ : Type} {R : α → β → Prop} {f : α → List γ} {g : β → List γ}
    {xs : List α} {ys : List β} (related : List.Forall₂ R xs ys) (same : ∀ x y, R x y → f x = g y) :
    xs.flatMap f = ys.flatMap g := by
  rw [List.flatMap_def, List.flatMap_def, map_eq_of_forall₂ related same]

/-! ## Strings of corresponding modules -/

theorem Instr.Corresponds.strings {instr : Instr} {code : Bytecode.Instr} (same : instr.Corresponds code) :
    instr.strings = code.strings := by
  cases same with
  | @simple op _ found => cases op <;> cases found <;> rfl
  | callNative named argc =>
    rw [Instr.strings, Bytecode.Instr.strings, named]
    rfl
  | _ => rfl

theorem Module.Corresponds.strings (same : front.Corresponds m) : front.strings = m.strings := by
  rw [Module.strings, Bytecode.Module.strings]
  congr 1
  · congr 1
    · congr 1
      · exact flatMap_eq_of_forall₂ same.types fun t u pair => by rw [pair.name, pair.fieldNames]
      · exact flatMap_eq_of_forall₂ same.enums fun e d pair => by rw [pair.name, pair.variants]
    · exact flatMap_eq_of_forall₂ same.functions fun f g pair =>
        flatMap_eq_of_forall₂ pair.code fun _ _ => Instr.Corresponds.strings
  · exact map_eq_of_forall₂ same.dispatch fun e d pair => pair.selector

theorem Module.Corresponds.pools (same : front.Corresponds m) :
    PoolsAgree (internModule front) (Bytecode.internModule m) := by
  rw [internModule, Bytecode.internModule, same.strings]
  exact PoolsAgree.foldl ⟨rfl, fun _ => rfl⟩ m.strings

/-! ## Sections -/

theorem writeEach_eq {α β : Type} {R : α → β → Prop} {f : α → Option (List UInt8)} {g : β → Option (List UInt8)}
    {xs : List α} {ys : List β} (related : List.Forall₂ R xs ys) (same : ∀ x y, R x y → f x = g y) :
    writeEach f xs = Bytecode.writeVec g ys := by
  rw [writeEach, Bytecode.writeVec, writeNat_eq, related.length_eq, map_eq_of_forall₂ related same]

section

variable {front : StringPool} {pool : Bytecode.StringPool}

theorem PoolsAgree.refs (agree : PoolsAgree front pool) (narrow : pool.strings.length ≤ 2 ^ 32)
    (names : List String) : writeEach (writeRef front) names = Bytecode.writeVec pool.ref names :=
  writeEach_eq (List.forall₂_same.mpr fun _ _ => rfl) fun s _ pair => pair ▸ agree.ref narrow s

theorem PoolsAgree.instr (agree : PoolsAgree front pool) (narrow : pool.strings.length ≤ 2 ^ 32)
    (instr : Instr) (code : Bytecode.Instr) (same : instr.Corresponds code) :
    encodeInstr front instr = Bytecode.encodeInstr pool code := by
  cases same with
  | @simple op _ found => cases op <;> cases found <;> rfl
  | constInt value =>
    rw [encodeInstr, Int64.ofInt_toInt, BytesBuilder.writeIvarint, ivarintBytes_eq]
    rfl
  | constBool value => cases value <;> rfl
  | callNative named argc =>
    rw [encodeInstr, Bytecode.encodeInstr, named, writeNat_u8, agree.ref narrow]
    rfl
  | _ =>
    simp only [encodeInstr, Bytecode.encodeInstr, writeNat_u8, writeNat_u16, writeNat_u32, writeNat_u64,
      agree.ref narrow, show BytesBuilder.writeF64Le _ = Bytecode.writeF64 _ from rfl]
    rfl

theorem PoolsAgree.function (agree : PoolsAgree front pool) (narrow : pool.strings.length ≤ 2 ^ 32)
    (f : FuncDef) (g : Bytecode.Function) (same : f.Corresponds g) :
    encodeFunction front f = Bytecode.encodeFunction pool g := by
  rw [encodeFunction, Bytecode.encodeFunction, same.paramCount, same.localCount, writeNat_u16, writeNat_u16,
    writeEach_eq same.code (agree.instr narrow)]

section

variable (agree : PoolsAgree front pool) (narrow : pool.strings.length ≤ 2 ^ 32)

include agree narrow

theorem PoolsAgree.type (t : TypeDef) (u : Bytecode.TypeDef) (same : t.Corresponds u) :
    encodeType front t = Bytecode.encodeType pool u := by
  rw [encodeType, Bytecode.encodeType, same.name, same.fieldCount, same.fieldNames, writeNat_u16, agree.ref narrow,
    agree.refs narrow]

theorem PoolsAgree.enum (e : EnumDef) (d : Bytecode.EnumDef) (same : e.Corresponds d) :
    encodeEnum front e = Bytecode.encodeEnum pool d := by
  rw [encodeEnum, Bytecode.encodeEnum, same.ty, same.name, same.variants, writeNat_u32, agree.ref narrow,
    agree.refs narrow]

theorem PoolsAgree.dispatchEntry (e : DispatchEntry) (d : Bytecode.DispatchEntry) (same : e.Corresponds d) :
    encodeDispatchEntry front e = Bytecode.encodeDispatchEntry pool d := by
  rw [encodeDispatchEntry, Bytecode.encodeDispatchEntry, same.typeId, same.selector, same.func, writeNat_u32,
    writeNat_u32, agree.ref narrow]

end

end

/-- A section as the runtime numbers it. -/
def runtimeSection (written : Int64 × List UInt8) : UInt8 × List UInt8 := (written.1.toUInt64.toUInt8, written.2)

theorem writeSection_eq (written : Int64 × List UInt8) :
    writeSection written.1 written.2 =
      Bytecode.writeSection (runtimeSection written).1 (runtimeSection written).2 := by
  rw [writeSection, BytesBuilder.writeUvarint, uvarintBytes_eq]
  rfl

/-- The entry section the front-end writes, if any. -/
def entrySection (fns : List FuncDef) : List (Int64 × List UInt8) :=
  let entryPlus1 := findFunc fns "main" + 1
  let initPlus1 := findFunc fns "<init>" + 1
  if entryPlus1 ≠ 0 ∨ initPlus1 ≠ 0 then
    [(Section.entry, BytesBuilder.writeUvarint (.ofInt entryPlus1) ++ BytesBuilder.writeUvarint (.ofInt initPlus1))]
  else []

/-- The entry section the runtime writes, if any. -/
def runtimeEntrySection (m : Bytecode.Module) : List (UInt8 × List UInt8) :=
  let entry := Bytecode.recordedOr m m.entry "main"
  let init := Bytecode.recordedOr m m.init "<init>"
  if entry.isSome || init.isSome then
    [(Bytecode.Section.entry, Bytecode.writeUvarint (Bytecode.entryField entry).toUInt64 ++
      Bytecode.writeUvarint (Bytecode.entryField init).toUInt64)]
  else []

/-- Up to the entry section both encoders write the same sections. -/
theorem moduleSections_agree (same : front.Corresponds m) (narrow : (Bytecode.internModule m).strings.length ≤ 2 ^ 32) :
    ∃ body : Option (List (UInt8 × List UInt8)), (moduleSections front).map (List.map runtimeSection) =
        body.map (· ++ (entrySection front.functions).map runtimeSection) ∧
      Bytecode.moduleSections m = body.map (· ++ runtimeEntrySection m) := by
  have agree := same.pools
  have consts : writeEach (fun s => some (writeStrLp s)) (internModule front).strings =
      Bytecode.writeVec (fun s => some (Bytecode.writeStr s)) (Bytecode.internModule m).strings := by
    rw [agree.strings]
    exact writeEach_eq (List.forall₂_same.mpr fun _ _ => rfl) fun s _ pair => pair ▸ congrArg some (writeStrLp_eq s)
  have types := writeEach_eq same.types (agree.type narrow)
  have enums := writeEach_eq same.enums (agree.enum narrow)
  have funcs := writeEach_eq same.functions (agree.function narrow)
  have symbols : writeEach (fun f => some (writeStrLp f.name)) front.functions =
      Bytecode.writeVec (fun f => some (Bytecode.writeStr f.name)) m.functions :=
    writeEach_eq same.functions fun f g pair => by rw [writeStrLp_eq, pair.name]
  have dispatch := writeEach_eq same.dispatch (agree.dispatchEntry narrow)
  have enumsEmpty : front.enums.length ≠ 0 ↔ ¬ m.enums.isEmpty := by
    rw [same.enums.length_eq, List.isEmpty_iff_length_eq_zero]
  have dispatchEmpty : front.dispatch.length ≠ 0 ↔ ¬ m.dispatch.isEmpty := by
    rw [same.dispatch.length_eq, List.isEmpty_iff_length_eq_zero]
  have globals : some (BytesBuilder.writeUvarint (.ofNat front.globalCount)) =
      some (Bytecode.writeUvarint m.globalCount.toUInt64) := same.globalCount ▸ writeNat_u32 m.globalCount
  have counted : 0 < front.globalCount ↔ 0 < m.globalCount := by rw [same.globalCount]; rfl
  rw [moduleSections, Bytecode.moduleSections, consts, types, enums, funcs, symbols, dispatch]
  simp only [enumsEmpty, dispatchEmpty, counted, Option.some.inj globals]
  -- a failing writer fails both encoders
  generalize Bytecode.writeVec _ _ = consts
  generalize Bytecode.writeVec _ _ = types
  generalize Bytecode.writeVec _ _ = enums
  generalize Bytecode.writeVec _ _ = funcs
  generalize Bytecode.writeVec _ _ = symbols
  generalize Bytecode.writeVec _ _ = dispatch
  cases consts with
  | none => exact ⟨none, rfl, rfl⟩
  | some consts =>
  cases types with
  | none => exact ⟨none, rfl, rfl⟩
  | some types =>
  cases enums with
  | none => exact ⟨none, rfl, rfl⟩
  | some enums =>
  cases funcs with
  | none => exact ⟨none, rfl, rfl⟩
  | some funcs =>
  cases symbols with
  | none => exact ⟨none, rfl, rfl⟩
  | some symbols =>
  cases dispatch with
  | none => exact ⟨none, rfl, rfl⟩
  | some dispatch =>
  refine ⟨some _, ?_, rfl⟩
  simp only [bind, Option.bind_some, Option.map_some, List.map_append, ite_not, entrySection,
    apply_ite (List.map runtimeSection)]
  rfl

/-! ## Entry points -/

theorem findFunc_eq {fns : List FuncDef} {functions : List Bytecode.Function}
    (same : List.Forall₂ FuncDef.Corresponds fns functions) (name : String) :
    findFunc fns name = (functions.findIdx? (·.name = name)).elim (-1) Nat.cast := by
  have found : fns.findIdx? (·.name = name) = functions.findIdx? (·.name = name) := by
    induction same with
    | nil => rfl
    | cons head _ ih => simp only [List.findIdx?_cons, head.name, ih]
  rw [findFunc, found]
  cases functions.findIdx? (·.name = name) <;> rfl

/-- The field of an entry point is the same, as long as `index + 1` fits 32 bits. -/
theorem entryField_eq (same : front.Corresponds m) (name : String) (near : ∀ i ∈ m.functionIndex name, i < 2 ^ 32 - 1) :
    (findFunc front.functions name + 1 ≠ 0 ↔ (Bytecode.recordedOr m none name).isSome) ∧
      BytesBuilder.writeUvarint (.ofInt (findFunc front.functions name + 1)) =
        Bytecode.writeUvarint (Bytecode.entryField (Bytecode.recordedOr m none name)).toUInt64 := by
  have resolved : Bytecode.recordedOr m none name = (m.functionIndex name).map UInt32.ofNat := rfl
  rw [resolved, findFunc_eq same.functions]
  change ((m.functionIndex name).elim (-1) Nat.cast + 1 ≠ 0 ↔ _) ∧ BytesBuilder.writeUvarint (.ofInt
    ((m.functionIndex name).elim (-1) Nat.cast + 1)) = _
  cases found : m.functionIndex name with
  | none => exact ⟨by simp, by decide⟩
  | some i =>
    have small := near i found
    refine ⟨by simp; omega, ?_⟩
    have field : (Bytecode.entryField (some (UInt32.ofNat i))).toNat = i + 1 := by
      change (UInt32.ofNat i + 1).toNat = _
      rw [UInt32.toNat_add, UInt32.toNat_ofNat_of_lt' (Nat.lt_of_lt_of_le small (by decide))]
      exact Nat.mod_eq_of_lt (Nat.add_lt_of_lt_sub small)
    have written := writeNat_u32 (Bytecode.entryField (some (UInt32.ofNat i)))
    rw [field] at written
    exact Option.some.inj written

/-- The file made of some sections. -/
def assemble (sections : List (UInt8 × List UInt8)) : List UInt8 :=
  Bytecode.magic ++ Bytecode.writeU32Le Bytecode.version ++
    sections.flatMap fun (id, payload) => Bytecode.writeSection id payload

theorem encodeModule_eq (front : Module) :
    encodeModule front = ((moduleSections front).map (List.map runtimeSection)).map assemble := by
  rw [encodeModule]
  cases moduleSections front with
  | none => rfl
  | some sections =>
    rw [Option.map_some, Option.map_some, assemble, List.flatMap_map]
    change some (Bytecode.magic ++ Bytecode.writeU32Le Bytecode.version ++ _) = _
    congr 2
    exact List.flatMap_congr fun written _ => writeSection_eq written

theorem runtime_encodeModule_eq (m : Bytecode.Module) :
    Bytecode.encodeModule m = (Bytecode.moduleSections m).map assemble := by
  rw [Bytecode.encodeModule]
  cases Bytecode.moduleSections m <;> rfl

/-- The two encoders write the same bytes for corresponding modules, from the same string pool. -/
theorem encoders_agree {front : Module} {m : Bytecode.Module} (same : front.Corresponds m)
    (pool : (Bytecode.internModule m).strings.length ≤ 2 ^ 32)
    (mainNear : ∀ i ∈ m.functionIndex "main", i < 2 ^ 32 - 1)
    (initNear : ∀ i ∈ m.functionIndex "<init>", i < 2 ^ 32 - 1) :
    (internModule front).strings = (Bytecode.internModule m).strings ∧
      encodeModule front = Bytecode.encodeModule m := by
  refine ⟨same.pools.strings, ?_⟩
  obtain ⟨body, written, expected⟩ := moduleSections_agree same pool
  have entries : (entrySection front.functions).map runtimeSection = runtimeEntrySection m := by
    obtain ⟨mainSet, mainField⟩ := entryField_eq same "main" mainNear
    obtain ⟨initSet, initField⟩ := entryField_eq same "<init>" initNear
    rw [← same.entry] at mainSet mainField
    rw [← same.init] at initSet initField
    simp only [entrySection, runtimeEntrySection, mainSet, initSet, mainField, initField, Bool.or_eq_true]
    split <;> rfl
  rw [encodeModule_eq, runtime_encodeModule_eq, written, expected, entries]

/-- The front-end's form of a module that greets through a native. -/
def frontGreeting : Module where
  functions :=
    [⟨"main", 0, 1, [.constStr "hello", .callNative "println" 1, .constInt (-5), .store 0, .callVirtual "show" 1,
        .simple .return]⟩,
      ⟨"show", 1, 1, [.load 0, .simple .return]⟩]
  types := [⟨"Point", 2, ["x", "y"]⟩]
  enums := [⟨3, "Colour", ["red", "green"]⟩]
  dispatch := [⟨0, "show", 1⟩]
  globalCount := 2

theorem greeting_encoders_agree :
    frontGreeting.Corresponds Bytecode.greeting ∧
      encodeModule frontGreeting = Bytecode.encodeModule Bytecode.greeting := by
  have same : frontGreeting.Corresponds Bytecode.greeting := by
    refine ⟨?_, .cons ⟨rfl, rfl, rfl⟩ .nil, .cons ⟨rfl, rfl, rfl⟩ .nil, .cons ⟨rfl, rfl, rfl⟩ .nil, rfl, rfl, rfl⟩
    refine .cons ⟨rfl, rfl, rfl, ?_⟩ (.cons ⟨rfl, rfl, rfl, ?_⟩ .nil)
    · exact .cons (.constStr _) (.cons (.callNative (by decide) 1) (.cons (.constInt (-5)) (.cons (.store 0)
        (.cons (.callVirtual _ 1) (.cons (.simple rfl) .nil)))))
    · exact .cons (.load 0) (.cons (.simple rfl) .nil)
  exact ⟨same, (encoders_agree same (by decide) (by decide) (by decide)).2⟩

/-! ## The limit of the entry field -/

/-- The front-end's form of `mainAfter`. -/
def frontMainAfter (count : ℕ) : Module where
  functions := List.replicate count ⟨"f", 0, 0, []⟩ ++ [⟨"main", 0, 0, []⟩]
  types := []
  enums := []
  dispatch := []
  globalCount := 0

private theorem frontMainAfter_corresponds (count : ℕ) :
    (frontMainAfter count).Corresponds (Bytecode.mainAfter count) := by
  refine ⟨?_, .nil, .nil, .nil, rfl, rfl, rfl⟩
  refine List.rel_append ?_ (.cons ⟨rfl, rfl, rfl, .nil⟩ .nil)
  induction count with
  | zero => exact .nil
  | succ count ih => exact .cons ⟨rfl, rfl, rfl, .nil⟩ ih

/-- With `main` at index `u32::MAX` the front-end writes `2 ^ 32` in the entry section, while in the
runtime's 32-bit `index + 1` the entry point wraps to `0`. -/
theorem encoders_differ_at_u32_max :
    ∃ front m, Module.Corresponds front m ∧ m.functionIndex "main" = some (2 ^ 32 - 1) ∧
      (encodeModule front).isSome ∧ encodeModule front ≠ Bytecode.encodeModule m := by
  have general (count : ℕ) (far : count = 2 ^ 32 - 1) :
      (encodeModule (frontMainAfter count)).isSome ∧
        encodeModule (frontMainAfter count) ≠ Bytecode.encodeModule (Bytecode.mainAfter count) := by
    have same := frontMainAfter_corresponds count
    obtain ⟨main, init⟩ := Bytecode.mainAfter_functionIndex count
    obtain ⟨body, written, expected⟩ := moduleSections_agree same
      (by rw [Bytecode.internModule_mainAfter]; exact Nat.zero_le _)
    have frontMain : findFunc (frontMainAfter count).functions "main" = 2 ^ 32 - 1 := by
      rw [findFunc_eq same.functions]
      change (Bytecode.Module.functionIndex _ "main").elim (-1) Nat.cast = _
      rw [main, far]
      rfl
    have frontInit : findFunc (frontMainAfter count).functions "<init>" = -1 := by
      rw [findFunc_eq same.functions]
      change (Bytecode.Module.functionIndex _ "<init>").elim (-1) Nat.cast = _
      rw [init]
      rfl
    have frontEntry : (entrySection (frontMainAfter count).functions).map runtimeSection =
        [(6, [128, 128, 128, 128, 16, 0])] := by
      simp only [entrySection, frontMain, frontInit]
      decide
    have entry : runtimeEntrySection (Bytecode.mainAfter count) = [(6, [0, 0])] := by
      have recorded : Bytecode.recordedOr (Bytecode.mainAfter count) (Bytecode.mainAfter count).entry "main" =
          some 0xffffffff := by
        change (Bytecode.Module.functionIndex _ "main").map UInt32.ofNat = _
        rw [main, far]
        rfl
      have absent : Bytecode.recordedOr (Bytecode.mainAfter count) (Bytecode.mainAfter count).init "<init>" = none := by
        change (Bytecode.Module.functionIndex _ "<init>").map UInt32.ofNat = _
        rw [init]
        rfl
      simp only [runtimeEntrySection, recorded, absent]
      decide
    rw [encodeModule_eq, runtime_encodeModule_eq, written, expected, frontEntry, entry]
    cases body with
    | none => cases (Bytecode.moduleSections_mainAfter count).symm.trans expected
    | some body =>
      refine ⟨rfl, fun equal => ?_⟩
      have tails := Option.some.inj equal
      simp only [assemble, List.flatMap_append, List.append_cancel_left_eq] at tails
      revert tails
      decide
  exact ⟨_, _, frontMainAfter_corresponds (2 ^ 32 - 1), (Bytecode.mainAfter_functionIndex _).1, general _ rfl⟩

end Thera.Compiler
