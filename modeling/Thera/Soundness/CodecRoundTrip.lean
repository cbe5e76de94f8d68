import Thera.Proofs.Bytecode.Codec

/-! # A module survives its own wire format

`encodeModule` followed by `decodeModule` gives back the module, with the two entry points resolved.
The format counts strings and functions in 32 bits but the module does not: a module whose pool has
more than `2 ^ 32` strings, or whose unrecorded `main` sits at `u32::MAX` or above, is outside it,
and `main_lost_at_u32_max` shows the second limit at work.
-/

namespace Thera.Bytecode

open Framing (joined_cons_some joined_map_some)

/-- Resolving an entry point again changes nothing: the decoded module records it. -/
private theorem recordedOr_onWire {m : Module} {recorded : Option UInt32} {name : String} :
    recordedOr m.onWire (recordedOr m recorded name) name = recordedOr m recorded name := by
  cases recorded with
  | some i => rfl
  | none =>
    change ((m.functionIndex name).map UInt32.ofNat <|> (m.functionIndex name).map UInt32.ofNat) =
      (m.functionIndex name).map UInt32.ofNat
    cases m.functionIndex name <;> rfl

/-- A recorded entry point below `u32::MAX`, or a function found below it, passes the wire. -/
private theorem recordedOr_lt {m : Module} {recorded : Option UInt32} {name : String}
    (small : ∀ i ∈ recorded, i < 0xffffffff)
    (near : recorded = none → ∀ i ∈ m.functionIndex name, i < 2 ^ 32 - 1) :
    ∀ i ∈ recordedOr m recorded name, i < 0xffffffff := by
  intro i member
  cases recorded with
  | some j => exact small i member
  | none =>
    obtain ⟨position, found, rfl⟩ := Option.map_eq_some_iff.mp member
    have bound := near rfl position found
    rw [UInt32.lt_iff_toNat_lt, UInt32.toNat_ofNat_of_lt' (Nat.lt_of_lt_of_le bound (by decide))]
    exact bound

private theorem recordedOr_toNat {m : Module} {recorded : Option UInt32} {name : String}
    (near : recorded = none → ∀ i ∈ m.functionIndex name, i < 2 ^ 32 - 1) :
    (recordedOr m recorded name).map UInt32.toNat =
      (recorded.map UInt32.toNat <|> m.functionIndex name) := by
  cases recorded with
  | some i => rfl
  | none =>
    change ((m.functionIndex name).map UInt32.ofNat).map UInt32.toNat = m.functionIndex name
    cases found : m.functionIndex name with
    | none => rfl
    | some position =>
      have bound := near rfl position found
      exact congrArg some (UInt32.toNat_ofNat_of_lt' (Nat.lt_of_lt_of_le bound (by decide)))

/-- The wire keeps everything `encodeModule` looks at. -/
private theorem encodeModule_onWire {m : Module} (entry : m.onWire.entry = recordedOr m m.entry "main")
    (init : m.onWire.init = recordedOr m m.init "<init>") : encodeModule m.onWire = encodeModule m := by
  have same : moduleSections m.onWire = moduleSections m := by
    simp only [moduleSections, entry, init, recordedOr_onWire]
    rfl
  rw [encodeModule, encodeModule, same]

/-- Decoding the encoding of a module restores it, and encoding the result writes the same bytes. -/
theorem module_round_trip (m : Module)
    (natives : ∀ f ∈ m.functions, ∀ native argc,
      Instr.callNative native argc ∈ f.code → (nativeName native).isSome)
    (fields : ∀ t ∈ m.types, t.fieldNames = [] ∨ t.fieldNames.length = t.fieldCount.toNat)
    (entry : ∀ i ∈ m.entry, i < 0xffffffff) (init : ∀ i ∈ m.init, i < 0xffffffff)
    (mainNear : m.entry = none → ∀ i ∈ m.functionIndex "main", i < 2 ^ 32 - 1)
    (initNear : m.init = none → ∀ i ∈ m.functionIndex "<init>", i < 2 ^ 32 - 1)
    (pool : (internModule m).strings.length ≤ 2 ^ 32)
    (addressable : ∀ bytes, encodeModule m = some bytes → bytes.length < 2 ^ 64) :
    ∃ bytes m', encodeModule m = some bytes ∧ decodeModule bytes = .ok m' ∧
      m'.functions = m.functions ∧ m'.types = m.types ∧ m'.enums = m.enums ∧ m'.dispatch = m.dispatch ∧
      (∀ ty selector, m'.dispatchTarget ty selector = m.dispatchTarget ty selector) ∧
      m'.globalCount = m.globalCount ∧ m'.entry.map UInt32.toNat = m.entryIndex ∧
      m'.init.map UInt32.toNat = m.initIndex ∧ encodeModule m' = some bytes := by
  obtain ⟨bytes, wrote, decoded⟩ := decodeModule_encodeModule ⟨natives, fields⟩ pool
  have entryKept : m.onWire.entry = recordedOr m m.entry "main" :=
    decodeOptIndex_entryField (recordedOr_lt entry mainNear)
  have initKept : m.onWire.init = recordedOr m m.init "<init>" :=
    decodeOptIndex_entryField (recordedOr_lt init initNear)
  refine ⟨bytes, m.onWire, wrote, decoded (addressable bytes wrote), rfl, rfl, rfl, rfl, fun _ _ => rfl, rfl,
    ?_, ?_, ?_⟩
  · rw [entryKept, recordedOr_toNat mainNear, Module.entryIndex]
  · rw [initKept, recordedOr_toNat initNear, Module.initIndex]
  · rw [encodeModule_onWire entryKept initKept, wrote]

/-- A module that greets through a native, with one type, one enum and one dispatch row. -/
def greeting : Module :=
  { (Module.withTypes
      [⟨"main", 0, 1, [.constStr "hello", .callNative 0 1, .constInt (-5), .store 0, .callVirtual "show" 1, .return]⟩,
        ⟨"show", 1, 1, [.load 0, .return]⟩]
      [⟨"Point", 2, ["x", "y"]⟩]).setDispatch [⟨0, "show", 1⟩] with
    enums := [⟨3, "Colour", ["red", "green"]⟩], globalCount := 2 }

theorem greeting_round_trip : ∃ bytes m', encodeModule greeting = some bytes ∧ decodeModule bytes = .ok m' ∧
    m'.functions = greeting.functions ∧ m'.entry.map UInt32.toNat = some 0 := by
  obtain ⟨bytes, m', wrote, decoded, functions, -, -, -, -, -, entry, -, -⟩ := module_round_trip greeting
    (by
      simp only [greeting, Module.withTypes, Module.setDispatch, List.mem_cons, List.not_mem_nil, or_false,
        forall_eq_or_imp, forall_eq]
      refine ⟨fun native argc member => ?_, fun native argc member => by simp at member⟩
      obtain ⟨rfl, rfl⟩ : native = 0 ∧ argc = 1 := by simpa using member
      decide)
    (by decide) (fun _ => nofun) (fun _ => nofun) (by decide) (by decide) (by decide)
    (by
      have short : (encodeModule greeting).all (·.length < 2 ^ 64) = true := by decide +kernel
      intro bytes wrote
      simpa [wrote] using short)
  exact ⟨bytes, m', wrote, decoded, functions, entry.trans (by decide)⟩

/-! ## The limit of the entry fields -/

/-- `count` functions named `f` in front of `main`, with no recorded entry point. -/
def mainAfter (count : ℕ) : Module :=
  .withTypes (List.replicate count ⟨"f", 0, 0, []⟩ ++ [⟨"main", 0, 0, []⟩]) []

theorem mainAfter_functionIndex (count : ℕ) :
    (mainAfter count).functionIndex "main" = some count ∧ (mainAfter count).functionIndex "<init>" = none := by
  constructor <;>
  · simp only [mainAfter, Module.withTypes, Module.functionIndex]
    rw [List.findIdx?_append, List.findIdx?_replicate]
    simp

private theorem mem_mainAfter {count : ℕ} {f : Function} (member : f ∈ (mainAfter count).functions) :
    f = ⟨"f", 0, 0, []⟩ ∨ f = ⟨"main", 0, 0, []⟩ := by
  rcases List.mem_append.mp member with early | last
  · exact .inl (List.mem_replicate.mp early).2
  · exact .inr (List.mem_singleton.mp last)

theorem internModule_mainAfter (count : ℕ) : internModule (mainAfter count) = StringPool.empty := by
  have none_ : (mainAfter count).strings = [] := by simp [mainAfter, Module.withTypes, Module.strings]
  rw [internModule, none_]
  rfl

private theorem writeVec_some {α : Type} {encode : α → Option (List UInt8)} {written : α → List UInt8}
    {values : List α} (each : ∀ value ∈ values, encode value = some (written value)) :
    writeVec encode values = some (writeUvarint (.ofNat values.length) ++ values.flatMap written) := by
  rw [writeVec, List.map_congr_left each]
  exact joined_cons_some.mpr ⟨_, _, rfl, joined_map_some, rfl⟩

private theorem writeVec_nil {α : Type} (encode : α → Option (List UInt8)) : writeVec encode [] = some [0] := by
  have zero : writeUvarint (.ofNat 0) = [0] := by decide
  change some (writeUvarint (.ofNat 0) ++ []) = _
  rw [zero]
  rfl

private theorem length_flatMap_le {α : Type} {values : List α} {written : α → List UInt8} {bound : ℕ}
    (each : ∀ value ∈ values, (written value).length ≤ bound) :
    (values.flatMap written).length ≤ bound * values.length := by
  have sum := List.sum_le_card_nsmul (values.map fun value => (written value).length) bound (by simpa using each)
  rwa [List.length_map, smul_eq_mul, Nat.mul_comm, ← List.length_flatMap] at sum

private theorem length_writeUvarint_le (v : UInt64) : (writeUvarint v).length ≤ 10 := by
  have bound : ∀ (fuel : ℕ) (v : UInt64), (uvarintBytes fuel v).length ≤ fuel + 1 := by
    intro fuel
    induction fuel with
    | zero => exact fun _ => le_rfl
    | succ fuel ih =>
      intro v
      rw [uvarintBytes_succ]
      split
      · exact Nat.succ_le_succ (ih (v >>> 7))
      · simp
  exact bound 9 v

private theorem length_writeSection_le (id : UInt8) (payload : List UInt8) :
    (writeSection id payload).length ≤ payload.length + 11 := by
  have prefixed := length_writeUvarint_le (.ofNat payload.length)
  simp only [writeSection, writeU8, List.length_append, List.length_singleton]
  omega

theorem moduleSections_mainAfter (count : ℕ) :
    moduleSections (mainAfter count) = some
      [(Section.constants, [0]), (Section.types, [0]),
        (Section.functions, writeUvarint (.ofNat (mainAfter count).functions.length) ++
          (mainAfter count).functions.flatMap fun _ => [0, 0, 0]),
        (Section.symbols, writeUvarint (.ofNat (mainAfter count).functions.length) ++
          (mainAfter count).functions.flatMap fun f => writeStr f.name),
        (Section.entry, writeUvarint (entryField (some (.ofNat count))).toUInt64 ++
          writeUvarint (entryField none).toUInt64)] := by
  have consts : writeVec (fun s => some (writeStr s)) StringPool.empty.strings = some [0] := writeVec_nil _
  have types : writeVec (encodeType StringPool.empty) (mainAfter count).types = some [0] := writeVec_nil _
  have enums : writeVec (encodeEnum StringPool.empty) (mainAfter count).enums = some [0] := writeVec_nil _
  have dispatch : writeVec (encodeDispatchEntry StringPool.empty) (mainAfter count).dispatch = some [0] :=
    writeVec_nil _
  have funcs : writeVec (encodeFunction StringPool.empty) (mainAfter count).functions = _ :=
    writeVec_some fun f member => show _ = some [0, 0, 0] by rcases mem_mainAfter member with rfl | rfl <;> decide
  have symbols : writeVec (fun f => some (writeStr f.name)) (mainAfter count).functions = _ :=
    writeVec_some fun f _ => rfl
  have entry : recordedOr (mainAfter count) (mainAfter count).entry "main" = some (.ofNat count) := by
    rw [recordedOr, (mainAfter_functionIndex count).1]
    rfl
  have init : recordedOr (mainAfter count) (mainAfter count).init "<init>" = none := by
    rw [recordedOr, (mainAfter_functionIndex count).2]
    rfl
  simp only [moduleSections, internModule_mainAfter, consts, types, enums, funcs, symbols, dispatch, entry, init]
  rfl

private theorem length_encodeModule_mainAfter {count : ℕ} {bytes : List UInt8}
    (wrote : encodeModule (mainAfter count) = some bytes) : bytes.length ≤ 200 + 8 * count := by
  rw [encodeModule, moduleSections_mainAfter] at wrote
  cases wrote
  have size : (mainAfter count).functions.length = count + 1 := by simp [mainAfter, Module.withTypes]
  have bodies : ((mainAfter count).functions.flatMap fun _ => ([0, 0, 0] : List UInt8)).length ≤ 3 * (count + 1) :=
    size ▸ length_flatMap_le fun _ _ => le_rfl
  have names : ((mainAfter count).functions.flatMap fun f => writeStr f.name).length ≤ 5 * (count + 1) :=
    size ▸ length_flatMap_le fun f member => by rcases mem_mainAfter member with rfl | rfl <;> decide
  simp only [List.flatMap_cons, List.flatMap_nil, List.length_append, List.length_nil]
  grind [length_writeSection_le, length_writeUvarint_le, magic, writeU32Le]

/-- With `main` at index `u32::MAX` the stored `index + 1` wraps to `0`: the entry point is lost. -/
theorem main_lost_at_u32_max :
    ∃ m : Module, (∀ f ∈ m.functions, ∀ native argc, Instr.callNative native argc ∈ f.code → (nativeName native).isSome) ∧
      (∀ t ∈ m.types, t.fieldNames = [] ∨ t.fieldNames.length = t.fieldCount.toNat) ∧
      m.entry = none ∧ m.init = none ∧ m.functionIndex "main" = some (2 ^ 32 - 1) ∧
      ∃ bytes m', encodeModule m = some bytes ∧ bytes.length < 2 ^ 63 ∧ decodeModule bytes = .ok m' ∧ m'.entry = none := by
  have general (count : ℕ) (far : UInt32.ofNat count = 0xffffffff) (small : count < 2 ^ 40) :
      ∃ bytes m', encodeModule (mainAfter count) = some bytes ∧ bytes.length < 2 ^ 63 ∧
        decodeModule bytes = .ok m' ∧ m'.entry = none := by
    have wellformed : (mainAfter count).Wellformed := by
      refine ⟨fun f member native argc called => ?_, fun t member => absurd member List.not_mem_nil⟩
      rcases mem_mainAfter member with rfl | rfl <;> exact absurd called List.not_mem_nil
    obtain ⟨bytes, wrote, decoded⟩ := decodeModule_encodeModule wellformed
      (by rw [internModule_mainAfter]; exact Nat.zero_le _)
    have short := length_encodeModule_mainAfter wrote
    refine ⟨bytes, _, wrote, by omega, decoded (by omega), ?_⟩
    have resolved : recordedOr (mainAfter count) (mainAfter count).entry "main" = some 0xffffffff := by
      rw [recordedOr, (mainAfter_functionIndex count).1, ← far]
      rfl
    rw [Module.onWire, resolved]
    change decodeOptIndex (entryField (some 0xffffffff)).toUInt64 = none
    decide
  refine ⟨mainAfter (2 ^ 32 - 1), fun f member native argc called => ?_,
    fun t member => absurd member List.not_mem_nil, rfl, rfl, (mainAfter_functionIndex _).1, general _ ?_ ?_⟩
  · rcases mem_mainAfter member with rfl | rfl <;> exact absurd called List.not_mem_nil
  · decide
  · decide

end Thera.Bytecode
