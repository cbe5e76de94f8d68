import Thera.Model.Bytecode.Codec
import Thera.Proofs.Bytecode.Serialize

/-! # Decoding what the encoder wrote

The round trip is built bottom-up: pool references resolve, then instructions and table entries,
then whole sections, then the module. Every element is stated with `Codes`, so the only size
assumption is the one at the top, that the encoding as a whole is addressable.
-/

namespace Thera.Bytecode

open Framing (Reads Codes joined joined_ne_nil)

variable {limit : ℕ}

/-! ## The string pool -/

variable {s : String} {α : Type} {pool : StringPool} {payload : List UInt8}

private theorem lookup_zipIdx {strings : List String} (start : ℕ) (member : s ∈ strings) :
    ∃ i, ((strings.zipIdx start).map fun (t, i) => (t, UInt32.ofNat i)).lookup s = some (.ofNat (start + i)) ∧
      strings[i]? = some s := by
  induction strings generalizing start with
  | nil => cases member
  | cons first strings ih =>
    simp only [List.zipIdx_cons, List.map_cons, List.lookup_cons]
    by_cases same : s = first
    · exact ⟨0, by simp [same]⟩
    · obtain ⟨i, found, there⟩ := ih (start + 1) (by simpa [same] using member)
      refine ⟨i + 1, ?_, by simpa using there⟩
      rw [beq_false_of_ne same, found, Nat.add_assoc, Nat.add_comm 1]

/-- An interned string is found under the position it is stored at. -/
theorem StringPool.lookup_of_mem (pool : StringPool) (member : s ∈ pool.strings) :
    ∃ i, pool.index.lookup s = some (.ofNat i) ∧ pool.strings[i]? = some s := by
  rw [pool.indexed]
  simpa only [Nat.zero_add] using lookup_zipIdx 0 member

theorem StringPool.mem_of_lookup (pool : StringPool) {i : UInt32} (found : pool.index.lookup s = some i) :
    s ∈ pool.strings := by
  obtain ⟨before, after, split, -⟩ := List.lookup_eq_some_iff.mp found
  have member : (s, i) ∈ pool.strings.zipIdx.map fun (t, i) => (t, UInt32.ofNat i) := by
    rw [← pool.indexed, split]
    simp
  obtain ⟨⟨t, position⟩, stored, same⟩ := List.mem_map.mp member
  cases same
  exact List.fst_mem_of_mem_zipIdx stored

theorem StringPool.mem_intern (pool : StringPool) (s t : String) :
    t ∈ (pool.intern s).2.strings ↔ t ∈ pool.strings ∨ t = s := by
  rw [StringPool.intern]
  split
  next i found =>
    have present := pool.mem_of_lookup found
    exact ⟨.inl, fun either => either.elim id fun same => same ▸ present⟩
  next => simp

/-- The first pass interns every string the module references. -/
theorem mem_internModule {m : Module} (member : s ∈ m.strings) : s ∈ (internModule m).strings := by
  have grows : ∀ (strings : List String) (pool : StringPool), s ∈ pool.strings ∨ s ∈ strings →
      s ∈ (strings.foldl (fun pool s => (pool.intern s).2) pool).strings := by
    intro strings
    induction strings with
    | nil => simp
    | cons first strings ih =>
      intro pool present
      apply ih
      rw [StringPool.mem_intern]
      simpa only [List.mem_cons, or_assoc] using present
  exact grows _ _ (.inr member)

/-! ## Elements -/

theorem codes_uvarint (v : UInt64) : Codes limit (some (writeUvarint v)) readUvarint v :=
  Codes.of_reads (reads_writeUvarint v)

/-- The last value of a reader, once its fields are known to have kept their width. -/
private theorem codes_done {value result : α} (same : value = result) :
    Codes limit (joined []) (pure value : Reader α) result := same ▸ Codes.nil value

theorem codes_vec {γ : Type} {encode : α → Option (List UInt8)} {run : Reader γ} {decoded : α → γ} {values : List α}
    (addressable : limit ≤ 2 ^ 64) (nonempty : ∀ value ∈ values, encode value ≠ some [])
    (each : ∀ value ∈ values, Codes limit (encode value) run (decoded value)) :
    Codes limit (writeVec encode values) (readVec run) (values.map decoded) := by
  have counts (short : values.length < limit) := reads_length (lt_of_lt_of_le short addressable)
  have codes := Codes.counted counts nonempty each
  rw [map_eq_pure_bind, bind_assoc] at codes
  exact codes

theorem codes_str (addressable : limit ≤ 2 ^ 64) (s : String) : Codes limit (some (writeStr s)) readStr s :=
  ⟨_, rfl, fun short => reads_writeStr (lt_of_lt_of_le short addressable)⟩

/-- A reference to an interned string resolves to it, as long as no pool index was cut to 32 bits. -/
theorem codes_ref (exact : pool.strings.length ≤ 2 ^ 32) (member : s ∈ pool.strings) :
    Codes limit (pool.ref s) (pooled pool.strings) s := by
  obtain ⟨i, found, there⟩ := pool.lookup_of_mem member
  have bound : i < 2 ^ 32 := lt_of_lt_of_le (List.getElem?_eq_some_iff.mp there).1 exact
  have resolved : Reads (poolGet pool.strings (UInt32.ofNat i).toUInt64) [] s := by
    rw [poolGet, UInt32.toNat_toUInt64, UInt32.toNat_ofNat_of_lt' bound, there]
    exact Reads.pure s
  refine ⟨_, congrArg (Option.map fun i : UInt32 => writeUvarint i.toUInt64) found, fun _ => ?_⟩
  exact (reads_writeUvarint (UInt32.ofNat i).toUInt64).check resolved

/-- A native is referenced by name and resolves to its own index. -/
theorem codes_native {native : UInt32} {name : String} (exact : pool.strings.length ≤ 2 ^ 32)
    (named : nativeName native = some name) (member : name ∈ pool.strings) :
    Codes limit ((nativeName native).bind pool.ref) (pooled pool.strings >>= nativeOf) native := by
  have codes : Codes limit (pool.ref name) (pooled pool.strings) name := codes_ref exact member
  obtain ⟨symbols, present, reads⟩ := codes
  have resolved : Reads (nativeOf name) [] native := by
    rw [nativeOf, nativeIndex_nativeName named]
    exact Reads.pure native
  refine ⟨symbols, by rw [named]; exact present, fun short => ?_⟩
  exact (reads short).check resolved

theorem ref_ne_nil (pool : StringPool) (s : String) : pool.ref s ≠ some [] := by
  rw [StringPool.ref]
  intro empty
  obtain ⟨i, -, written⟩ := Option.map_eq_some_iff.mp empty
  exact writeUvarint_ne_nil _ written

theorem some_writeUvarint_ne_nil (v : UInt64) : some (writeUvarint v) ≠ some [] :=
  fun empty => writeUvarint_ne_nil v (Option.some.inj empty)

theorem some_writeStr_ne_nil (s : String) : some (writeStr s) ≠ some [] := fun empty =>
  writeUvarint_ne_nil _ (List.append_eq_nil_iff.mp (Option.some.inj empty)).1

/-! ## Instructions -/

/-- The opcode byte selects the operand reader. -/
private theorem codes_opcode {pool : List String} {opcode : UInt8} {operands : List (Option (List UInt8))}
    {instr : Instr} (codes : Codes limit (joined operands) (decodeOperands pool opcode) instr) :
    Codes limit (joined (some (writeU8 opcode) :: operands)) (decodeInstr pool) instr :=
  Codes.cons (Codes.of_reads (reads_writeU8 opcode)) codes

private theorem codes_plain {pool : List String} {opcode : UInt8} {instr : Instr}
    (plain : decodeOperands pool opcode = pure instr) :
    Codes limit (some (writeU8 opcode)) (decodeInstr pool) instr :=
  Codes.of_reads ((reads_writeU8 opcode).check (plain ▸ Reads.pure instr))

theorem codes_instr {instr : Instr} (exact : pool.strings.length ≤ 2 ^ 32)
    (strings : ∀ s ∈ instr.strings, s ∈ pool.strings)
    (known : ∀ native argc, instr = .callNative native argc → (nativeName native).isSome) :
    Codes limit (encodeInstr pool instr) (decodeInstr pool.strings) instr := by
  cases instr with
  | constInt value =>
    exact codes_opcode (Codes.cons (Codes.of_reads (reads_writeIvarint value)) (codes_done rfl))
  | constDouble value =>
    exact codes_opcode (Codes.cons (Codes.of_reads (reads_writeF64 value)) (codes_done rfl))
  | constBool value =>
    exact codes_opcode (Codes.cons (Codes.of_reads (reads_writeU8 value.toUInt8))
      (codes_done (by cases value <;> rfl)))
  | constStr value =>
    exact codes_opcode (Codes.cons (codes_ref exact (strings value (by simp [Instr.strings]))) (codes_done rfl))
  | load slot | store slot | globalGet slot | globalSet slot | callIndirect slot | enumGet slot
  | structNew slot | fieldGet slot | fieldSet slot | listNew slot =>
    exact codes_opcode (Codes.cons (codes_uvarint _) (codes_done (by simp)))
  | jump target | jumpIfTrue target | jumpIfFalse target =>
    exact codes_opcode (Codes.cons (codes_uvarint _) (codes_done rfl))
  | call func argc | closureNew func argc =>
    exact codes_opcode (Codes.cons (codes_uvarint _) (Codes.cons (codes_uvarint _) (codes_done (by simp))))
  | callNative native argc =>
    obtain ⟨name, named⟩ := Option.isSome_iff_exists.mp (known native argc rfl)
    have member := strings name (by simp [Instr.strings, named])
    have grouped : decodeOperands pool.strings Op.callNative =
        (pooled pool.strings >>= nativeOf) >>= fun native => do
          return .callNative native (← readUvarint).toUInt8 := by
      rw [bind_assoc]
      rfl
    apply codes_opcode
    rw [grouped]
    exact Codes.cons (codes_native exact named member) (Codes.cons (codes_uvarint _) (codes_done (by simp)))
  | callVirtual selector argc =>
    exact codes_opcode (Codes.cons (codes_ref exact (strings selector (by simp [Instr.strings])))
      (Codes.cons (codes_uvarint _) (codes_done (by simp))))
  | enumNew ty variant fieldCount =>
    exact codes_opcode (Codes.cons (codes_uvarint _) (Codes.cons (codes_uvarint _)
      (Codes.cons (codes_uvarint _) (codes_done (by simp)))))
  | _ => exact codes_plain rfl

theorem encodeInstr_ne_nil (pool : StringPool) (instr : Instr) : encodeInstr pool instr ≠ some [] := by
  have opcode (byte : UInt8) : some (writeU8 byte) ≠ some [] := by simp [writeU8]
  cases instr <;> first | exact opcode _ | exact joined_ne_nil (opcode _)

/-! ## Table entries -/

section

variable (addressable : limit ≤ 2 ^ 64) (exact : pool.strings.length ≤ 2 ^ 32)

include addressable exact

theorem codes_function {f : Function} (strings : ∀ s ∈ f.code.flatMap Instr.strings, s ∈ pool.strings)
    (known : ∀ native argc, Instr.callNative native argc ∈ f.code → (nativeName native).isSome) :
    Codes limit (encodeFunction pool f) (decodeFunction pool.strings) { f with name := "" } := by
  have code : Codes limit (writeVec (encodeInstr pool) f.code) (readVec (decodeInstr pool.strings)) f.code := by
    have each : ∀ instr ∈ f.code, Codes limit (encodeInstr pool instr) (decodeInstr pool.strings) (id instr) :=
      fun instr member => codes_instr exact
        (fun s used => strings s (List.mem_flatMap.mpr ⟨instr, member, used⟩))
        (fun native argc same => known native argc (same ▸ member))
    simpa only [List.map_id] using codes_vec addressable (fun instr _ => encodeInstr_ne_nil pool instr) each
  exact Codes.cons (codes_uvarint _) (Codes.cons (codes_uvarint _) (Codes.cons code (codes_done (by simp))))

theorem codes_refs {names : List String} (strings : ∀ s ∈ names, s ∈ pool.strings) :
    Codes limit (writeVec pool.ref names) (readVec (pooled pool.strings)) names := by
  have each : ∀ s ∈ names, Codes limit (pool.ref s) (pooled pool.strings) (id s) :=
    fun s member => codes_ref exact (strings s member)
  simpa only [List.map_id] using codes_vec addressable (fun s _ => ref_ne_nil pool s) each

/-- A type is restored when its names, if it has any, are as many as its fields. -/
theorem codes_type {t : TypeDef} (strings : ∀ s ∈ t.name :: t.fieldNames, s ∈ pool.strings)
    (sized : t.fieldNames = [] ∨ t.fieldNames.length = t.fieldCount.toNat) :
    Codes limit (encodeType pool t) (decodeType pool.strings version) t := by
  have names := codes_refs addressable exact fun s member => strings s (List.mem_cons_of_mem _ member)
  refine Codes.cons (codes_ref exact (strings _ (List.mem_cons_self ..)))
    (Codes.cons (codes_uvarint _) (Codes.cons names (codes_done ?_)))
  obtain ⟨name, fieldCount, fieldNames⟩ := t
  rcases sized with rfl | sized
  · simp [TypeDef.new]
  · change fieldNames.length = fieldCount.toNat at sized
    cases fieldNames with
    | nil => simp [TypeDef.new]
    | cons first rest => simp [TypeDef.named, sized]

theorem codes_enum {e : EnumDef} (strings : ∀ s ∈ e.name :: e.variants, s ∈ pool.strings) :
    Codes limit (encodeEnum pool e) (decodeEnum pool.strings) e := by
  have variants := codes_refs addressable exact fun s member => strings s (List.mem_cons_of_mem _ member)
  exact Codes.cons (codes_uvarint _) (Codes.cons (codes_ref exact (strings _ (List.mem_cons_self ..)))
    (Codes.cons variants (codes_done (by simp))))

end

theorem codes_dispatchEntry {e : DispatchEntry} (exact : pool.strings.length ≤ 2 ^ 32)
    (member : e.selector ∈ pool.strings) :
    Codes limit (encodeDispatchEntry pool e) (decodeDispatchEntry pool.strings) e :=
  Codes.cons (codes_uvarint _) (Codes.cons (codes_ref exact member)
    (Codes.cons (codes_uvarint _) (codes_done (by simp))))

/-! ## Sections -/

theorem reads_section {id : UInt8} (short : payload.length < 2 ^ 64) :
    Reads readSection (writeSection id payload) (id, payload) := by
  have taken : Reads (take (UInt64.ofNat payload.length).toNat) payload payload := by
    rw [UInt64.toNat_ofNat_of_lt' short]
    exact reads_take payload
  have reads : Reads readSection (writeU8 id ++ (writeUvarint (.ofNat payload.length) ++ payload)) (id, payload) :=
    (reads_writeU8 id).bind ((reads_writeUvarint _).bind (taken.check (Reads.pure (id, payload))))
  rwa [← List.append_assoc] at reads

/-- Reading sections records each of them in order and consumes everything. -/
theorem readSections_read {α : Type} {raw : α → List UInt8} {entry : α → UInt8 × List UInt8} (sections : List α) (found : Payloads)
    {fuel : ℕ} (enough : sections.length ≤ fuel) (reads : ∀ s ∈ sections, Reads readSection (raw s) (entry s)) :
    readSections fuel found (sections.flatMap raw) =
      .ok (sections.foldl (fun found s => found.record (entry s).1 (entry s).2) found, []) := by
  induction sections generalizing found fuel with
  | nil => cases fuel <;> rfl
  | cons s sections ih =>
    obtain ⟨fuel, rfl⟩ := Nat.exists_eq_succ_of_ne_zero (Nat.ne_of_gt (Nat.lt_of_lt_of_le (Nat.succ_pos _) enough))
    have read := reads s List.mem_cons_self
    rw [List.flatMap_cons, List.foldl_cons]
    generalize raw s = bytes at read
    obtain _ | ⟨byte, bytes⟩ := bytes
    · cases read []
    · change (readSection (byte :: bytes ++ _) >>= fun pair => readSections fuel (found.record pair.1.1 pair.1.2) pair.2) = _
      rw [read]
      exact ih _ (Nat.le_of_succ_le_succ enough) fun s member => reads s (List.mem_cons_of_mem _ member)

/-! ## Entry points -/

theorem decodeOptIndex_entryField {index : Option UInt32} (small : ∀ i ∈ index, i < 0xffffffff) :
    decodeOptIndex (entryField index).toUInt64 = index := by
  cases index with
  | none => rfl
  | some i =>
    have bound : i.toNat < 0xffffffff := small i rfl
    have next : (i + 1).toNat = i.toNat + 1 := by
      rw [UInt32.toNat_add, UInt32.toNat_one, Nat.mod_eq_of_lt (by omega)]
    have nonzero : (i + 1).toUInt64 ≠ 0 := by
      intro zero
      have := congrArg UInt64.toNat zero
      rw [UInt32.toNat_toUInt64, next, UInt64.toNat_zero] at this
      omega
    rw [entryField, decodeOptIndex, Option.elim_some, if_pos nonzero]
    congr 1
    apply UInt32.toNat_inj.mp
    have least : (1 : UInt64) ≤ (i + 1).toUInt64 := by
      rw [UInt64.le_iff_toNat_le, UInt32.toNat_toUInt64, next, UInt64.toNat_one]
      omega
    rw [UInt64.toNat_toUInt32, UInt64.toNat_sub_of_le _ _ least, UInt32.toNat_toUInt64, next, UInt64.toNat_one]
    omega

/-! ## Whole modules -/

/-- What the wire keeps of a module: the two entry points are resolved and pass through `index + 1`. -/
def Module.onWire (m : Module) : Module :=
  { m with
    entry := decodeOptIndex (entryField (recordedOr m m.entry "main")).toUInt64
    init := decodeOptIndex (entryField (recordedOr m m.init "<init>")).toUInt64 }

/-- What `encodeModule` and the pool need of a module to write it at all. -/
structure Module.Wellformed (m : Module) : Prop where
  natives : ∀ f ∈ m.functions, ∀ native argc, Instr.callNative native argc ∈ f.code → (nativeName native).isSome
  fields : ∀ t ∈ m.types, t.fieldNames = [] ∨ t.fieldNames.length = t.fieldCount.toNat

private theorem nameFunctions_names (functions : List Function) :
    nameFunctions (functions.map Function.name) (functions.map fun f => { f with name := "" }) = functions := by
  apply List.ext_getElem
  · simp [nameFunctions]
  · intro i _ bound
    simp [nameFunctions, List.getElem?_eq_getElem bound]

theorem payloadOr_reads {fallback value : α} {run : Reader α} (reads : Reads run payload value) :
    payloadOr (some payload) fallback run = .ok value := by
  change Prod.fst <$> run payload = _
  rw [reads.run_all]
  rfl

/-- A section that is omitted when its table is empty decodes to that table. -/
theorem payloadOr_omitted {values : List α} {run : Reader (List α)} (reads : values ≠ [] → Reads run payload values) :
    payloadOr (if values.isEmpty then none else some payload) [] run = .ok values := by
  cases values with
  | nil => rfl
  | cons value values => exact payloadOr_reads (reads (List.cons_ne_nil _ _))

/-- The payloads recorded from a module's sections, whichever of the optional ones are written. -/
private theorem foldl_record (consts types enums funcs symbols dispatch globals entry : List UInt8)
    (noEnums noDispatch hasGlobals hasEntry : Bool) :
    ([(Section.constants, consts), (Section.types, types)] ++
      (if noEnums then [] else [(Section.enums, enums)]) ++
      [(Section.functions, funcs), (Section.symbols, symbols)] ++
      (if noDispatch then [] else [(Section.dispatch, dispatch)]) ++
      (if hasGlobals then [(Section.globals, globals)] else []) ++
      (if hasEntry then [(Section.entry, entry)] else [])).foldl
        (fun found entry => Payloads.record found entry.1 entry.2) {} =
    { consts := some consts, types := some types, enums := if noEnums then none else some enums
      funcs := some funcs, symbols := some symbols, dispatch := if noDispatch then none else some dispatch
      globals := if hasGlobals then some globals else none, entry := if hasEntry then some entry else none } := by
  cases noEnums <;> cases noDispatch <;> cases hasGlobals <;> cases hasEntry <;> rfl

theorem reads_header : Reads readHeader (magic ++ writeU32Le version) version := by
  refine Reads.bind (reads_take magic) ?_
  rw [if_neg (not_not.mpr rfl)]
  refine Reads.check (reads_writeU32Le version) ?_
  rw [if_neg (by decide)]
  exact Reads.pure version

private theorem length_lt_writeSection (id : UInt8) (payload : List UInt8) :
    payload.length < (writeSection id payload).length := by
  simp only [writeSection, writeU8, List.length_append, List.length_singleton]
  omega

/-- The written sections bound their number and each of their payloads. -/
private theorem length_le_flatMap_section (sections : List (UInt8 × List UInt8)) :
    sections.length ≤ (sections.flatMap fun entry => writeSection entry.1 entry.2).length ∧
      ∀ entry ∈ sections,
        entry.2.length ≤ (sections.flatMap fun entry => writeSection entry.1 entry.2).length := by
  induction sections with
  | nil => simp
  | cons entry sections ih =>
    have section_ := length_lt_writeSection entry.1 entry.2
    rw [List.flatMap_cons, List.length_append, List.length_cons]
    refine ⟨by omega, fun other member => ?_⟩
    rcases List.mem_cons.mp member with rfl | later
    · omega
    · have := ih.2 other later
      omega

section

variable {m : Module} (exact : (internModule m).strings.length ≤ 2 ^ 32)

include exact

private theorem codes_types (fields : ∀ t ∈ m.types, t.fieldNames = [] ∨ t.fieldNames.length = t.fieldCount.toNat) :
    Codes (2 ^ 64) (writeVec (encodeType (internModule m)) m.types)
      (readVec (decodeType (internModule m).strings version)) (m.types.map id) := by
  refine codes_vec le_rfl (fun t _ => joined_ne_nil (ref_ne_nil _ _)) fun t member =>
    codes_type le_rfl exact (fun s used => mem_internModule ?_) (fields t member)
  exact List.mem_append_left _ (List.mem_append_left _ (List.mem_append_left _ (List.mem_flatMap.mpr ⟨t, member, used⟩)))

private theorem codes_enums :
    Codes (2 ^ 64) (writeVec (encodeEnum (internModule m)) m.enums)
      (readVec (decodeEnum (internModule m).strings)) (m.enums.map id) := by
  refine codes_vec le_rfl (fun e _ => joined_ne_nil (some_writeUvarint_ne_nil _)) fun e member =>
    codes_enum le_rfl exact fun s used => mem_internModule ?_
  exact List.mem_append_left _ (List.mem_append_left _ (List.mem_append_right _ (List.mem_flatMap.mpr ⟨e, member, used⟩)))

private theorem codes_functions
    (natives : ∀ f ∈ m.functions, ∀ native argc, Instr.callNative native argc ∈ f.code → (nativeName native).isSome) :
    Codes (2 ^ 64) (writeVec (encodeFunction (internModule m)) m.functions)
      (readVec (decodeFunction (internModule m).strings)) (m.functions.map fun f => { f with name := "" }) := by
  refine codes_vec le_rfl (fun f _ => joined_ne_nil (some_writeUvarint_ne_nil _)) fun f member =>
    codes_function le_rfl exact (fun s used => mem_internModule ?_) (natives f member)
  exact List.mem_append_left _ (List.mem_append_right _ (List.mem_flatMap.mpr ⟨f, member, used⟩))

private theorem codes_dispatch :
    Codes (2 ^ 64) (writeVec (encodeDispatchEntry (internModule m)) m.dispatch)
      (readVec (decodeDispatchEntry (internModule m).strings)) (m.dispatch.map id) := by
  refine codes_vec le_rfl (fun e _ => joined_ne_nil (some_writeUvarint_ne_nil _)) fun e member =>
    codes_dispatchEntry exact (mem_internModule ?_)
  exact List.mem_append_right _ (List.mem_map.mpr ⟨e, member, rfl⟩)

end

private theorem codes_strs (name : α → String) (values : List α) :
    Codes (2 ^ 64) (writeVec (fun value => some (writeStr (name value))) values) (readVec readStr)
      (values.map name) :=
  codes_vec le_rfl (fun value _ => some_writeStr_ne_nil (name value)) fun value _ => codes_str le_rfl (name value)

/-- The globals section is written exactly when there are globals to count. -/
private theorem payloadOr_globals (count : UInt32) :
    payloadOr (if decide (0 < count) then some (writeUvarint count.toUInt64) else none) 0
      (UInt64.toUInt32 <$> readUvarint) = .ok count := by
  by_cases some_ : 0 < count
  · simpa [some_] using payloadOr_reads ((reads_writeUvarint count.toUInt64).map UInt64.toUInt32)
  · have none_ : count = 0 := by
      apply UInt32.toNat_inj.mp
      rw [UInt32.lt_iff_toNat_lt, UInt32.toNat_zero] at some_
      rw [UInt32.toNat_zero]
      omega
    subst none_
    rfl

private theorem payloadOr_entry (entry init : Option UInt32) :
    payloadOr (if entry.isSome || init.isSome then
        some (writeUvarint (entryField entry).toUInt64 ++ writeUvarint (entryField init).toUInt64) else none)
      (none, none) decodeEntry =
      .ok (decodeOptIndex (entryField entry).toUInt64, decodeOptIndex (entryField init).toUInt64) := by
  have reads (entry init : UInt64) : Reads decodeEntry (writeUvarint entry ++ writeUvarint init)
      (decodeOptIndex entry, decodeOptIndex init) :=
    (reads_writeUvarint entry).bind ((reads_writeUvarint init).check (Reads.pure _))
  cases entry with
  | some i => exact payloadOr_reads (reads _ _)
  | none =>
    cases init with
    | some i => exact payloadOr_reads (reads _ _)
    | none => rfl

/-- Rebuilding a module from its tables restores the dispatch index as well. -/
private theorem setDispatch_withTypes (m : Module) (entry init : Option UInt32) :
    ({ (Module.withTypes m.functions m.types).setDispatch m.dispatch with
        enums := m.enums, globalCount := m.globalCount, entry, init } : Module) = { m with entry, init } := by
  obtain ⟨_, _, _, _, _, _, _, _, rfl⟩ := m
  rfl

private theorem decodeSections_recorded {m : Module} {pool : List String}
    {consts types enums funcs symbols dispatch : List UInt8}
    (readConsts : Reads (readVec readStr) consts pool)
    (readTypes : Reads (readVec (decodeType pool version)) types m.types)
    (readFuncs : Reads (readVec (decodeFunction pool)) funcs (m.functions.map fun f => { f with name := "" }))
    (readSymbols : Reads (readVec readStr) symbols (m.functions.map Function.name))
    (readEnums : m.enums ≠ [] → Reads (readVec (decodeEnum pool)) enums m.enums)
    (readDispatch : m.dispatch ≠ [] → Reads (readVec (decodeDispatchEntry pool)) dispatch m.dispatch) :
    decodeSections version
      { consts := some consts, types := some types, enums := if m.enums.isEmpty then none else some enums
        funcs := some funcs, symbols := some symbols
        dispatch := if m.dispatch.isEmpty then none else some dispatch
        globals := if decide (0 < m.globalCount) then some (writeUvarint m.globalCount.toUInt64) else none
        entry := if (recordedOr m m.entry "main").isSome || (recordedOr m m.init "<init>").isSome then
          some (writeUvarint (entryField (recordedOr m m.entry "main")).toUInt64 ++
            writeUvarint (entryField (recordedOr m m.init "<init>")).toUInt64) else none } = .ok m.onWire := by
  simp only [decodeSections, payloadOr_reads readConsts, payloadOr_reads readTypes, payloadOr_reads readFuncs,
    payloadOr_reads readSymbols, bind, Except.bind]
  simp only [Module.withTypes, payloadOr_omitted readEnums, payloadOr_omitted readDispatch, payloadOr_globals,
    payloadOr_entry, nameFunctions_names]
  exact congrArg Except.ok (setDispatch_withTypes m _ _)

/-- Decoding what `encodeModule` wrote yields the module with its entry points resolved. -/
theorem decodeModule_encodeModule {m : Module} (wellformed : m.Wellformed)
    (exact : (internModule m).strings.length ≤ 2 ^ 32) :
    ∃ bytes, encodeModule m = some bytes ∧ (bytes.length < 2 ^ 64 → decodeModule bytes = .ok m.onWire) := by
  obtain ⟨consts, wroteConsts, readConsts⟩ := codes_strs id (internModule m).strings
  obtain ⟨types, wroteTypes, readTypes⟩ := codes_types exact wellformed.fields
  obtain ⟨enums, wroteEnums, readEnums⟩ := codes_enums exact
  obtain ⟨funcs, wroteFuncs, readFuncs⟩ := codes_functions exact wellformed.natives
  obtain ⟨symbols, wroteSymbols, readSymbols⟩ := codes_strs Function.name m.functions
  obtain ⟨dispatch, wroteDispatch, readDispatch⟩ := codes_dispatch exact
  simp only [id] at wroteConsts
  rw [List.map_id] at readConsts readTypes readEnums readDispatch
  obtain ⟨sections, wrote, shape⟩ : ∃ sections, moduleSections m = some sections ∧ sections =
      [(Section.constants, consts), (Section.types, types)] ++
        (if m.enums.isEmpty then [] else [(Section.enums, enums)]) ++
        [(Section.functions, funcs), (Section.symbols, symbols)] ++
        (if m.dispatch.isEmpty then [] else [(Section.dispatch, dispatch)]) ++
        (if decide (0 < m.globalCount) then [(Section.globals, writeUvarint m.globalCount.toUInt64)] else []) ++
        (if (recordedOr m m.entry "main").isSome || (recordedOr m m.init "<init>").isSome then
          [(Section.entry, writeUvarint (entryField (recordedOr m m.entry "main")).toUInt64 ++
            writeUvarint (entryField (recordedOr m m.init "<init>")).toUInt64)] else []) := by
    refine ⟨_, ?_, rfl⟩
    simp only [moduleSections, wroteConsts, wroteTypes, wroteEnums, wroteFuncs, wroteSymbols, wroteDispatch,
      decide_eq_true_eq]
    rfl
  refine ⟨magic ++ writeU32Le version ++ sections.flatMap fun entry => writeSection entry.1 entry.2,
    by rw [encodeModule, wrote]; rfl, fun short => ?_⟩
  obtain ⟨few, bounded⟩ := length_le_flatMap_section sections
  have small : ∀ entry ∈ sections, entry.2.length < 2 ^ 64 := fun entry member => by
    have := bounded entry member
    rw [List.length_append] at short
    omega
  have collected := @readSections_read _ _ (fun entry => entry) sections {} _ few fun entry member => reads_section (small entry member)
  rw [shape, foldl_record] at collected
  change (readHeader _ >>= fun pair => readSections pair.2.length {} pair.2 >>= fun found =>
    decodeSections pair.1 found.1) = _
  rw [reads_header]
  change (readSections _ {} _ >>= fun found => decodeSections version found.1) = _
  rw [shape, collected]
  have fits (id : UInt8) {payload : List UInt8} (member : (id, payload) ∈ sections) : payload.length < 2 ^ 64 :=
    small (id, payload) member
  exact decodeSections_recorded (readConsts (fits Section.constants (by simp [shape])))
    (readTypes (fits Section.types (by simp [shape]))) (readFuncs (fits Section.functions (by simp [shape])))
    (readSymbols (fits Section.symbols (by simp [shape])))
    (fun some_ => readEnums (fits Section.enums (by simp [shape, some_])))
    (fun some_ => readDispatch (fits Section.dispatch (by simp [shape, some_])))

end Thera.Bytecode
