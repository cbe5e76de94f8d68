import Thera.Proofs.Compiler.Emits
import Thera.Proofs.Compiler.Tables
import Thera.ToMathlib.PartialState

/-! # Where the rows of a scope come from

Every row that registration puts in a table belongs to a declaration, and every index it stores is in range.
-/

namespace Thera.Compiler

open PartialState

def Decl.methods : Decl → List FnDecl
  | .interface x => x.methods
  | .impl x => x.methods
  | _ => []

/-- The functions and methods a declaration holds. -/
def Decl.functions : Decl → List FnDecl
  | .fn x => [x]
  | d => d.methods

theorem Decl.methods_subset (d : Decl) : d.methods ⊆ d.functions := by
  cases d with
  | fn => exact List.nil_subset _
  | _ => exact List.Subset.refl _

/-- The rows of a scope in which the declarations `decls` were registered and no body was compiled. -/
structure ModuleScope.Registered (decls : List Decl) (scope : ModuleScope) : Prop where
  units : ∀ unit ∈ scope.units, ∃ d ∈ decls, unit.decl ∈ d.functions
  functions : ∀ {owner name : String} {i : ℕ}, scope.functionInFile owner name = some i →
    ∃ unit, scope.units[i]? = some unit ∧ .fn unit.decl ∈ decls
  methods : ∀ {id : TypeId} {name : String} {i : ℕ}, scope.methodTable.getIn id name = some i →
    ∃ unit, scope.units[i]? = some unit ∧ ∃ d ∈ decls, unit.decl ∈ d.methods
  consts : ∀ {owner name : String} {e : Expr}, scope.constInFile owner name = some e → ∃ x, .const x ∈ decls ∧ x.value = e
  structs : ∀ {owner name : String} {info : StructInfo}, scope.resolveStruct owner name = some info →
    scope.types[info.index]?.map TypeDef.fieldCount = some info.fieldNames.length ∧
      ∃ x, .type x ∈ decls ∧ x.fields = info.fieldNames
  enums : ∀ {owner name : String} {info : EnumInfo}, scope.resolveEnum owner name = some info →
    info.ty < scope.nextEnumTy ∧ ∃ x, .enum x ∈ decls ∧ x.variants = info.variants
  enums_pos : tyOrdering < scope.nextEnumTy
  enums_le : scope.nextEnumTy ≤ scope.emitEnums.length + 3
  globals : ∀ {owner name : String} {slot : ℕ}, scope.globalInFile owner name = some slot → slot < scope.nextGlobalSlot
  inits : ∀ init ∈ scope.globalInits, init.slot < scope.nextGlobalSlot ∧ ∃ x, .let x ∈ decls ∧ x.value = init.value
  sigs : ∀ row ∈ scope.interfaceMethodSigs, ∀ entry ∈ row.2, ∃ d ∈ decls, ∃ f ∈ d.methods, f.params = entry.2.params
  cell : scope.cellType = none
  lambdas : scope.lambdas = []

namespace ModuleScope.Registered

variable {decls : List Decl} {scope : ModuleScope} {file : Option String}

theorem empty (decls : List Decl) : newModuleScope.Registered decls := by
  constructor <;> simp [newModuleScope, ModuleScope.functionInFile, ModuleScope.constInFile, ModuleScope.resolveStruct,
    ModuleScope.resolveEnum, ModuleScope.globalInFile, Table.getIn, tyOrdering]

section

variable (known : scope.Registered decls)

include known

/-- One more unit leaves the indices in range. -/
theorem addUnit {x : FnDecl} {d : Decl} (declared : d ∈ decls) (member : x ∈ d.functions) (name : String)
    (selfType : Option String) : (scope.addUnit x name selfType file).Registered decls := by
  refine { known with units := fun unit there => ?_, functions := fun there => ?_, methods := fun there => ?_ }
  · rcases List.mem_append.mp there with old | new
    · exact known.units unit old
    · obtain rfl := List.mem_singleton.mp new
      exact ⟨d, declared, member⟩
  · obtain ⟨unit, here, origin⟩ := known.functions there
    exact ⟨unit, (List.prefix_append _ _).getElem?_some here, origin⟩
  · obtain ⟨unit, here, origin⟩ := known.methods there
    exact ⟨unit, (List.prefix_append _ _).getElem?_some here, origin⟩

theorem addFunction {x : FnDecl} (declared : .fn x ∈ decls) : (scope.addFunction x file).Registered decls := by
  have added : (scope.addUnit x x.name none file).Registered decls :=
    known.addUnit declared (List.mem_singleton_self x) x.name none
  refine { added with functions := fun there => ?_ }
  rcases Table.getIn_setIn_cases there with rfl | old
  · exact ⟨⟨x, x.name, none, file⟩, List.getElem?_concat_length, declared⟩
  · exact added.functions old

theorem addMethod {x : FnDecl} {d : Decl} (declared : d ∈ decls) (member : x ∈ d.methods) (key : TypeId)
    (typeName : String) : (scope.addMethod key typeName x file).Registered decls := by
  have added (name : String) (selfType : Option String) : (scope.addUnit x name selfType file).Registered decls :=
    known.addUnit declared (d.methods_subset member) name selfType
  refine { added _ _ with methods := fun there => ?_ }
  rcases Table.getIn_setIn_cases there with rfl | old
  · exact ⟨_, List.getElem?_concat_length, d, declared, member⟩
  · exact (added _ _).methods old

theorem addStruct {x : TypeDecl} (declared : .type x ∈ decls) : (scope.addStruct x file).Registered decls := by
  refine { known with structs := fun {owner name info} there => ?_ }
  rcases Table.getIn_setIn_cases there with rfl | old
  · exact ⟨by simp [ModuleScope.addStruct], x, declared, rfl⟩
  · obtain ⟨laid, origin⟩ := known.structs old
    obtain ⟨layout, here, _⟩ := Option.map_eq_some_iff.mp laid
    refine ⟨?_, origin⟩
    simp only [ModuleScope.addStruct]
    rwa [List.getElem?_append_left (List.getElem?_eq_some_iff.mp here).1]

theorem addEnum (library : Library) {x : EnumDecl} (declared : .enum x ∈ decls) :
    (scope.addEnum library x file).Registered decls := by
  have grows : scope.nextEnumTy ≤ (scope.addEnum library x file).nextEnumTy := by
    simp only [ModuleScope.addEnum]
    split <;> omega
  have fixed_lt : ∀ ty, coreEnumTy library (fileKey file) x.name = some ty → ty < scope.nextEnumTy := by
    intro ty fixed
    have pos := known.enums_pos
    unfold coreEnumTy at fixed
    split_ifs at fixed <;> cases fixed <;> simp only [tyOrdering, tyResult, tyOption] at pos ⊢ <;> omega
  refine { known with
    enums := fun {owner name info} there => ?_, enums_pos := Nat.lt_of_lt_of_le known.enums_pos grows, enums_le := ?_ }
  rcases Table.getIn_setIn_cases there with rfl | old
  · refine ⟨?_, x, declared, rfl⟩
    cases fixed : coreEnumTy library (fileKey file) x.name with
    | some ty => simpa [ModuleScope.addEnum, fixed] using fixed_lt ty fixed
    | none => simp [ModuleScope.addEnum, fixed]
  · exact ⟨Nat.lt_of_lt_of_le (known.enums old).1 grows, (known.enums old).2⟩
  · have le := known.enums_le
    simp only [ModuleScope.addEnum, List.length_append, List.length_singleton]
    split <;> omega

theorem addConst {x : ConstDecl} (declared : .const x ∈ decls) : (scope.addConst x file).Registered decls := by
  refine { known with consts := fun there => ?_ }
  rcases Table.getIn_setIn_cases there with rfl | old
  · exact ⟨x, declared, rfl⟩
  · exact known.consts old

theorem addGlobal {x : LetDecl} (declared : .let x ∈ decls) : (scope.addGlobal x file).Registered decls := by
  refine { known with globals := fun there => ?_, inits := fun init there => ?_ }
  · rcases Table.getIn_setIn_cases there with rfl | old
    · exact Nat.lt_succ_self _
    · exact Nat.lt_succ_of_lt (known.globals old)
  · rcases List.mem_append.mp there with old | new
    · exact ⟨Nat.lt_succ_of_lt (known.inits init old).1, (known.inits init old).2⟩
    · obtain rfl := List.mem_singleton.mp new
      exact ⟨Nat.lt_succ_self _, x, declared, rfl⟩

end

/-- The signatures of an interface are those of its methods. -/
theorem interface_sigs (methods : List FnDecl) {entry : String × IfaceMethodSig}
    (there : entry ∈ methods.foldl (fun sigs m => Table.set sigs m.name ⟨m.params, file⟩) []) :
    ∃ f ∈ methods, f.params = entry.2.params := by
  suffices step : ∀ sigs : Table String IfaceMethodSig,
      entry ∈ methods.foldl (fun sigs m => Table.set sigs m.name ⟨m.params, file⟩) sigs →
      (∃ f ∈ methods, f.params = entry.2.params) ∨ entry ∈ sigs by
    simpa using step [] there
  clear there
  induction methods with
  | nil => exact fun sigs there => .inr there
  | cons f rest ih =>
    intro sigs there
    rcases ih _ there with ⟨g, member, same⟩ | earlier
    · exact .inl ⟨g, List.mem_cons_of_mem _ member, same⟩
    · rcases Table.mem_set_cases earlier with new | old
      · exact .inl ⟨f, List.mem_cons_self, by rw [new]⟩
      · exact .inr old

section

variable (known : scope.Registered decls)

include known

/-- Setting a row of signatures of declared methods. -/
theorem setSigs {key : TypeId} {row : Table String IfaceMethodSig}
    (declared : ∀ entry ∈ row, ∃ d ∈ decls, ∃ f ∈ d.methods, f.params = entry.2.params) :
    ∀ row' ∈ scope.interfaceMethodSigs.set key row, ∀ entry ∈ row'.2,
      ∃ d ∈ decls, ∃ f ∈ d.methods, f.params = entry.2.params := by
  intro row' member entry inside
  rcases Table.mem_set_cases member with rfl | old
  · exact declared entry inside
  · exact known.sigs row' old entry inside

theorem addInterface (library : Library) {x : InterfaceDecl} (declared : .interface x ∈ decls) :
    (scope.addInterface library x file).Registered decls := by
  refine { known with sigs := known.setSigs fun entry there => ?_ }
  obtain ⟨f, member, same⟩ := interface_sigs x.methods there
  exact ⟨_, declared, f, member, same⟩

theorem registerMethod {x : ImplDecl} (declared : .impl x ∈ decls) {method : FnDecl} (member : method ∈ x.methods)
    (owner : String) : (scope.registerMethod file x owner method).Registered decls := by
  have added : (scope.addMethod ⟨owner, x.typeName⟩ x.typeName method file).Registered decls :=
    known.addMethod declared member _ _
  unfold ModuleScope.registerMethod
  dsimp only
  split_ifs <;> first | exact { known with } | exact { added with }

/-- A fold whose rounds keep the rows of a scope in order keeps them in order. -/
theorem foldl {β : Type} (xs : List β) (f : ModuleScope → β → ModuleScope)
    (round : ∀ x ∈ xs, ∀ scope : ModuleScope, scope.Registered decls → (f scope x).Registered decls) :
    (xs.foldl f scope).Registered decls := by
  induction xs generalizing scope with
  | nil => exact known
  | cons x rest ih =>
    exact ih (round x List.mem_cons_self _ known) fun y member => round y (List.mem_cons_of_mem _ member)

theorem registerDecl (library : Library) {d : Decl} (declared : d ∈ decls) :
    (scope.registerDecl library file d).Registered decls := by
  cases d with
  | fn x =>
    rw [ModuleScope.registerDecl]
    split
    · exact { known with }
    · exact known.addFunction declared
  | type x =>
    rw [ModuleScope.registerDecl]
    split
    · exact known
    · exact known.addStruct declared
  | enum x => exact known.addEnum library declared
  | const x => exact known.addConst declared
  | «let» x => exact known.addGlobal declared
  | interface x =>
    refine (known.addInterface library declared).foldl _ _ fun method member scope known => ?_
    split
    · exact known.addMethod declared member _ _
    · exact known
  | impl x =>
    refine foldl ?_ _ _ fun method member scope known => known.registerMethod declared member _
    split
    · exact { known with }
    · exact known
  | «import» => exact known

theorem registerModule (library : Library) {program : Program} (declared : program.decls ⊆ decls) :
    (scope.registerModule library program).Registered decls :=
  known.foldl _ _ fun _ member _ known => known.registerDecl library (declared member)

end

/-! ## Inheritance -/

/-- The signatures of an interface with those it inherits. -/
theorem inherited_sigs {own inherited : Table String IfaceMethodSig} {entry : String × IfaceMethodSig}
    (there : entry ∈ inherited.foldl (fun own (m, sig) => if own.has m then own else Table.set own m sig) own) :
    entry ∈ own ∨ ∃ entry' ∈ inherited, entry'.2 = entry.2 := by
  induction inherited generalizing own with
  | nil => exact .inl there
  | cons first rest ih =>
    rcases ih there with earlier | ⟨entry', member, same⟩
    · dsimp only at earlier
      split at earlier
      · exact .inl earlier
      · rcases Table.mem_set_cases earlier with new | old
        · exact .inr ⟨first, List.mem_cons_self, new.symm⟩
        · exact .inl old
    · exact .inr ⟨entry', List.mem_cons_of_mem _ member, same⟩

theorem flattenFrom (known : scope.Registered decls) {name : TypeId} {fuel : ℕ} {queue seen : List TypeId}
    {flat : ModuleScope} (run : ModuleScope.flattenFrom name fuel queue seen scope = some flat) :
    flat.Registered decls := by
  induction fuel generalizing queue seen scope with
  | zero =>
    cases queue with
    | nil => exact Option.some.inj run ▸ known
    | cons => cases run
  | succ fuel ih =>
    cases queue with
    | nil => exact Option.some.inj run ▸ known
    | cons super queue =>
      rw [ModuleScope.flattenFrom] at run
      split at run
      · exact ih known run
      · refine ih ?_ run
        split
        next own inherited ownRow superRow =>
          refine { known with sigs := known.setSigs fun entry there => ?_ }
          obtain ⟨ownKey, ownRow⟩ := Table.mem_of_get ownRow
          obtain ⟨superKey, superRow⟩ := Table.mem_of_get superRow
          rcases inherited_sigs there with mine | ⟨entry', theirs, same⟩
          · exact known.sigs _ ownRow entry mine
          · exact same ▸ known.sigs _ superRow entry' theirs
        next => exact { known with }

theorem flattenInterfaces (known : scope.Registered decls) {fuel : ℕ} {flat : ModuleScope}
    (run : scope.flattenInterfaces fuel = some flat) : flat.Registered decls :=
  foldlM_keeps known (fun _ _ _ _ known run => known.flattenFrom run) run

theorem wireOneDefault (known : scope.Registered decls) {owner typeName method : String} {idx : Option ℕ}
    (origin : ∀ i, idx = some i → ∃ unit, scope.units[i]? = some unit ∧ ∃ d ∈ decls, unit.decl ∈ d.methods) :
    (scope.wireOneDefault owner typeName method idx).Registered decls := by
  cases idx with
  | none => exact known
  | some i =>
    rw [ModuleScope.wireOneDefault]
    dsimp only
    split
    · exact known
    · refine { known with methods := fun there => ?_ }
      rcases Table.getIn_setIn_cases there with rfl | old
      · exact origin _ rfl
      · exact known.methods old

/-- Wiring adds no units. -/
theorem wireOneDefault_units (owner typeName method : String) (unit : Option ℕ) :
    (scope.wireOneDefault owner typeName method unit).units = scope.units := by
  cases unit with
  | none => rfl
  | some i =>
    rw [ModuleScope.wireOneDefault]
    dsimp only
    split <;> rfl

theorem wireFrom (known : scope.Registered decls) {info : ImplInfo} {fuel : ℕ} {queue seen : List TypeId}
    {wired : ModuleScope} (run : ModuleScope.wireFrom info fuel queue seen scope = some wired) :
    wired.Registered decls := by
  induction fuel generalizing queue seen scope with
  | zero =>
    cases queue with
    | nil => exact Option.some.inj run ▸ known
    | cons => cases run
  | succ fuel ih =>
    cases queue with
    | nil => exact Option.some.inj run ▸ known
    | cons iface queue =>
      rw [ModuleScope.wireFrom] at run
      split at run
      · exact ih known run
      · refine ih ?_ run
        -- The units do not change along the way, so the defaults stay where they are.
        generalize rows : (scope.methodTable.get iface).getD [] = defaults
        have origin (m : String) (i : ℕ) (found : defaults.get m = some i) :
            ∃ unit, scope.units[i]? = some unit ∧ ∃ d ∈ decls, unit.decl ∈ d.methods := by
          subst rows
          cases row : scope.methodTable.get iface with
          | none => simp [row] at found
          | some methods => exact known.methods (Option.bind_eq_some_iff.mpr ⟨methods, row, by simpa [row] using found⟩)
        generalize defaults.keys = names
        clear ih run rows
        induction names generalizing scope with
        | nil => exact known
        | cons m rest ih =>
          refine ih (known.wireOneDefault (origin m)) fun m' i found => ?_
          rw [wireOneDefault_units]
          exact origin m' i found

theorem wireDefaultMethods (known : scope.Registered decls) {fuel : ℕ} {wired : ModuleScope}
    (run : scope.wireDefaultMethods fuel = some wired) : wired.Registered decls :=
  foldlM_keeps known (fun _ _ _ _ known run => known.wireFrom run) run

end ModuleScope.Registered

/-- The declarations of a program and its imports. -/
def declarations (program : Program) (imports : List Program) : List Decl := (imports ++ [program]).flatMap Program.decls

theorem programScope_registered {library : Library} {fuel : ℕ} {program : Program} {imports : List Program}
    {scope : ModuleScope} (run : programScope library fuel program imports = some scope) :
    scope.Registered (declarations program imports) := by
  obtain ⟨flat, flattened, wired⟩ := Option.bind_eq_some_iff.mp run
  refine ModuleScope.Registered.wireDefaultMethods (.flattenInterfaces (.foldl (.empty _) _ _ ?_) flattened) wired
  intro m member scope known
  exact known.registerModule library fun d inside => List.mem_flatMap.mpr ⟨m, member, inside⟩

/-! ## Ready to compile -/

/-- A declaration all of whose code has the property. -/
structure Decl.Has (H : Hereditary) (d : Decl) : Prop where
  params : ∀ f ∈ d.functions, H.params f.params
  bodies : ∀ f ∈ d.functions, ∀ body, f.body = some body → H.block body
  const : ∀ x, d = .const x → H.const x.value
  global : ∀ x, d = .let x → H.const x.value
  variants : H.balanced → ∀ x, d = .enum x → x.variants ≠ []

/-- The calls of `List.len` that the checker accepts: none passes an argument. -/
def LengthCalls (H : Hereditary) (library : Library) (scope : ModuleScope) : Prop :=
  ∀ {span span' : Span} {object : Expr} {member : String} {typeArgs recvTypeArgs : List TypeRef} {args : List CallArg},
    H.expr (.call span (.field span' object member) typeArgs recvTypeArgs args) →
    ∀ (types : TypeScope) (ctx : InferCtx) (t : String), nameOfType (library.inferExpr object types ctx none) = some t →
      scope.nativeInstanceMethods.getIn t member = some "list_len" → args = []

theorem ModuleScope.Registered.ready {H : Hereditary} {library : Library} {decls : List Decl} {scope : ModuleScope}
    (known : scope.Registered decls) (has : ∀ d ∈ decls, d.Has H) (lengths : H.balanced → LengthCalls H library scope) :
    scope.Ready H library where
  consts there := by
    obtain ⟨x, declared, rfl⟩ := known.consts there
    exact (has _ declared).const x rfl
  params unit member := by
    obtain ⟨d, declared, inside⟩ := known.units unit member
    exact (has d declared).params _ inside
  bodies unit member := by
    obtain ⟨d, declared, inside⟩ := known.units unit member
    exact (has d declared).bodies _ inside
  sigs there := by
    obtain ⟨row, inTable, inRow⟩ := Option.bind_eq_some_iff.mp there
    obtain ⟨_, rowMember⟩ := Table.mem_of_get inTable
    obtain ⟨_, entryMember⟩ := Table.mem_of_get inRow
    obtain ⟨d, declared, f, inside, same⟩ := known.sigs _ rowMember _ entryMember
    exact same ▸ (has d declared).params f (d.methods_subset inside)
  layouts there := (known.structs there).1
  cell there := by simp [known.cell] at there
  variants balanced _ _ _ there := by
    obtain ⟨_, x, declared, same⟩ := known.enums there
    exact same ▸ (has _ declared).variants balanced x rfl
  lengths balanced := lengths balanced

end Thera.Compiler
