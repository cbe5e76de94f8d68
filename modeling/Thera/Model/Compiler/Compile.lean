import Thera.Model.Compiler.Calls

/-! # Compiling units and programs

Every unit is compiled by a compiler of its own over the shared scope, lifted lambdas after the units
that lift them, and the init thunk last. A finished compiler is kept beside the function it yields.
-/

namespace Thera.Compiler

/-- The receiver type of a method: a primitive, or the named type applied to its own parameters. -/
def namedSelfType (library : Library) (name : String) (file : Option String) : Ty :=
  match primitiveType name with
  | some p => p
  | none =>
      let id : TypeId := ⟨library.resolveTypeOwner file name none, name⟩
      match library.typeDef id with
      | some element => .interface id (element.typeParameters.map .typeParameter)
      | none => .interface ⟨"", name⟩ []

/-- The type parameters of a receiver type. -/
def selfTypeParamNames : Ty → List String
  | .interface _ args => args.filterMap fun arg => match arg with
      | .typeParameter name => some name
      | _ => none
  | _ => []

/-- The return type a lifted lambda was given, if anything typed it. -/
def LambdaInfo.knownReturn (info : LambdaInfo) : Option Ty :=
  match info.returnType with
  | .unknown => none
  | ty => some ty

section

variable (library : Library)

/-- The bounds in scope in a unit: its own, and those of the function a lambda was lifted from. -/
def unitBounds (unit : CodeUnit) (lambda : Option LambdaInfo) : String → Option (List TypeId) :=
  let ids (tp : TypeParam) : List TypeId :=
    tp.bounds.map fun b => ⟨library.resolveTypeOwner unit.file b.name b.qualifier, b.name⟩
  let own : String → Option (List TypeId) := unit.decl.typeParams.foldl (fun bounds tp =>
    Function.update bounds tp.name (some (ids tp))) fun _ => none
  match lambda with
  | some info => fun name => (info.bounds name).or (own name)
  | none => own

/-- The inference context of a unit, which the checker's agrees with. -/
def unitCtx (unit : CodeUnit) (lambda : Option LambdaInfo) : InferCtx :=
  let selfType := unit.selfType.map fun name => namedSelfType library name unit.file
  let typeParams := (unit.decl.typeParams.map TypeParam.name).foldl addTo
    ((selfType.map selfTypeParamNames).getD [])
  let annotated := unit.decl.returnType.map fun ref => library.resolveTypeRef ref unit.file typeParams selfType
  ⟨typeParams, selfType, (lambda.bind LambdaInfo.knownReturn).or annotated,
    unitBounds library unit lambda, unit.file⟩

/-- Whether a return type is the core `Result`. -/
def isResultType (ty : Option Ty) : Bool := (ty.bind typeIdOfType).any fun id => library.isCoreId id "Result"

/-- Whether the success payload of a type is `Void`. -/
def voidPayload : Option Ty → Bool
  | some (.interface _ (payload :: _)) => isUnitTy payload
  | _ => false

/-- The names a unit keeps in cells: captures that arrive in one, and its own captured `mut` locals. -/
def unitBoxed (unit : CodeUnit) (lambda : Option LambdaInfo) : List String :=
  ((lambda.map LambdaInfo.boxed).getD []) ++ (unit.decl.body.map boxedMutLocals).getD []

/-- The type of a parameter: the receiver's, the one stashed for a lambda, or the annotated one. -/
def paramType (ctx : InferCtx) (file : Option String) (lambda : Option LambdaInfo) (p : Param) : Ty :=
  if p.isSelf then ctx.selfType.getD .unknown
  else match lambda with
    | some info => (info.paramTypes p.name).getD .unknown
    | none => (p.typeAnn.map fun ref => library.resolveTypeRef ref file ctx.typeParams ctx.selfType).getD .unknown

/-- Declare a parameter; `captured` says of a capture whether it arrives in a cell. -/
def declareParam (ctx : InferCtx) (file : Option String) (lambda : Option LambdaInfo) (p : Param)
    (captured : Option Bool) (c : FnCompiler) : FnCompiler :=
  let declared := c.declareLocal p.name (if captured.isSome then .capture else .parameter)
  let noted := if captured = some true then declared.holdCell c.localCount else declared
  { noted.setType p.name (paramType library ctx file lambda p) with paramCount := c.paramCount + 1 }

/-- The compiler of a unit before its body: the context and the parameters. -/
def enterUnit (c : FnCompiler) (unit : CodeUnit) (lambda : Option LambdaInfo) : FnCompiler :=
  let ctx := unitCtx library unit lambda
  let captured := (lambda.map LambdaInfo.captures).getD []
  let returnsResult := isResultType library ctx.returnType
  let c := { c with
    file := unit.file
    typeParamBounds := unitBounds library unit lambda
    ctx := ctx
    returnsResult := returnsResult
    resultVoid := returnsResult && voidPayload ctx.returnType
    boxedLocals := unitBoxed unit lambda }
  unit.decl.params.zipIdx.foldl (fun c (p, i) =>
    declareParam library ctx unit.file lambda p (captured[i]?.map Prod.snd) c) c

/-- Make the stream end in a return, also where the last instruction is one but a jump lands past it. -/
def emitEpilogue : Emit Unit := do
  let c ← get
  if c.code.isEmpty || !c.endsInReturn || c.jumpTargetsEnd then
    emit (.simple .constUnit)
    if c.resultVoid then emit (.enumNew tyResult tagOk 1)
    emit (.simple .return)

/-- Compile a unit from a fresh compiler; the finished one, with its jumps resolved. -/
def compileUnit (w : Walker) (scope : ModuleScope) (errors : List Diagnostic) (index : ℕ) : Option FnCompiler := do
  let unit ← scope.units[index]?
  let c := enterUnit library (newFnCompiler scope errors) unit (scope.lambdas.get index)
  let ((), c) ← (do
    match unit.decl.body with
    | some body => w.block body
    | none => pure ()
    emitEpilogue).run c
  return c.resolveJumps

/-- Natives whose result would be a stale snapshot at load time. -/
def forbiddenInInitializer (symbol : String) : Bool :=
  symbol.startsWith "time_" || symbol.startsWith "fs_" || symbol.startsWith "socket_" ||
    symbol ∈ ["random_seed_entropy", "env_set", "env_set_current_dir", "env_exit"]

/-- Report the forbidden natives called in the code emitted since `start`. -/
def rejectEffectfulNatives (start : ℕ) (span : Span) : Emit Unit := do
  ((← get).code.drop start).forM fun instr =>
    match instr with
    | .callNative name _ =>
        if forbiddenInInitializer name then
          error (s!"a module-level `let` initializer may not call `{name}` (time-varying or I/O); " ++
            "see docs/language.md") span
        else pure ()
    | _ => pure ()

/-- One global: its initializer in its own file with no locals, then the store. -/
def compileGlobalInit (w : Walker) (init : GlobalInit) : Emit Unit := do
  modify fun c => { c with
    file := init.file
    ctx := { c.ctx with currentFile := init.file }
    slots := fun _ => none
    typeScope := fun _ => none }
  let start := (← get).code.length
  w.exprExpecting init.value (library.constType init.file init.name)
  rejectEffectfulNatives start init.span
  emit (.globalSet init.slot)

/-- The thunk that fills every global slot, in dependency order. -/
def compileInitThunk (w : Walker) (fuel : ℕ) (scope : ModuleScope) (errors : List Diagnostic) :
    Option FnCompiler := do
  let (inits, errors) ← orderGlobalInits library scope errors fuel
  let ((), c) ← (do
    inits.forM (compileGlobalInit library w)
    emit (.simple .constUnit)
    emit (.simple .return)).run (newFnCompiler scope errors)
  return c.resolveJumps

/-- The finished compilers of a program so far, over the scope they grow. -/
structure Progress where
  scope : ModuleScope
  errors : List Diagnostic
  /-- One per unit compiled, with the unit's name. -/
  compiled : List (String × FnCompiler)

/-- Compile the units from the first one that is not done; compiling may add more. -/
def compileUnits (w : Walker) : ℕ → Progress → Option Progress
  | fuel, p =>
      match p.scope.units[p.compiled.length]? with
      | none => some p
      | some unit =>
          match fuel with
          | 0 => none
          | fuel + 1 => do
              let c ← compileUnit library w p.scope p.errors p.compiled.length
              compileUnits w fuel ⟨c.scope, c.errors, p.compiled ++ [(unit.name, c)]⟩

def initThunkName : String := "<init>"

/-- Every unit, then the thunk and the lambdas it lifts; the thunk itself comes last. -/
def compileAll (fuel : ℕ) (scope : ModuleScope) : Option Progress := do
  let w := walker library fuel
  let p ← compileUnits library w fuel ⟨scope, [], []⟩
  if p.scope.globalInits.isEmpty then return p
  else
    let thunk ← compileInitThunk library w fuel p.scope p.errors
    let p ← compileUnits library w fuel ⟨thunk.scope, thunk.errors, p.compiled⟩
    return { p with compiled := p.compiled ++ [(initThunkName, thunk)] }

/-- The scope all modules are registered in, imports first. -/
def programScope (fuel : ℕ) (program : Program) (imports : List Program) : Option ModuleScope := do
  let scope := (imports ++ [program]).foldl (fun scope m => scope.registerModule library m) newModuleScope
  (← scope.flattenInterfaces fuel).wireDefaultMethods fuel

def FnCompiler.funcDef (c : FnCompiler) (name : String) : FuncDef := ⟨name, c.paramCount, c.localCount, c.code⟩

structure CodegenResult where
  module : Module
  errors : List Diagnostic
  /-- The compilers behind the module's functions; not in the source. -/
  compilers : List FnCompiler

def compileProgram (fuel : ℕ) (program : Program) (imports : List Program) : Option CodegenResult := do
  let scope ← programScope library fuel program imports
  let p ← compileAll library fuel scope
  let (entries, unresolved) := p.scope.buildDispatch
  return {
    module := {
      functions := p.compiled.map fun (name, c) => c.funcDef name
      types := p.scope.types
      enums := p.scope.emitEnums
      dispatch := entries
      globalCount := p.scope.nextGlobalSlot }
    errors := p.errors ++ unresolved.map fun row =>
      .at s!"internal: unresolved dispatch row `{row.typeName}.{row.selector}`" row.span
    compilers := p.compiled.map Prod.snd }

end

end Thera.Compiler
