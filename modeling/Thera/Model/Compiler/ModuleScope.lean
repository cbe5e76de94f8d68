import Thera.Model.Compiler.Element
import Thera.Model.Compiler.Instr
import Thera.ToMathlib.OrderedAssoc

/-! # Module-wide tables

Every module's functions, types and methods are registered in one scope before any body is compiled.
Functions and methods form a flat list of units; a unit's position is the index `call` uses. Lifted
lambdas join the units while bodies are compiled. The inheritance walks are bounded by fuel.
-/

namespace Thera.Compiler

/-- An insertion-ordered map. -/
abbrev Table (K V : Type) := List (K × V)

namespace Table

variable {K L V : Type} [DecidableEq K] [DecidableEq L]

def get (table : Table K V) (key : K) : Option V := OrderedAssoc.get (fun a b => decide (a = b)) table key

def has (table : Table K V) (key : K) : Bool := (table.get key).isSome

def set (table : Table K V) (key : K) (value : V) : Table K V :=
  OrderedAssoc.insert (fun a b => decide (a = b)) table key value

def keys (table : Table K V) : List K := table.map Prod.fst

/-- Look up in a table of tables; a missing row is an empty one. -/
def getIn (table : Table K (Table L V)) (row : K) (key : L) : Option V := do (← table.get row).get key

/-- Set in a table of tables, opening the row if there is none. -/
def setIn (table : Table K (Table L V)) (row : K) (key : L) (value : V) : Table K (Table L V) :=
  table.set row (((table.get row).getD []).set key value)

end Table

/-- Add to an insertion-ordered set. -/
def addTo {A : Type} [DecidableEq A] (set : List A) (a : A) : List A := if a ∈ set then set else set ++ [a]

/-- An error of a phase; its file is the one of the span. -/
structure Diagnostic where
  message : String
  span : Span
  file : Option String
  deriving DecidableEq

def Diagnostic.at (message : String) (span : Span) : Diagnostic :=
  ⟨message, span, if span.file = "" then none else some span.file⟩

/-- The absent span. -/
def noSpan : Span := ⟨"", "", 0, 0⟩

/-! ## Well-known enums -/

def tyResult : ℕ := 0
def tyOption : ℕ := 1
def tyOrdering : ℕ := 2
def tagOk : ℕ := 0
def tagErr : ℕ := 1
def tagNone : ℕ := 1

/-- A struct's row in the type table, and its field names in declaration order. -/
structure StructInfo where
  index : ℕ
  fieldNames : List String

/-- The position of a field, if the struct has it. -/
def fieldIndexOf (info : StructInfo) (name : String) : Option ℕ := info.fieldNames.findIdx? (· = name)

/-- An enum's runtime type id and its variants in declaration order, which fixes their tags. -/
structure EnumInfo where
  ty : ℕ
  variants : List EnumVariant

/-- The tag of a variant, if the enum has it. -/
def tagOf (info : EnumInfo) (name : String) : Option ℕ := info.variants.findIdx? fun v => v.name = name

def fieldCountOf (info : EnumInfo) (name : String) : ℕ :=
  match info.variants.find? fun v => v.name = name with
  | some variant => variant.fields.length
  | none => 0

/-- A module global's initializer, to run in the init thunk. -/
structure GlobalInit where
  slot : ℕ
  name : String
  span : Span
  value : Expr
  file : Option String

/-- A dispatch row still to be resolved. -/
structure PendingDispatch where
  owner : String
  typeName : String
  selector : String
  span : Span

/-- The interfaces a concrete type implements. -/
structure ImplInfo where
  owner : String
  typeName : String
  interfaces : List TypeId

/-- An interface method as a virtual call needs it: its parameters and the file their defaults compile in. -/
structure IfaceMethodSig where
  params : List Param
  file : Option String

/-- The owner-qualified key of a constant or global. -/
def typeKey (owner name : String) : String := owner ++ "#" ++ name

/-- One compiled unit: its declaration, mangled name, receiver type and file. -/
structure CodeUnit where
  decl : FnDecl
  name : String
  selfType : Option String
  file : Option String

/-- What a lifted lambda keeps of the place it was lifted from. The source has no `captures`: nothing
reads them but the record of which slots hold a cell. -/
structure LambdaInfo where
  /-- The captured names, and whether a cell was captured. -/
  captures : List (String × Bool)
  /-- The capture parameters that hold a cell, as the lifting function takes it. -/
  boxed : List String
  paramTypes : TypeScope
  returnType : Ty
  bounds : String → Option (List TypeId)

structure ModuleScope where
  units : List CodeUnit
  fileFunctions : Table String (Table String ℕ)
  methodTable : Table TypeId (Table String ℕ)
  structs : Table String (Table String StructInfo)
  enums : Table String (Table String EnumInfo)
  types : List TypeDef
  emitEnums : List EnumDef
  consts : Table String (Table String Expr)
  globals : Table String (Table String ℕ)
  globalInits : List GlobalInit
  nextGlobalSlot : ℕ
  nativeFns : Table String (Table String String)
  nativeStaticMethods : Table String (Table String String)
  nativeInstanceMethods : Table String (Table String String)
  nativeDisplaySymbols : Table String String
  interfaceImpls : Table TypeId ImplInfo
  interfaceMethods : Table TypeId (List String)
  interfaceMethodSigs : Table TypeId (Table String IfaceMethodSig)
  pendingDispatch : List PendingDispatch
  interfaceSupers : Table TypeId (List TypeId)
  nextEnumTy : ℕ
  cellType : Option ℕ
  /-- The lifted lambdas, by unit index. -/
  lambdas : Table ℕ LambdaInfo

def newModuleScope : ModuleScope where
  units := []
  fileFunctions := []
  methodTable := []
  structs := []
  enums := []
  types := []
  emitEnums := []
  consts := []
  globals := []
  globalInits := []
  nextGlobalSlot := 0
  nativeFns := []
  nativeStaticMethods := []
  nativeInstanceMethods := []
  nativeDisplaySymbols := []
  interfaceImpls := []
  interfaceMethods := []
  interfaceMethodSigs := []
  pendingDispatch := []
  interfaceSupers := []
  nextEnumTy := 3
  cellType := none
  lambdas := []

/-- The text of a string literal without interpolation. -/
def stringLiteral : Expr → Option String
  | .str _ [.text _ text] => some text
  | _ => none

/-- The runtime symbol of a native function: its `extern` decorator's argument, or its own name. -/
def externSymbol (decl : FnDecl) : String :=
  (decl.decorators.findSome? fun decorator =>
    if decorator.name = "extern" then decorator.args.head?.bind stringLiteral else none).getD decl.name

namespace ModuleScope

variable (library : Library) (scope : ModuleScope)

/-! ## Registration -/

def addUnit (decl : FnDecl) (name : String) (selfType file : Option String) : ModuleScope :=
  { scope with units := scope.units ++ [⟨decl, name, selfType, file⟩] }

def addFunction (decl : FnDecl) (file : Option String) : ModuleScope :=
  { scope.addUnit decl decl.name none file with
    fileFunctions := scope.fileFunctions.setIn (fileKey file) decl.name scope.units.length }

def addNative (decl : FnDecl) (file : Option String) : ModuleScope :=
  { scope with nativeFns := scope.nativeFns.setIn (fileKey file) decl.name (externSymbol decl) }

def addStruct (decl : TypeDecl) (file : Option String) : ModuleScope :=
  { scope with
    structs := scope.structs.setIn (fileKey file) decl.name ⟨scope.types.length, decl.fields⟩
    types := scope.types ++ [⟨decl.name, decl.fields.length, decl.fields⟩] }

/-- The fixed id of a core enum, which attaches to the core declaration and not to its name. -/
def coreEnumTy (owner name : String) : Option ℕ :=
  if library.coreOwner name ≠ owner then none
  else if name = "Result" then some tyResult
  else if name = "Option" then some tyOption
  else if name = "Ordering" then some tyOrdering
  else none

def addEnum (decl : EnumDecl) (file : Option String) : ModuleScope :=
  let owner := fileKey file
  let fixed := coreEnumTy library owner decl.name
  let ty := fixed.getD scope.nextEnumTy
  { scope with
    nextEnumTy := if fixed.isSome then scope.nextEnumTy else scope.nextEnumTy + 1
    enums := scope.enums.setIn owner decl.name ⟨ty, decl.variants⟩
    emitEnums := scope.emitEnums ++ [⟨ty, decl.name, decl.variants.map EnumVariant.name⟩] }

def addConst (decl : ConstDecl) (file : Option String) : ModuleScope :=
  { scope with consts := scope.consts.setIn (fileKey file) decl.name decl.value }

def addGlobal (decl : LetDecl) (file : Option String) : ModuleScope :=
  let slot := scope.nextGlobalSlot
  { scope with
    nextGlobalSlot := slot + 1
    globals := scope.globals.setIn (fileKey file) decl.name slot
    globalInits := scope.globalInits ++ [⟨slot, decl.name, decl.nameSpan, decl.value, file⟩] }

def addNativeStaticMethod (typeName : String) (method : FnDecl) : ModuleScope :=
  { scope with
    nativeStaticMethods := scope.nativeStaticMethods.setIn typeName method.name (externSymbol method) }

def addNativeInstanceMethod (typeName : String) (method : FnDecl) : ModuleScope :=
  { scope with
    nativeInstanceMethods := scope.nativeInstanceMethods.setIn typeName method.name (externSymbol method) }

def addNativeDisplaySymbol (typeName : String) (method : FnDecl) : ModuleScope :=
  { scope with nativeDisplaySymbols := scope.nativeDisplaySymbols.set typeName (externSymbol method) }

def addInterfaceImpl (owner typeName : String) (iface : TypeId) : ModuleScope :=
  let key : TypeId := ⟨owner, typeName⟩
  let info := (scope.interfaceImpls.get key).getD ⟨owner, typeName, []⟩
  { scope with
    interfaceImpls := scope.interfaceImpls.set key { info with interfaces := addTo info.interfaces iface } }

def addMethod (key : TypeId) (typeName : String) (method : FnDecl) (file : Option String) : ModuleScope :=
  let selfType := if hasSelfParam method.params then some typeName else none
  { scope.addUnit method (typeName ++ "." ++ method.name) selfType file with
    methodTable := scope.methodTable.setIn key method.name scope.units.length }

def addInterface (decl : InterfaceDecl) (file : Option String) : ModuleScope :=
  let key : TypeId := ⟨fileKey file, decl.name⟩
  let supers := decl.superInterfaces.map fun s => ⟨library.resolveTypeOwner file s.name s.qualifier, s.name⟩
  { scope with
    interfaceMethods := scope.interfaceMethods.set key (decl.methods.foldl (fun names m => addTo names m.name) [])
    interfaceMethodSigs := scope.interfaceMethodSigs.set key
      (decl.methods.foldl (fun sigs m => Table.set sigs m.name ⟨m.params, file⟩) [])
    interfaceSupers :=
      if decl.superInterfaces = [] then scope.interfaceSupers else scope.interfaceSupers.set key supers }

def addDispatch (owner typeName selector : String) (span : Span) : ModuleScope :=
  { scope with pendingDispatch := scope.pendingDispatch ++ [⟨owner, typeName, selector, span⟩] }

/-- Register a lifted lambda as a unit; its index is the number of units before it. -/
def addLambda (decl : FnDecl) (info : LambdaInfo) (file : Option String) : ModuleScope :=
  let index := scope.units.length
  { scope.addUnit decl s!"__lambda_{index}" none file with lambdas := scope.lambdas.set index info }

/-- The row of the one-field cell that boxes captured mutable locals, created on first use. -/
def cellTypeIndex : ℕ × ModuleScope :=
  match scope.cellType with
  | some i => (i, scope)
  | none =>
      let i := scope.types.length
      (i, { scope with types := scope.types ++ [⟨"<cell>", 1, []⟩], cellType := some i })

/-! ## Resolution -/

/-- A bare name from `file`: the file's own row, else the row of the file its bare surface names. -/
def resolveBare {V : Type} (table : Table String (Table String V)) (file : Option String) (name : String) :
    Option V :=
  match table.getIn (fileKey file) name with
  | some value => some value
  | none => do table.getIn (← library.fileBareSurface (fileKey file) name) name

/-- The file whose row a bare name resolves to. -/
def resolveBareOwner {V : Type} (table : Table String (Table String V)) (file : Option String) (name : String) :
    Option String :=
  if (table.getIn (fileKey file) name).isSome then some (fileKey file)
  else do
    let owner ← library.fileBareSurface (fileKey file) name
    if (table.getIn owner name).isSome then some owner else none

def functionInFile (owner name : String) : Option ℕ := scope.fileFunctions.getIn owner name
def nativeInFile (owner name : String) : Option String := scope.nativeFns.getIn owner name
def constInFile (owner name : String) : Option Expr := scope.consts.getIn owner name
def globalInFile (owner name : String) : Option ℕ := scope.globals.getIn owner name
def resolveStruct (owner name : String) : Option StructInfo := scope.structs.getIn owner name
def resolveEnum (owner name : String) : Option EnumInfo := scope.enums.getIn owner name

def resolveFunction (file : Option String) (name : String) : Option ℕ :=
  resolveBare library scope.fileFunctions file name

def resolveNative (file : Option String) (name : String) : Option String :=
  resolveBare library scope.nativeFns file name

def resolveConstOwner (file : Option String) (name : String) : Option String :=
  resolveBareOwner library scope.consts file name

def resolveGlobalOwner (file : Option String) (name : String) : Option String :=
  resolveBareOwner library scope.globals file name

/-! ## Inheritance -/

/-- Fold the methods and signatures of the queued interfaces, nearest first, into `name`. -/
def flattenFrom (name : TypeId) : ℕ → List TypeId → List TypeId → ModuleScope → Option ModuleScope
  | _, [], _, scope => some scope
  | 0, _ :: _, _, _ => none
  | fuel + 1, super :: queue, seen, scope =>
      if super ∈ seen then flattenFrom name fuel queue seen scope
      else
        let methods := ((scope.interfaceMethods.get super).getD []).foldl addTo
          ((scope.interfaceMethods.get name).getD [])
        let scope := { scope with interfaceMethods := scope.interfaceMethods.set name methods }
        let scope := match scope.interfaceMethodSigs.get name, scope.interfaceMethodSigs.get super with
          | some own, some inherited => { scope with
              interfaceMethodSigs := scope.interfaceMethodSigs.set name
                (inherited.foldl (fun own (m, sig) => if own.has m then own else Table.set own m sig) own) }
          | _, _ => scope
        flattenFrom name fuel (queue ++ (scope.interfaceSupers.get super).getD []) (super :: seen) scope

def flattenInterfaces (fuel : ℕ) : Option ModuleScope :=
  scope.interfaceMethods.keys.foldlM (fun scope name =>
    flattenFrom name fuel ((scope.interfaceSupers.get name).getD []) [name] scope) scope

/-- Dispatch `method` to the interface's shared default, unless the type has the method. -/
def wireOneDefault (owner typeName method : String) (unit : Option ℕ) : ModuleScope :=
  match unit with
  | none => scope
  | some idx =>
      let key : TypeId := ⟨owner, typeName⟩
      if (scope.methodTable.getIn key method).isSome then scope
      else
        let span := (scope.units[idx]?.map fun unit => unit.decl.span).getD noSpan
        { scope with methodTable := scope.methodTable.setIn key method idx }.addDispatch owner typeName method span

/-- Wire the defaults of the queued interfaces and their supers into one type. -/
def wireFrom (info : ImplInfo) : ℕ → List TypeId → List TypeId → ModuleScope → Option ModuleScope
  | _, [], _, scope => some scope
  | 0, _ :: _, _, _ => none
  | fuel + 1, iface :: queue, seen, scope =>
      if iface ∈ seen then wireFrom info fuel queue seen scope
      else
        let defaults := (scope.methodTable.get iface).getD []
        let wired := defaults.keys.foldl (fun scope m =>
          scope.wireOneDefault info.owner info.typeName m (defaults.get m)) scope
        wireFrom info fuel (queue ++ (scope.interfaceSupers.get iface).getD []) (iface :: seen) wired

def wireDefaultMethods (fuel : ℕ) : Option ModuleScope :=
  scope.interfaceImpls.foldlM (fun scope (_, info) => wireFrom info fuel info.interfaces [] scope) scope

/-- The id a type has in the dispatch table, if it has a runtime layout. -/
def dispatchTypeId (owner typeName : String) : Option ℕ :=
  match scope.resolveStruct owner typeName with
  | some info => some info.index
  | none => do return enumDispatchBase ||| (← scope.resolveEnum owner typeName).ty

/-- The dispatch table, and the rows whose type exists but whose method was never registered. A row of a
type without a runtime layout is dropped: the runtime dispatches native types itself. -/
def buildDispatch : List DispatchEntry × List PendingDispatch :=
  scope.pendingDispatch.foldl (fun (entries, unresolved) row =>
    match scope.dispatchTypeId row.owner row.typeName,
        scope.methodTable.getIn (⟨row.owner, row.typeName⟩ : TypeId) row.selector with
    | some typeId, some func => (entries ++ [⟨typeId, row.selector, func⟩], unresolved)
    | some _, none => (entries, unresolved ++ [row])
    | none, _ => (entries, unresolved)) ([], [])

/-! ## Registering a module -/

/-- A method of an `impl` block. -/
def registerMethod (file : Option String) (x : ImplDecl) (owner : String) (method : FnDecl) : ModuleScope :=
  let isStatic := !hasSelfParam method.params
  let scope :=
    if method.isNative && isStatic then scope.addNativeStaticMethod x.typeName method
    else if method.isNative then
      let scope := scope.addNativeInstanceMethod x.typeName method
      -- only a `to_string` inside an `impl Display` renders the type
      if method.name = "to_string" ∧ x.interfaceName = some "Display" then
        scope.addNativeDisplaySymbol x.typeName method
      else scope
    else if method.body.isSome then scope.addMethod ⟨owner, x.typeName⟩ x.typeName method file
    else scope
  if x.interfaceName.isSome && !isStatic && !method.isNative then
    scope.addDispatch owner x.typeName method.name method.span
  else scope

def registerDecl (file : Option String) (decl : Decl) : ModuleScope :=
  match decl with
  | .fn x => if x.isNative then scope.addNative x file else scope.addFunction x file
  | .type x => if x.isNative then scope else scope.addStruct x file
  | .enum x => scope.addEnum library x file
  | .const x => scope.addConst x file
  | .let x => scope.addGlobal x file
  | .interface x =>
      x.methods.foldl (fun scope method =>
        if !method.isNative && hasSelfParam method.params && method.body.isSome then
          scope.addMethod ⟨fileKey file, x.name⟩ x.name method file
        else scope) (scope.addInterface library x file)
  | .impl x =>
      let owner := library.resolveTypeOwner file x.typeName none
      let scope := match x.interfaceName with
        | some iface =>
            scope.addInterfaceImpl owner x.typeName
              ⟨library.resolveTypeOwner file iface x.interfaceNamespace, iface⟩
        | none => scope
      x.methods.foldl (fun scope method => scope.registerMethod file x owner method) scope
  | .import => scope

def registerModule (program : Program) : ModuleScope :=
  program.decls.foldl (fun scope decl => scope.registerDecl library program.filePath decl) scope

end ModuleScope

end Thera.Compiler
