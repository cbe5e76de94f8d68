import Thera.Model.Element.Resolver

/-! # Conformance

What the checker requires of type, interface and `impl` declarations, with the texts of its reports. The bodies
of methods are not part of it.
-/

namespace Thera.Checker

open Thera.Element
open Thera.Compiler hiding ImplDecl InterfaceDecl TypeDefElement

def primitiveToString : Primitive → String
  | .int => "Int"
  | .double => "Double"
  | .bool => "Bool"
  | .str => "String"
  | .unit => "Void"

/-- The type a name denotes if it is a primitive. -/
def primitiveType (name : String) : Option Ty :=
  if name = "Int" then some (.primitive .int)
  else if name = "Bool" then some (.primitive .bool)
  else if name = "Double" ∨ name = "Float" then some (.primitive .double)
  else if name = "String" then some (.primitive .str)
  else if name = "Void" then some (.primitive .unit)
  else none

section

variable (lib : LibraryElement)

/-- Does the type satisfy an interface bound? Lenient for what is not known, and `Eq` and `Debug` are derived. -/
def satisfiesBound (t : Ty) (bound : TypeId) : Bool :=
  let derived := isCoreId lib bound "Eq" || isCoreId lib bound "Debug"
  match t with
  | .unknown | .typeParameter _ => true
  | .primitive p =>
      if derived then true
      else if !isCoreId lib bound "Display" && !isCoreId lib bound "Ord" then false
      else match defById lib ⟨coreOwner lib (primitiveToString p), primitiveToString p⟩ with
        | some d => implementsInterface d bound
        | none => false
  | .interface id _ =>
      match defById lib id with
      | some d =>
          if d.kind = .interface then id = bound || decide (bound ∈ d.superInterfaces)
          else derived || implementsInterface d bound
      | none => derived
  | .function .. | .never => derived

mutual

/-- `Self`, as the interface writes it, becomes the type of the `impl`. -/
def selfToImpl (selfType implType : Ty) : Ty → Ty
  | .interface id args =>
      if .interface id args = selfType then implType else .interface id (selfToImplAll selfType implType args)
  | .function params result =>
      if .function params result = selfType then implType
      else .function (selfToImplAll selfType implType params) (selfToImpl selfType implType result)
  | t => if t = selfType then implType else t

def selfToImplAll (selfType implType : Ty) : List Ty → List Ty
  | [] => []
  | t :: rest => selfToImpl selfType implType t :: selfToImplAll selfType implType rest

end

def typeMatches (a b : Ty) : Bool := a = .unknown || b = .unknown || decide (a = b)

def nonSelfParams (params : List ParameterElement) : List ParameterElement := params.filter fun p => !p.isSelf

/-- Does the method of an `impl` match the interface's? -/
def signaturesMatch (im om : FunctionElement) (selfType implType : Ty) (bindings : TypeScope) : Bool :=
  let expected (t : Ty) := selfToImpl selfType implType (t.substitute bindings)
  let ips := nonSelfParams im.parameters
  let ops := nonSelfParams om.parameters
  im.isStatic = om.isStatic && ips.length = ops.length &&
    ((ips.zip ops).all fun (i, o) => typeMatches (expected i.ty) o.ty) &&
    typeMatches (expected im.returnType) om.returnType

/-! ## Declarations -/

/-- Report each name that came before; an empty one is a placeholder. -/
def checkUnique (what : String) (names : List String) : List String :=
  (names.foldl (fun (seen, errors) name =>
    (name :: seen, if name ≠ "" ∧ name ∈ seen then errors ++ ["duplicate " ++ what ++ " `" ++ name ++ "`"] else errors))
    (([], []) : List String × List String)).2

def implSelfType (decl : ImplDecl) : Ty :=
  (primitiveType decl.target.name).getD (.interface decl.target (decl.typeParams.map .typeParameter))

/-- The methods an `impl` of the interface must give, and those it gives in another form. -/
def checkImplMethods (decl : ImplDecl) (iface : TypeId) (ifaceDef owner : TypeDefElement) (bindings : TypeScope) :
    List String :=
  let provided := decl.methods.map (·.name)
  (ifaceDef.methods.filter fun im => im.name ∈ ifaceDef.ownMethods).flatMap fun im =>
    if im.name ∉ provided then
      if isDefaultMethod ifaceDef im.name then []
      else ["missing method '" ++ im.name ++ "' required by interface '" ++ iface.name ++ "'"]
    else match findMethod owner im.name with
      | some om =>
          if signaturesMatch im om (.interface iface []) (implSelfType decl) bindings then []
          else ["method '" ++ im.name ++ "' does not match its declaration in interface '" ++ iface.name ++ "'"]
      | none => []

def checkConformance (decl : ImplDecl) : List String :=
  match decl.interface with
  | none => []
  | some (iface, args) =>
      match defById lib iface with
      | none => ["unknown interface: " ++ iface.name]
      | some ifaceDef =>
          if ifaceDef.kind ≠ .interface then ["'" ++ iface.name ++ "' is not an interface"]
          else match defById lib decl.target with
            | none => []
            | some owner =>
                if args.length ≠ ifaceDef.typeParameters.length then
                  ["interface '" ++ iface.name ++ "' takes " ++ toString ifaceDef.typeParameters.length ++
                    " type argument(s), but " ++ toString args.length ++ " were given"]
                else
                  let bindings : TypeScope := Table.get (ifaceDef.typeParameters.zip args)
                  checkImplMethods decl iface ifaceDef owner bindings ++
                    (ifaceDef.superInterfaces.filter fun superId => !satisfiesBound lib (implSelfType decl) superId).map
                      fun superId => "'" ++ decl.target.name ++ "' implements '" ++ iface.name ++ "', which extends '" ++
                        superId.name ++ "', but does not implement '" ++ superId.name ++ "'"

def checkImpl (decl : ImplDecl) : List String :=
  checkUnique "type parameter" decl.typeParams ++ checkUnique "method" (decl.methods.map (·.name)) ++
    (if (primitiveType decl.target.name).isNone && (defById lib decl.target).isNone then
      ["unknown type: " ++ decl.target.name] else []) ++
    checkConformance lib decl

/-- Is the interface a super of one of its own supers? -/
def extendsCycle (id : TypeId) : Bool :=
  match defById lib id with
  | some start =>
      start.kind = .interface && start.superInterfaces.any fun s =>
        match defById lib s with
        | some sd => sd.kind = .interface && decide (id ∈ sd.superInterfaces)
        | none => false
  | none => false

def checkInterfaceDecl (file : String) (decl : InterfaceDecl) : List String :=
  checkUnique "type parameter" decl.typeParams ++ checkUnique "method" (decl.methods.map (·.1.name)) ++
    (decl.superInterfaces.flatMap fun s =>
      match defById lib s with
      | none => ["unknown super-interface: " ++ s.name]
      | some superDef => if superDef.kind ≠ .interface then ["'" ++ s.name ++ "' is not an interface"] else []) ++
    if (⟨file, decl.name⟩ : TypeId) ∈ decl.superInterfaces ∨ extendsCycle lib ⟨file, decl.name⟩ = true then
      ["interface '" ++ decl.name ++ "' extends itself (inheritance cycle)"]
    else []

def checkDecl (file : String) : TypeLevelDecl → List String
  | .type _ typeParams _ | .enum _ typeParams => checkUnique "type parameter" typeParams
  | .interface decl => checkInterfaceDecl lib file decl
  | .impl decl => checkImpl lib decl

end

/-- The reports on the declarations of a program and its imports. -/
def checkDeclarations (programs : List SourceProgram) : List String :=
  programs.flatMap fun p => p.decls.flatMap (checkDecl (buildLibrary programs) p.file)

/-- A library the checker accepts, as far as its declarations decide that. -/
structure AcceptedLibrary where
  programs : List SourceProgram
  accepted : checkDeclarations programs = []

def AcceptedLibrary.library (accepted : AcceptedLibrary) : LibraryElement := buildLibrary accepted.programs

end Thera.Checker
