import Thera.Model.Compiler.Ast

/-! # Types and the element model

Semantic types, and the queries code generation and the checker put to the resolved program. Inference
is a pure function of an expression, the types of the locals in scope and a context; what it answers is
left open here, so nothing below depends on how it decides.
-/

namespace Thera.Compiler

inductive Primitive where
  | int
  | double
  | bool
  | str
  | unit
  deriving DecidableEq

/-- The identity of a named type: the file that declares it, and its name. -/
structure TypeId where
  owner : String
  name : String
  deriving DecidableEq

inductive Ty where
  | primitive (p : Primitive)
  /-- A struct, enum, interface or built-in type with its arguments. -/
  | interface (id : TypeId) (args : List Ty)
  | typeParameter (name : String)
  | function (params : List Ty) (result : Ty)
  | unknown
  | never

/-- The types of the locals in scope. -/
abbrev TypeScope := String → Option Ty

mutual

/-- Replace type parameters by what they are bound to. -/
def Ty.substitute (bindings : TypeScope) : Ty → Ty
  | .typeParameter name => (bindings name).getD (.typeParameter name)
  | .interface id args => .interface id (substituteAll bindings args)
  | .function params result => .function (substituteAll bindings params) (result.substitute bindings)
  | ty => ty

def Ty.substituteAll (bindings : TypeScope) : List Ty → List Ty
  | [] => []
  | ty :: rest => ty.substitute bindings :: substituteAll bindings rest

end

inductive TypeDefKind where
  | struct
  | enum
  | interface
  | builtin
  deriving DecidableEq

structure EnumVariantElement where
  name : String
  fields : List Ty

/-- A resolved type declaration. -/
structure TypeDefElement where
  name : String
  ownerFile : String
  kind : TypeDefKind
  typeParameters : List String
  fields : TypeScope
  variants : List EnumVariantElement

/-- The first variant of that name. -/
def findVariant (element : TypeDefElement) (name : String) : Option EnumVariantElement :=
  element.variants.find? fun variant => variant.name = name

/-- What inference knows about where it stands. -/
structure InferCtx where
  typeParams : List String
  selfType : Option Ty
  returnType : Option Ty
  typeParamBounds : String → Option (List TypeId)
  currentFile : Option String

/-- Which kind of callee `recv.method(...)` is. -/
inductive CalleeKind where
  | enumCtor
  | enumName
  | namespace
  | staticMethod
  | instanceMethod
  | virtual
  | fieldCall
  | unresolved
  deriving DecidableEq

/-- The resolved program, as far as it is asked. -/
structure Library where
  /-- `def_by_id`. -/
  typeDef : TypeId → Option TypeDefElement
  coreOwner : String → String
  /-- The names a file's prelude and `as _` imports bring in, with their owners. -/
  fileBareSurface : String → String → Option String
  resolveTypeOwner : Option String → String → Option String → String
  isNamespace : Option String → String → Bool
  memberOwner : Option String → String → String → Option String
  bindsValue : Option String → String → Bool
  /-- The declared type of a constant or global seen from a file. -/
  constType : Option String → String → Option Ty
  resolveTypeRef : TypeRef → Option String → List String → Option Ty → Ty
  inferExpr : Expr → TypeScope → InferCtx → Option Ty → Ty
  inferCalleeKind : Expr → String → ℕ → TypeScope → InferCtx → CalleeKind
  expectedArgTypes : Expr → List CallArg → TypeScope → InferCtx → Option Ty → Option (List Ty)
  expectedParamTypes : Expr → List CallArg → TypeScope → InferCtx → Option Ty → Option (List Ty)
  returnValueExpected : Expr → TypeScope → InferCtx → Option Ty
  throwValueExpected : InferCtx → Option Ty
  forElementType : Expr → Ty → InferCtx → Ty
  refineBindingType : String → Ty → List Stmt → ℕ → TypeScope → InferCtx → Ty

def fileKey (file : Option String) : String := file.getD "<anon>"

def fileOfKey (key : String) : Option String := if key = "<anon>" then none else some key

/-- The context of a file's top level. -/
def newCtx (file : Option String) : InferCtx := ⟨[], none, none, fun _ => none, file⟩

/-- The id of a struct, enum or interface type. -/
def typeIdOfType : Ty → Option TypeId
  | .interface id _ => some id
  | _ => none

def nameOfType : Ty → Option String
  | .primitive .int => some "Int"
  | .primitive .double => some "Double"
  | .primitive .bool => some "Bool"
  | .primitive .str => some "String"
  | .primitive .unit => none
  | .interface id _ => some id.name
  | .typeParameter name => some name
  | _ => none

def isUnitTy : Ty → Bool
  | .primitive .unit => true
  | _ => false

/-- The primitive a type name denotes. -/
def primitiveType (name : String) : Option Ty :=
  if name = "Int" then some (.primitive .int)
  else if name = "Bool" then some (.primitive .bool)
  else if name = "Double" ∨ name = "Float" then some (.primitive .double)
  else if name = "String" then some (.primitive .str)
  else if name = "Void" then some (.primitive .unit)
  else none

namespace Library

variable (library : Library)

/-- Whether `id` is the core type `name`: identity, not spelling. -/
def isCoreId (id : TypeId) (name : String) : Bool := id.name = name ∧ id.owner = library.coreOwner name

def receiverBindings (id : TypeId) (args : List Ty) : TypeScope :=
  match library.typeDef id with
  | some element => (element.typeParameters.zip args).foldl (fun bindings (param, arg) => Function.update bindings param (some arg)) fun _ => none
  | none => fun _ => none

/-- The payload types of a variant, with the subject's type arguments put in. -/
def variantFieldTypes (subject : Ty) (name : String) : List Ty :=
  match subject with
  | .interface id args =>
      match library.typeDef id with
      | some element =>
          if element.kind = .enum then
            match findVariant element name with
            | some variant => variant.fields.map (Ty.substitute (library.receiverBindings id args))
            | none => []
          else []
      | none => []
  | _ => []

/-- A variant named bare where its enum is expected; any real binding of the name wins. -/
def resolveBareVariant (name : String) (expected : Option Ty) (scope : TypeScope) (ctx : InferCtx) :
    Option (TypeDefElement × EnumVariantElement) :=
  if (scope name).isSome || library.bindsValue ctx.currentFile name then none
  else
    match expected with
    | some (.interface id _) => do
        let element ← library.typeDef id
        if element.kind = .enum then
          let variant ← findVariant element name
          some (element, variant)
        else none
    | _ => none

mutual

/-- The types a pattern's variables get. -/
def bindMatchPattern (pattern : Pattern) (subject : Ty) (scope : TypeScope) : TypeScope :=
  match pattern with
  | .ident _ name => Function.update scope name (some subject)
  | .constructor _ name args => bindMatchPatterns args (library.variantFieldTypes subject name) scope
  | .wildcard _ | .literal .. => scope

/-- A field beyond the known ones has an unknown type. -/
def bindMatchPatterns (patterns : List Pattern) (types : List Ty) (scope : TypeScope) : TypeScope :=
  match patterns with
  | [] => scope
  | pattern :: rest => bindMatchPatterns rest types.tail (bindMatchPattern pattern (types.head?.getD .unknown) scope)

end

end Library

end Thera.Compiler
