import Thera.Model.Compiler.ModuleScope

/-! # Assignability

The resolved library as the type relation sees it, and the relation itself. `isAssignable` recurses on the
arguments an `impl` recorded, so nothing bounds its calls by the types it is asked about: it takes a bound on
the depth of its calls and answers `none` when it is reached.
-/

namespace Thera.Compiler

mutual

/-- The source's `==`. -/
def Ty.beq : Ty → Ty → Bool
  | .primitive p, .primitive q => p = q
  | .interface i as, .interface j bs => i = j && Ty.beqAll as bs
  | .typeParameter a, .typeParameter b => a = b
  | .function as a, .function bs b => Ty.beqAll as bs && a.beq b
  | .unknown, .unknown => true
  | .never, .never => true
  | _, _ => false

def Ty.beqAll : List Ty → List Ty → Bool
  | [], [] => true
  | a :: as, b :: bs => a.beq b && Ty.beqAll as bs
  | _, _ => false

end

mutual

theorem Ty.beq_iff : ∀ a b : Ty, a.beq b = true ↔ a = b
  | .primitive p, b => by cases b <;> simp [Ty.beq]
  | .interface i as, b => by cases b <;> simp [Ty.beq, Ty.beqAll_iff as]
  | .typeParameter a, b => by cases b <;> simp [Ty.beq]
  | .function as a, b => by cases b <;> simp [Ty.beq, Ty.beqAll_iff as, Ty.beq_iff a]
  | .unknown, b => by cases b <;> simp [Ty.beq]
  | .never, b => by cases b <;> simp [Ty.beq]

theorem Ty.beqAll_iff : ∀ as bs : List Ty, Ty.beqAll as bs = true ↔ as = bs
  | [], bs => by cases bs <;> simp [Ty.beqAll]
  | a :: as, bs => by cases bs <;> simp [Ty.beqAll, Ty.beq_iff a, Ty.beqAll_iff as]

end

instance : DecidableEq Ty := fun a b => decidable_of_iff (a.beq b = true) (a.beq_iff b)

end Thera.Compiler

namespace Thera.Element

open Thera.Compiler

/-! ## Elements -/

structure ParameterElement where
  /-- The external label; `none` is positional. -/
  label : Option String
  isSelf : Bool
  name : String
  ty : Ty
  hasDefault : Bool
  deriving DecidableEq

/-- A function, or a method of a type or interface. -/
structure FunctionElement where
  name : String
  typeParameters : List String
  typeParameterBounds : Table String (List TypeId)
  parameters : List ParameterElement
  returnType : Ty
  isStatic : Bool

/-- A resolved type declaration, as far as types are related by it. -/
structure TypeDefElement where
  name : String
  ownerFile : String
  kind : TypeDefKind
  typeParameters : List String
  methods : List FunctionElement
  /-- The interfaces of its `impl … for` declarations. -/
  interfaces : List TypeId
  /-- The arguments each of them was implemented at, by `idKey`. -/
  interfaceArgs : Table String (List Ty)
  /-- All interfaces it extends, directly or not. -/
  superInterfaces : List TypeId
  ownMethods : List String
  defaultMethods : List String

structure LibraryElement where
  typeDefs : Table String TypeDefElement
  fileTypeDefs : Table String (Table String TypeDefElement)

def builtinOwner : String := "<builtin>"

def idKey (id : TypeId) : String := id.owner ++ "#" ++ id.name

def findMethod (e : TypeDefElement) (name : String) : Option FunctionElement := e.methods.find? (·.name = name)

def implementsInterface (e : TypeDefElement) (iface : TypeId) : Bool := iface ∈ e.interfaces

def isDefaultMethod (e : TypeDefElement) (name : String) : Bool := name ∈ e.defaultMethods

section

variable (lib : LibraryElement)

/-- The declaration an identity names: in its owner's file, or for the built-in floor in the flat table. -/
def defById (id : TypeId) : Option TypeDefElement :=
  if id.owner = builtinOwner then lib.typeDefs.get id.name else lib.fileTypeDefs.getIn id.owner id.name

/-- The file that owns a core type. -/
def coreOwner (name : String) : String :=
  match lib.typeDefs.get name with
  | some d => d.ownerFile
  | none => builtinOwner

def isCoreId (id : TypeId) (name : String) : Bool := id.name = name ∧ id.owner = coreOwner lib name

def isInterfaceId (id : TypeId) : Bool :=
  match defById lib id with
  | some d => d.kind = .interface
  | none => false

/-- The read-only built-ins; every other type constructor is invariant. -/
def isCovariantConstructor (id : TypeId) : Bool :=
  isCoreId lib id "Result" || isCoreId lib id "Option" || isCoreId lib id "Iterator"

/-! ## The relation -/

/-- Ask in order until one answer is no. -/
def allAssignable (ask : Ty → Ty → Option Bool) : List (Ty × Ty) → Option Bool
  | [] => some true
  | (source, target) :: rest => do if ← ask source target then allAssignable ask rest else return false

/-- Do the arguments an `impl` of `tid` recorded fit the target's? -/
def conformanceArgsMatch (ask : Ty → Ty → Option Bool) (sdef : TypeDefElement) (tid : TypeId) (targs : List Ty) :
    Option Bool :=
  if targs.length = 0 then some true
  else match sdef.interfaceArgs.get (idKey tid) with
    | some implArgs => if implArgs.length ≠ targs.length then some true else allAssignable ask (implArgs.zip targs)
    | none => some true

/-- One constructor at two lists of arguments: both ways round unless it is covariant. -/
def sameElementArgs (ask : Ty → Ty → Option Bool) (sid tid : TypeId) (sargs targs : List Ty) : Option Bool :=
  if sid ≠ tid then some false
  else if sargs.length ≠ targs.length then some false
  else allAssignable ask ((sargs.zip targs).flatMap fun (s, t) =>
    if isCovariantConstructor lib sid then [(s, t)] else [(s, t), (t, s)])

/-- Two named types: conformance by an `impl`, then by extension, then by the arguments. -/
def namedAssignable (ask : Ty → Ty → Option Bool) (sid tid : TypeId) (sargs targs : List Ty) : Option Bool :=
  match if isInterfaceId lib tid then defById lib sid else none with
  | some sdef =>
      if implementsInterface sdef tid then conformanceArgsMatch ask sdef tid targs
      else if sdef.kind = .interface ∧ tid ∈ sdef.superInterfaces then some true
      else sameElementArgs lib ask sid tid sargs targs
  | none => sameElementArgs lib ask sid tid sargs targs

/-- May a value of type `source` be used where `target` is expected? -/
def isAssignable : ℕ → Ty → Ty → Option Bool
  | 0, _, _ => none
  | fuel + 1, source, target =>
      match source with
      | .unknown | .typeParameter _ | .never => some true
      | _ => match target with
        | .unknown | .typeParameter _ => some true
        | .never => some false
        | _ =>
          if source = target then some true
          else match source, target with
            | .interface sid sargs, .interface tid targs =>
                namedAssignable lib (isAssignable fuel) sid tid sargs targs
            | .function sparams sret, .function tparams tret =>
                if sparams.length ≠ tparams.length then some false
                else allAssignable (isAssignable fuel) (tparams.zip sparams ++ [(sret, tret)])
            | _, _ => some false

end

end Thera.Element
