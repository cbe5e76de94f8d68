import Thera.Model.Checker.CallArgs

/-! # Instantiation

How inference binds the type parameters of a generic callee, and the type it gives a call.
-/

namespace Thera.Element

open Thera.Checker
open Thera.Compiler hiding ImplDecl InterfaceDecl TypeDefElement

mutual

/-- Does an `Unknown` stand anywhere in a type? -/
def hasUnknownComponent : Ty → Bool
  | .unknown => true
  | .interface _ args => anyUnknownComponent args
  | .function params result => anyUnknownComponent params || hasUnknownComponent result
  | _ => false

def anyUnknownComponent : List Ty → Bool
  | [] => false
  | ty :: rest => hasUnknownComponent ty || anyUnknownComponent rest

end

section

variable (resolveTypeRefIn : TypeRef → Ty)

/-- Bind type parameters by their place; arguments beyond the last parameter are ignored. -/
def bindTypeArgs (bindings : Table String Ty) (typeParameters : List String) (typeArgs : List TypeRef) : Table String Ty :=
  (typeParameters.zip typeArgs).foldl (fun bindings (name, arg) => bindings.set name (resolveTypeRefIn arg)) bindings

def ownerBindingsFrom (recvTypeArgs : List TypeRef) (ownerParams : List String) : Table String Ty :=
  bindTypeArgs resolveTypeRefIn [] ownerParams recvTypeArgs

/-- The bindings of a call: explicit type arguments, then the arguments, then the type that is expected of the result. -/
def callBindingsInto (bindings : Table String Ty) (fnEl : FunctionElement) (typeArgs : List TypeRef) (argTypes : List Ty)
    (expected : Option Ty) : Table String Ty :=
  let bindings := bindTypeArgs resolveTypeRefIn bindings fnEl.typeParameters typeArgs
  let bindings := unifyAll bindings ((nonSelfParams fnEl.parameters).map ParameterElement.ty) argTypes
  match expected with
  | some e => unify bindings fnEl.returnType e
  | none => bindings

def staticCallBindings (method : FunctionElement) (ownerParams : List String) (recvTypeArgs typeArgs : List TypeRef) (argTypes : List Ty)
    (expected : Option Ty) : Table String Ty :=
  callBindingsInto resolveTypeRefIn (ownerBindingsFrom resolveTypeRefIn recvTypeArgs ownerParams) method typeArgs argTypes expected

/-- A callee of `infer_call_ident` or `infer_call_field` that was resolved to a function. -/
inductive ResolvedCallee where
  /-- A function, called by its name or through a namespace. -/
  | function
  | staticMethod (ownerParams : List String) (recvTypeArgs : List TypeRef)
  /-- A method of a value, with the bindings of its receiver's type. -/
  | method (bindings : Table String Ty)

/-- The type of a call; a method's bindings come from its receiver and the arguments alone. -/
def inferResult (fnEl : FunctionElement) (typeArgs : List TypeRef) (argTypes : List Ty) (expected : Option Ty) : ResolvedCallee → Ty
  | .function => fnEl.returnType.substitute (callBindingsInto resolveTypeRefIn [] fnEl typeArgs argTypes expected).get
  | .staticMethod ownerParams recvTypeArgs =>
      fnEl.returnType.substitute (staticCallBindings resolveTypeRefIn fnEl ownerParams recvTypeArgs typeArgs argTypes expected).get
  | .method bindings =>
      fnEl.returnType.substitute (unifyAll bindings ((nonSelfParams fnEl.parameters).map ParameterElement.ty) argTypes).get

end

end Thera.Element
