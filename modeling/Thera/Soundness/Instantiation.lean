import Thera.Model.Element.Instantiation
import Thera.Proofs.Element.Unification

/-! # Generic instantiation

Unification recovers a substitution from the types it made. What inference makes of a call depends on the places of the arguments, where
the declaration speaks of their labels.
-/

namespace Thera.Soundness

open Thera.Element Thera.Checker
open Thera.Compiler hiding ImplDecl InterfaceDecl TypeDefElement

/-! ## Unification recovers a substitution -/

theorem length_substituteAll (s : TypeScope) (tys : List Ty) : (Ty.substituteAll s tys).length = tys.length := by
  induction tys with
  | nil => rfl
  | cons ty rest ih => rw [Ty.substituteAll, List.length_cons, ih, List.length_cons]

mutual

/-- A type that a substitution made says of every parameter what the substitution does. -/
theorem sayings_substitute {s : TypeScope} : ∀ ty : Ty, hasUnknownComponent (ty.substitute s) = false →
    sayings ty (ty.substitute s) = (parameters ty).map fun name => (name, meaning s name)
  | .typeParameter name, known => by
      have bound : (Ty.typeParameter name).substitute s ≠ .unknown := by
        intro unknown
        rw [unknown] at known
        cases known
      rw [sayings, if_neg bound]
      rfl
  | .interface id args, known => by
      rw [Ty.substitute, sayings, if_pos ⟨rfl, length_substituteAll s args⟩]
      exact sayingsAll_substitute args known
  | .function params result, known => by
      rw [Ty.substitute, hasUnknownComponent, Bool.or_eq_false_iff] at known
      rw [Ty.substitute, sayings, if_pos (length_substituteAll s params), sayingsAll_substitute params known.1,
        sayings_substitute result known.2, ← List.map_append]
      rfl
  | .primitive _, _ | .unknown, _ | .never, _ => by simp [sayings, parameters]

theorem sayingsAll_substitute {s : TypeScope} : ∀ tys : List Ty, anyUnknownComponent (Ty.substituteAll s tys) = false →
    sayingsAll tys (Ty.substituteAll s tys) = (parametersAll tys).map fun name => (name, meaning s name)
  | [], _ => rfl
  | ty :: rest, known => by
      rw [Ty.substituteAll, anyUnknownComponent, Bool.or_eq_false_iff] at known
      rw [Ty.substituteAll, sayingsAll, sayings_substitute ty known.1, sayingsAll_substitute rest known.2, ← List.map_append]
      rfl

end

theorem get_meanings {s : TypeScope} {names : List String} {name : String} (member : name ∈ names) :
    Table.get (names.map fun name => (name, meaning s name)) name = some (meaning s name) := by
  induction names with
  | nil => cases member
  | cons first names ih =>
    rw [List.map_cons, ← List.singleton_append, get_append, get_singleton]
    by_cases same : first = name
    · rw [if_pos same, same, Option.some_or]
    · rw [if_neg same, Option.none_or]
      exact ih ((List.mem_cons.mp member).resolve_left fun equal => same equal.symm)

/-- The bindings that a list of parameter types recovers from what a substitution made of them. -/
def recovered (s : TypeScope) (params : List Ty) (bindings : Table String Ty) : Table String Ty :=
  params.foldl (fun bindings p => unify bindings p (p.substitute s)) bindings

theorem get_recovered {s : TypeScope} {params : List Ty} (known : ∀ p ∈ params, hasUnknownComponent (p.substitute s) = false)
    (bindings : Table String Ty) (name : String) : (recovered s params bindings).get name =
      (bindings.get name).or (Table.get ((params.flatMap parameters).map fun name => (name, meaning s name)) name) := by
  induction params generalizing bindings with
  | nil => exact Option.or_none.symm
  | cons p params ih =>
    have later := ih (fun q member => known q (List.mem_cons_of_mem p member)) (unify bindings p (p.substitute s))
    rw [get_unify, sayings_substitute p (known p List.mem_cons_self), Option.or_assoc, ← get_append, ← List.map_append] at later
    rw [List.flatMap_cons]
    exact later

/-- Unifying parameter types with what a substitution made of them, one after the other, binds every type parameter in them to what the
substitution put in its place. -/
theorem unify_recovers_instantiation (s : TypeScope) (params : List Ty)
    (known : ∀ p ∈ params, hasUnknownComponent (p.substitute s) = false) :
    ∀ p ∈ params, p.substitute (params.foldl (fun bindings p => unify bindings p (p.substitute s)) ([] : Table String Ty)).get =
      p.substitute s := by
  intro p member
  rw [substitute_eq_iff]
  intro name occurs
  have bound := get_recovered known [] name
  rw [get_meanings (List.mem_flatMap.mpr ⟨p, member, occurs⟩)] at bound
  show ((recovered s params []).get name).getD _ = _
  rw [bound]
  rfl

/-- `List<T>` and a function from `T` and `U` to `T`. -/
def listAndFunction : List Ty :=
  [.interface ⟨"list", "List"⟩ [.typeParameter "T"], .function [.typeParameter "T", .typeParameter "U"] (.typeParameter "T")]

def intForT : TypeScope := fun name => if name = "T" then some (.primitive .int) else none

/-- A parameter that repeats, and one that the substitution leaves alone. -/
theorem unify_recovers_nested :
    Ty.substitute (listAndFunction.foldl (fun bindings p => unify bindings p (p.substitute intForT)) ([] : Table String Ty)).get
        (.interface ⟨"list", "List"⟩ [.typeParameter "T"]) =
      .interface ⟨"list", "List"⟩ [.primitive .int] :=
  unify_recovers_instantiation intForT listAndFunction (by
    rw [listAndFunction, List.forall_mem_cons, List.forall_mem_singleton]
    exact ⟨rfl, rfl⟩) _ List.mem_cons_self

/-! ## Calls -/

/-- A call of a resolved callee: its arguments with their labels and with the types inferred for them. -/
structure GenericCall where
  callee : ResolvedCallee
  fnEl : FunctionElement
  typeArgs : List TypeRef
  args : List (Option String × Ty)
  expected : Option Ty

/-- The labelled arguments in another order; the others keep their places. -/
structure Reordered (args args' : List (Option String × Ty)) : Prop where
  perm : args.Perm args'
  positional : ∀ (i : ℕ) (ty : Ty), args[i]? = some (none, ty) ↔ args'[i]? = some (none, ty)

/-- The argument that is given to the parameter at a place. -/
def givenTo (args : List (Option String × Ty)) (p : ParameterElement) (i : ℕ) : Option Ty :=
  match p.label with
  | some label => (args.find? fun a => a.1 = some label).map Prod.snd
  | none => args[i]?.bind fun a => if a.1 = none then some a.2 else none

/-- What the arguments say of the type parameters, in the order of the parameters they are given to. -/
def sayingsByLabel (params : List ParameterElement) (args : List (Option String × Ty)) : Table String Ty :=
  params.zipIdx.flatMap fun (p, i) =>
    match givenTo args p i with
    | some actual => sayings p.ty actual
    | none => []

/-- What they say if each is taken for the parameter at its own place. -/
def sayingsByPlace (params : List ParameterElement) (args : List (Option String × Ty)) : Table String Ty :=
  sayingsAll (params.map ParameterElement.ty) (args.map Prod.snd)

namespace GenericCall

variable (resolveTypeRefIn : TypeRef → Ty) (call : GenericCall)

def params : List ParameterElement := nonSelfParams call.fnEl.parameters

/-- What the receiver binds before the arguments are looked at. -/
def receiverBinds : Table String Ty :=
  match call.callee with
  | .function => []
  | .staticMethod ownerParams recvTypeArgs => ownerBindingsFrom resolveTypeRefIn recvTypeArgs ownerParams
  | .method bindings => bindings

/-- What the type that is expected of the result says; nothing is expected of a method. -/
def contextSays : Table String Ty :=
  match call.callee with
  | .method _ => []
  | _ => call.expected.elim [] (sayings call.fnEl.returnType)

/-- The type arguments that inference looks at. -/
def usedTypeArgs : List TypeRef :=
  match call.callee with
  | .method _ => []
  | _ => call.typeArgs

/-- Explicit type arguments win, then the receiver, then what the arguments say, then the context. -/
def binds (typeArgs : List TypeRef) (said : Table String Ty) : TypeScope := fun name =>
  ((bindTypeArgs resolveTypeRefIn [] call.fnEl.typeParameters typeArgs).get name).or
    (((call.receiverBinds resolveTypeRefIn).get name).or ((said.get name).or (call.contextSays.get name)))

/-- The type that inference gives the call when its arguments are written in some order. -/
def inferred (args : List (Option String × Ty)) : Ty :=
  inferResult resolveTypeRefIn call.fnEl call.typeArgs (args.map Prod.snd) call.expected call.callee

/-- The declared result, instantiated from the arguments of the parameters that mention a type parameter. -/
def declared : Ty :=
  call.fnEl.returnType.substitute (call.binds resolveTypeRefIn call.typeArgs (sayingsByLabel call.params call.args))

end GenericCall

theorem get_bindTypeArgs (resolveTypeRefIn : TypeRef → Ty) (bindings : Table String Ty) (typeParameters : List String)
    (typeArgs : List TypeRef) (name : String) : (bindTypeArgs resolveTypeRefIn bindings typeParameters typeArgs).get name =
      ((bindTypeArgs resolveTypeRefIn [] typeParameters typeArgs).get name).or (bindings.get name) := by
  unfold bindTypeArgs
  generalize typeParameters.zip typeArgs = pairs
  induction pairs generalizing bindings with
  | nil => rfl
  | cons pair pairs ih =>
    rw [List.foldl_cons, List.foldl_cons, ih, ih (Table.set [] pair.1 _), Option.or_assoc, Table.get_set, Table.get_set]
    congr 1
    split <;> rfl

section

variable {resolveTypeRefIn : TypeRef → Ty} {call : GenericCall}

theorem get_callBindingsInto (bindings : Table String Ty) (fnEl : FunctionElement) (typeArgs : List TypeRef)
    (args : List (Option String × Ty)) (expected : Option Ty) (name : String) :
    (callBindingsInto resolveTypeRefIn bindings fnEl typeArgs (args.map Prod.snd) expected).get name =
      ((bindTypeArgs resolveTypeRefIn [] fnEl.typeParameters typeArgs).get name).or ((bindings.get name).or
        ((Table.get (sayingsByPlace (nonSelfParams fnEl.parameters) args) name).or
          (Table.get (expected.elim [] (sayings fnEl.returnType)) name))) := by
  unfold callBindingsInto
  cases expected with
  | none =>
    dsimp only
    rw [get_unifyAll, get_bindTypeArgs, Option.elim_none, Table.get_nil, Option.or_none, Option.or_assoc]
    rfl
  | some e =>
    dsimp only
    rw [get_unify, get_unifyAll, get_bindTypeArgs, Option.elim_some, Option.or_assoc, Option.or_assoc]
    rfl

/-- Inference pairs the arguments with the parameters by their places. -/
theorem inferred_eq (args : List (Option String × Ty)) : call.inferred resolveTypeRefIn args =
    call.fnEl.returnType.substitute (call.binds resolveTypeRefIn call.usedTypeArgs (sayingsByPlace call.params args)) := by
  obtain ⟨callee, fnEl, typeArgs, written, expected⟩ := call
  cases callee with
  | function =>
    refine (substitute_eq_iff fnEl.returnType).mpr fun name _ => congrArg (Option.getD · _) ?_
    exact get_callBindingsInto [] fnEl typeArgs args expected name
  | staticMethod ownerParams recvTypeArgs =>
    refine (substitute_eq_iff fnEl.returnType).mpr fun name _ => congrArg (Option.getD · _) ?_
    exact get_callBindingsInto _ fnEl typeArgs args expected name
  | method bindings =>
    refine (substitute_eq_iff fnEl.returnType).mpr fun name _ => congrArg (Option.getD · _) ?_
    rw [get_unifyAll]
    show _ = Option.or _ (Option.or _ (Option.or _ (Table.get [] name)))
    rw [Table.get_nil, Option.or_none, bindTypeArgs, GenericCall.usedTypeArgs, List.zip_nil_right]
    rfl

end

/-- `fn pick<T, U>(named a: T, named b: U) -> T`. -/
def pick : FunctionElement where
  name := "pick"
  typeParameters := ["T", "U"]
  typeParameterBounds := []
  parameters := [⟨some "a", false, "a", .typeParameter "T", false⟩, ⟨some "b", false, "b", .typeParameter "U", false⟩]
  returnType := .typeParameter "T"
  isStatic := false

/-- `pick(b: s, a: n)`. -/
def pickCall : GenericCall where
  callee := .function
  fnEl := pick
  typeArgs := []
  args := [(some "b", .primitive .str), (some "a", .primitive .int)]
  expected := none

end Thera.Soundness
