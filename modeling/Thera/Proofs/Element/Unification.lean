import Thera.Model.Checker.CallArgs
import Thera.Proofs.Compiler.Tables

/-! # Unification

A parameter type and an actual type say what the type parameters stand for, one place after the other. The first place that says
something about a parameter binds it.
-/

namespace Thera.Checker

open Thera.Element
open Thera.Compiler hiding ImplDecl InterfaceDecl TypeDefElement

mutual

/-- The type parameters of a type, as often as they stand in it. -/
def parameters : Ty → List String
  | .typeParameter name => [name]
  | .interface _ args => parametersAll args
  | .function params result => parametersAll params ++ parameters result
  | _ => []

def parametersAll : List Ty → List String
  | [] => []
  | ty :: rest => parameters ty ++ parametersAll rest

end

mutual

/-- What an actual type says of the type parameters at their places in a parameter type. -/
def sayings : Ty → Ty → Table String Ty
  | .typeParameter name, actual => if actual = .unknown then [] else [(name, actual)]
  | .interface pid pargs, .interface aid aargs => if aid = pid ∧ aargs.length = pargs.length then sayingsAll pargs aargs else []
  | .function pparams pret, .function aparams aret =>
      if aparams.length = pparams.length then sayingsAll pparams aparams ++ sayings pret aret else []
  | _, _ => []

/-- What actual types say, one behind the other. -/
def sayingsAll : List Ty → List Ty → Table String Ty
  | p :: params, a :: actuals => sayings p a ++ sayingsAll params actuals
  | _, _ => []

end

/-! ## The first saying binds -/

theorem get_append (table table' : Table String Ty) (name : String) :
    Table.get (table ++ table') name = (table.get name).or (Table.get table' name) := by
  show ((table ++ table').find? _).map Prod.snd = ((table.find? _).map Prod.snd).or _
  rw [List.find?_append, Option.map_or]
  rfl

theorem get_singleton (name name' : String) (ty : Ty) : Table.get [(name, ty)] name' = if name = name' then some ty else none := by
  rw [Table.get, OrderedAssoc.get_cons fun _ _ => decide_eq_true_iff]
  rfl

theorem get_unify_parameter (bindings : Table String Ty) (name name' : String) (actual : Ty) :
    (unify bindings (.typeParameter name) actual).get name' = (bindings.get name').or (Table.get (sayings (.typeParameter name) actual) name') := by
  rw [unify, sayings]
  cases bound : bindings.get name with
  | some ty =>
    have has : ¬ (actual ≠ .unknown ∧ bindings.has name = false) := by simp [Table.has, bound]
    rw [if_neg has]
    split
    · rw [Table.get_nil, Option.or_none]
    · rw [get_singleton]
      split
      next same => rw [← same, bound, Option.some_or]
      next => rw [Option.or_none]
  | none =>
    split
    next sets =>
      rw [if_neg sets.1, Table.get_set, get_singleton]
      split
      next same => rw [← same, bound, Option.none_or]
      next => rw [Option.or_none]
    next keeps =>
      have unknown : actual = .unknown := by
        by_contra known
        exact keeps ⟨known, by simp [Table.has, bound]⟩
      rw [if_pos unknown, Table.get_nil, Option.or_none]

mutual

theorem get_unify (name : String) : ∀ (bindings : Table String Ty) (param actual : Ty),
    (unify bindings param actual).get name = (bindings.get name).or (Table.get (sayings param actual) name)
  | bindings, .typeParameter tp, actual => get_unify_parameter bindings tp name actual
  | bindings, .interface pid pargs, actual => by
      cases actual with
      | interface aid aargs =>
        rw [unify, sayings]
        split
        · exact get_unifyAll name bindings pargs aargs
        · rw [Table.get_nil, Option.or_none]
      | _ => simp [unify, sayings]
  | bindings, .function pparams pret, actual => by
      cases actual with
      | function aparams aret =>
        rw [unify, sayings]
        split
        · rw [get_unify name _ pret aret, get_unifyAll name bindings pparams aparams, get_append, Option.or_assoc]
        · rw [Table.get_nil, Option.or_none]
      | _ => simp [unify, sayings]
  | bindings, .primitive _, _ | bindings, .unknown, _ | bindings, .never, _ => by simp [unify, sayings]

theorem get_unifyAll (name : String) : ∀ (bindings : Table String Ty) (params actuals : List Ty),
    (unifyAll bindings params actuals).get name = (bindings.get name).or (Table.get (sayingsAll params actuals) name)
  | bindings, [], actuals | bindings, p :: params, [] => by simp [unifyAll, sayingsAll]
  | bindings, p :: params, a :: actuals => by
      rw [unifyAll, sayingsAll, get_unifyAll name _ params actuals, get_unify name bindings p a, get_append, Option.or_assoc]

end

/-! ## Substitutions -/

/-- What a type parameter stands for. -/
def meaning (bindings : TypeScope) (name : String) : Ty := (bindings name).getD (.typeParameter name)

mutual

/-- A substitution gives the same type as another one exactly if the two agree on the type's parameters. -/
theorem substitute_eq_iff {s s' : TypeScope} : ∀ ty : Ty,
    ty.substitute s = ty.substitute s' ↔ ∀ name ∈ parameters ty, meaning s name = meaning s' name
  | .typeParameter name => by simp [Ty.substitute, parameters, meaning]
  | .interface id args => by simp [Ty.substitute, parameters, substituteAll_eq_iff args]
  | .function params result => by
      simp only [Ty.substitute, parameters, List.mem_append, Ty.function.injEq, substituteAll_eq_iff params, substitute_eq_iff result,
        or_imp, forall_and]
  | .primitive _ | .unknown | .never => by simp [Ty.substitute, parameters]

theorem substituteAll_eq_iff {s s' : TypeScope} : ∀ tys : List Ty,
    Ty.substituteAll s tys = Ty.substituteAll s' tys ↔ ∀ name ∈ parametersAll tys, meaning s name = meaning s' name
  | [] => by simp [Ty.substituteAll, parametersAll]
  | ty :: rest => by
      simp only [Ty.substituteAll, parametersAll, List.mem_append, List.cons.injEq, substitute_eq_iff ty, substituteAll_eq_iff rest, or_imp,
        forall_and]

end

end Thera.Checker
