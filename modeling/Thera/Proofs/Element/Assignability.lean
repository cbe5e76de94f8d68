import Thera.Model.Element.Types
import Thera.ToMathlib.Querying
import Thera.Proofs.Compiler.Tables

/-! # Assignability as questions

`isAssignable` answers a comparison outright or by further comparisons, in order until one fails. The further
comparisons are taken from the two types and from the arguments the library's `impl`s recorded, so only
finitely many can come up.
-/

namespace Thera.Element

open Thera.Compiler Querying Relation

variable (lib : LibraryElement)

/-- The comparisons a step by conformance rests on; none at all where `sid` does not conform to `tid`. -/
def conformance (sid tid : TypeId) (targs : List Ty) : Option (List (Ty × Ty)) :=
  match if isInterfaceId lib tid then defById lib sid else none with
  | some sdef =>
      if implementsInterface sdef tid then
        some (if targs.length = 0 then []
          else match sdef.interfaceArgs.get (idKey tid) with
            | some implArgs => if implArgs.length ≠ targs.length then [] else implArgs.zip targs
            | none => [])
      else if sdef.kind = .interface ∧ tid ∈ sdef.superInterfaces then some []
      else none
  | none => none

/-- The comparisons that one constructor at two lists of arguments rests on. -/
def argumentPairs (sid : TypeId) (sargs targs : List Ty) : List (Ty × Ty) :=
  (sargs.zip targs).flatMap fun (s, t) => if isCovariantConstructor lib sid then [(s, t)] else [(s, t), (t, s)]

def interfaceComparison (sid tid : TypeId) (sargs targs : List Ty) : Bool ⊕ List (Ty × Ty) :=
  match conformance lib sid tid targs with
  | some pairs => .inr pairs
  | none =>
      if sid ≠ tid then .inl false
      else if sargs.length ≠ targs.length then .inl false
      else .inr (argumentPairs lib sid sargs targs)

/-- The answer of `isAssignable`, or the calls it makes while they answer yes. -/
def comparison : Ty × Ty → Bool ⊕ List (Ty × Ty)
  | (source, target) =>
      match source with
      | .unknown | .typeParameter _ | .never => .inl true
      | _ => match target with
        | .unknown | .typeParameter _ => .inl true
        | .never => .inl false
        | _ =>
          if source = target then .inl true
          else match source, target with
            | .interface sid sargs, .interface tid targs => interfaceComparison lib sid tid sargs targs
            | .function sparams sret, .function tparams tret =>
                if sparams.length ≠ tparams.length then .inl false
                else .inr (tparams.zip sparams ++ [(sret, tret)])
            | _, _ => .inl false

variable {lib}

theorem allAssignable_eq_askAll (ask : Ty → Ty → Option Bool) (pairs : List (Ty × Ty)) :
    allAssignable ask pairs = askAll (fun pair => ask pair.1 pair.2) pairs := by
  induction pairs with
  | nil => rfl
  | cons pair rest ih => simp only [allAssignable, askAll, ih]

theorem namedAssignable_eq (ask : Ty → Ty → Option Bool) (sid tid : TypeId) (sargs targs : List Ty) :
    namedAssignable lib ask sid tid sargs targs =
      follow (fun pair => ask pair.1 pair.2) (interfaceComparison lib sid tid sargs targs) := by
  have same : sameElementArgs lib ask sid tid sargs targs = follow (fun pair => ask pair.1 pair.2)
      (if sid ≠ tid then .inl false else if sargs.length ≠ targs.length then .inl false
        else .inr (argumentPairs lib sid sargs targs)) := by
    simp only [sameElementArgs, argumentPairs, allAssignable_eq_askAll]
    split
    · rfl
    · split <;> rfl
  rw [namedAssignable, interfaceComparison, conformance]
  cases (if isInterfaceId lib tid then defById lib sid else none) with
  | none => exact same
  | some sdef =>
    by_cases declared : implementsInterface sdef tid = true
    · simp only [declared, if_true, conformanceArgsMatch, allAssignable_eq_askAll]
      split
      · rfl
      · cases sdef.interfaceArgs.get (idKey tid) with
        | none => rfl
        | some implArgs => simp only; split <;> rfl
    · simp only [declared, Bool.false_eq_true, if_false]
      split
      · rfl
      · exact same

theorem isAssignable_eq_answer (fuel : ℕ) (source target : Ty) :
    isAssignable lib fuel source target = answer (comparison lib) fuel (source, target) := by
  induction fuel generalizing source target with
  | zero => rfl
  | succ fuel ih =>
    have asks : (fun pair : Ty × Ty => isAssignable lib fuel pair.1 pair.2) = answer (comparison lib) fuel :=
      funext fun pair => ih pair.1 pair.2
    rw [answer, ← asks]
    cases source <;> cases target <;>
      simp only [isAssignable, comparison, apply_ite (follow _), namedAssignable_eq, allAssignable_eq_askAll] <;> rfl

variable (lib) in
/-- The comparisons that one between types which are neither equal nor lenient rests on. -/
inductive Rests : Ty → Ty → List (Ty × Ty) → Prop where
  | conforms {sid tid : TypeId} {sargs targs : List Ty} {pairs : List (Ty × Ty)}
      (conforms : conformance lib sid tid targs = some pairs) :
      Rests (.interface sid sargs) (.interface tid targs) pairs
  | sameElement {id : TypeId} {sargs targs : List Ty} (nominal : conformance lib id id targs = none)
      (arity : sargs.length = targs.length) :
      Rests (.interface id sargs) (.interface id targs) (argumentPairs lib id sargs targs)
  | function {sparams tparams : List Ty} {sret tret : Ty} (arity : sparams.length = tparams.length) :
      Rests (.function sparams sret) (.function tparams tret) (tparams.zip sparams ++ [(sret, tret)])

/-- A value of this type may be used anywhere. -/
def lenientSource : Ty → Bool
  | .unknown | .typeParameter _ | .never => true
  | _ => false

/-- Anything may be used where this type is expected. -/
def lenientTarget : Ty → Bool
  | .unknown | .typeParameter _ => true
  | _ => false

theorem interfaceComparison_cases (sid tid : TypeId) (sargs targs : List Ty) :
    (∃ pairs, interfaceComparison lib sid tid sargs targs = .inr pairs ∧
        Rests lib (.interface sid sargs) (.interface tid targs) pairs) ∨
      (interfaceComparison lib sid tid sargs targs = .inl false ∧
        ∀ pairs, ¬ Rests lib (.interface sid sargs) (.interface tid targs) pairs) := by
  rw [interfaceComparison]
  cases conforms : conformance lib sid tid targs with
  | some pairs => exact .inl ⟨pairs, rfl, .conforms conforms⟩
  | none =>
    simp only
    split
    next other =>
      refine .inr ⟨rfl, ?_⟩
      rintro pairs (conforms' | _)
      · rw [conforms] at conforms'
        cases conforms'
      · exact other rfl
    next same =>
      obtain rfl := not_not.mp same
      split
      next arity =>
        refine .inr ⟨rfl, ?_⟩
        rintro pairs (conforms' | ⟨-, arity'⟩)
        · rw [conforms] at conforms'
          cases conforms'
        · exact arity arity'
      next arity => exact .inl ⟨_, rfl, .sameElement conforms (not_not.mp arity)⟩

/-- `comparison` by the rule that applies. -/
theorem comparison_cases (source target : Ty) :
    (comparison lib (source, target) = .inl true ∧
        (lenientSource source = true ∨ lenientTarget target = true ∨ source = target)) ∨
      (∃ pairs, comparison lib (source, target) = .inr pairs ∧ source ≠ target ∧ Rests lib source target pairs) ∨
      (comparison lib (source, target) = .inl false ∧ lenientSource source = false ∧ lenientTarget target = false ∧
        source ≠ target ∧ ∀ pairs, ¬ Rests lib source target pairs) := by
  by_cases same : source = target
  · subst same
    cases source <;> simp [comparison, lenientSource]
  · cases source with
    | unknown | typeParameter _ | never => exact .inl ⟨rfl, .inl rfl⟩
    | primitive p =>
      cases target <;>
        first
        | exact .inl ⟨rfl, .inr (.inl rfl)⟩
        | exact .inr (.inr ⟨by simp [comparison, same], rfl, rfl, same, by rintro _ ⟨⟩⟩)
    | interface sid sargs =>
      cases target with
      | interface tid targs =>
        have unequal : comparison lib (.interface sid sargs, .interface tid targs) =
            interfaceComparison lib sid tid sargs targs := by simp only [comparison, same, if_false]
        rw [unequal]
        rcases @interfaceComparison_cases lib sid tid sargs targs with ⟨pairs, asked, rests⟩ | ⟨no, none⟩
        · exact .inr (.inl ⟨pairs, asked, same, rests⟩)
        · exact .inr (.inr ⟨no, rfl, rfl, same, none⟩)
      | _ =>
        first
        | exact .inl ⟨rfl, .inr (.inl rfl)⟩
        | exact .inr (.inr ⟨by simp [comparison, same], rfl, rfl, same, by rintro _ ⟨⟩⟩)
    | function sparams sret =>
      cases target with
      | function tparams tret =>
        by_cases arity : sparams.length = tparams.length
        · exact .inr (.inl ⟨_, by simp [comparison, same, arity], same, .function arity⟩)
        · refine .inr (.inr ⟨by simp [comparison, same, arity], rfl, rfl, same, ?_⟩)
          rintro _ ⟨⟩
          contradiction
      | _ =>
        first
        | exact .inl ⟨rfl, .inr (.inl rfl)⟩
        | exact .inr (.inr ⟨by simp [comparison, same], rfl, rfl, same, by rintro _ ⟨⟩⟩)

variable {source target : Ty} {pairs : List (Ty × Ty)} {pair : Ty × Ty}

theorem comparison_inr (asked : comparison lib (source, target) = .inr pairs) :
    source ≠ target ∧ Rests lib source target pairs := by
  rcases @comparison_cases lib source target with ⟨yes, -⟩ | ⟨pairs', asked', rests⟩ | ⟨no, -⟩
  · rw [yes] at asked
    cases asked
  · rw [asked'] at asked
    cases asked
    exact rests
  · rw [no] at asked
    cases asked

/-! ## The relation the rules define -/

variable (lib) in
/-- Assignability by its rules, with nothing said on how they are tried. -/
inductive Holds : Ty → Ty → Prop where
  | source {source target : Ty} (lenient : lenientSource source = true) : Holds source target
  | target {source target : Ty} (lenient : lenientTarget target = true) : Holds source target
  | refl (ty : Ty) : Holds ty ty
  | rule {source target : Ty} {pairs : List (Ty × Ty)} (rests : Rests lib source target pairs)
      (premises : ∀ pair ∈ pairs, Holds pair.1 pair.2) : Holds source target

variable (lib) in
/-- The calls `isAssignable` makes of itself: what a comparison rests on, in order, while the earlier ones hold. -/
inductive Calls : Ty × Ty → Ty × Ty → Prop where
  | intro {source target : Ty} {before after : List (Ty × Ty)} {pair : Ty × Ty} (differ : source ≠ target)
      (rests : Rests lib source target (before ++ pair :: after)) (held : ∀ x ∈ before, Holds lib x.1 x.2) :
      Calls (source, target) pair

theorem Rests.not_lenient (rests : Rests lib source target pairs) :
    lenientSource source = false ∧ lenientTarget target = false := by
  cases rests <;> exact ⟨rfl, rfl⟩

theorem Rests.unique {pairs' : List (Ty × Ty)} (rests : Rests lib source target pairs)
    (rests' : Rests lib source target pairs') : pairs = pairs' := by
  cases rests with
  | conforms conforms =>
    cases rests' with
    | conforms conforms' => exact Option.some.inj (conforms.symm.trans conforms')
    | sameElement nominal _ => cases conforms.symm.trans nominal
  | sameElement nominal _ =>
    cases rests' with
    | conforms conforms' => cases conforms'.symm.trans nominal
    | sameElement _ _ => rfl
  | function _ => cases rests'; rfl

theorem comparison_of_rests (differ : source ≠ target) (rests : Rests lib source target pairs) :
    comparison lib (source, target) = .inr pairs := by
  rcases @comparison_cases lib source target with ⟨-, lenient⟩ | ⟨pairs', asked, -, rests'⟩ | ⟨-, -, -, -, none⟩
  · rcases lenient with lenient | lenient | same
    · cases rests.not_lenient.1.symm.trans lenient
    · cases rests.not_lenient.2.symm.trans lenient
    · exact absurd same differ
  · rw [asked, rests.unique rests']
  · exact absurd rests (none pairs)

/-- `isAssignable` answers yes exactly where the rules say so. -/
theorem answers_true_iff : Answers (comparison lib) (source, target) true ↔ Holds lib source target := by
  constructor
  · rintro ⟨depth, found⟩
    induction depth generalizing source target with
    | zero => cases found
    | succ depth ih =>
      rw [answer] at found
      rcases @comparison_cases lib source target with ⟨-, lenient | lenient | rfl⟩ | ⟨pairs, asked, -, rests⟩ | ⟨no, -⟩
      · exact .source lenient
      · exact .target lenient
      · exact .refl _
      · rw [asked] at found
        exact .rule rests fun pair member => ih (askAll_eq_true.mp found pair member)
      · rw [no] at found
        cases found
  · intro holds
    induction holds with
    | @source source target lenient =>
      cases source <;> first | exact .outright rfl | cases lenient
    | @target source target lenient =>
      cases target <;> first | (cases source <;> exact .outright rfl) | cases lenient
    | refl ty => cases ty <;> exact .outright (by simp [comparison])
    | @rule source target pairs rests _ ih =>
      by_cases same : source = target
      · subst same
        cases source <;> exact .outright (by simp [comparison])
      · exact (answers_all (comparison_of_rests same rests)).mpr ih

theorem asks_iff_calls {pair' : Ty × Ty} : Asks (comparison lib) pair pair' ↔ Calls lib pair pair' := by
  constructor
  · rintro ⟨asked, yes⟩
    obtain ⟨differ, rests⟩ := comparison_inr asked
    exact .intro differ rests fun x member => answers_true_iff.mp (yes x member)
  · rintro ⟨differ, rests, held⟩
    exact .intro (comparison_of_rests differ rests) fun x member => answers_true_iff.mpr (held x member)

theorem asks_eq_calls : Asks (comparison lib) = Calls lib := by
  funext pair pair'
  exact propext asks_iff_calls

/-- Where a comparison holds, so does every comparison it calls for. -/
theorem Calls.holds (calls : Calls lib (source, target) pair) (holds : Holds lib source target) :
    Holds lib pair.1 pair.2 := by
  obtain ⟨differ, rests, -⟩ := calls
  cases holds with
  | source lenient => cases rests.not_lenient.1.symm.trans lenient
  | target lenient => cases rests.not_lenient.2.symm.trans lenient
  | refl => exact absurd rfl differ
  | rule rests' premises =>
    rw [rests'.unique rests] at premises
    exact premises pair (List.mem_append_right _ List.mem_cons_self)

/-! ## Only finitely many comparisons come up -/

/-- What a type is built from directly. -/
def children : Ty → List Ty
  | .interface _ args => args
  | .function params result => params ++ [result]
  | _ => []

mutual

/-- What a type is built from, itself included. -/
def parts : Ty → List Ty
  | .interface id args => .interface id args :: partsAll args
  | .function params result => .function params result :: (partsAll params ++ parts result)
  | ty => [ty]

def partsAll : List Ty → List Ty
  | [] => []
  | ty :: rest => parts ty ++ partsAll rest

end

theorem mem_partsAll {ty : Ty} {tys : List Ty} : ty ∈ partsAll tys ↔ ∃ outer ∈ tys, ty ∈ parts outer := by
  induction tys with
  | nil => simp [partsAll]
  | cons outer rest ih => simp [partsAll, ih]

theorem self_mem_parts (ty : Ty) : ty ∈ parts ty := by
  cases ty <;> simp [parts]

mutual

theorem child_mem_parts {child ty : Ty} (inside : child ∈ children ty) : ∀ outer : Ty, ty ∈ parts outer → child ∈ parts outer
  | .interface id args, member => by
      rcases List.mem_cons.mp (by simpa only [parts] using member) with rfl | deeper
      · rw [parts]
        exact List.mem_cons_of_mem _ (mem_partsAll.mpr ⟨child, inside, self_mem_parts child⟩)
      · rw [parts]
        exact List.mem_cons_of_mem _ (child_mem_partsAll inside args deeper)
  | .function params result, member => by
      rcases List.mem_cons.mp (by simpa only [parts] using member) with rfl | deeper
      · rw [parts]
        refine List.mem_cons_of_mem _ (List.mem_append.mpr ?_)
        rcases List.mem_append.mp inside with param | value
        · exact .inl (mem_partsAll.mpr ⟨child, param, self_mem_parts child⟩)
        · rw [List.mem_singleton.mp value]
          exact .inr (self_mem_parts result)
      · rw [parts]
        refine List.mem_cons_of_mem _ (List.mem_append.mpr ?_)
        rcases List.mem_append.mp deeper with param | value
        · exact .inl (child_mem_partsAll inside params param)
        · exact .inr (child_mem_parts inside result value)
  | .primitive _, member | .typeParameter _, member | .unknown, member | .never, member => by
      simp only [parts, List.mem_singleton] at member
      simp [member, children] at inside

theorem child_mem_partsAll {child ty : Ty} (inside : child ∈ children ty) :
    ∀ outer : List Ty, ty ∈ partsAll outer → child ∈ partsAll outer
  | [], member => by simp [partsAll] at member
  | first :: rest, member => by
      rw [partsAll, List.mem_append] at member ⊢
      exact member.imp (child_mem_parts inside first) (child_mem_partsAll inside rest)

end

/-- Every argument an `impl` of the library recorded. -/
def recordedArgs (lib : LibraryElement) : List Ty :=
  let defs := lib.typeDefs.map Prod.snd ++ lib.fileTypeDefs.flatMap fun file => file.2.map Prod.snd
  defs.flatMap fun d => d.interfaceArgs.flatMap Prod.snd

theorem mem_recordedArgs {sid : TypeId} {sdef : TypeDefElement} {key : String} {implArgs : List Ty} {ty : Ty}
    (declared : defById lib sid = some sdef) (recorded : sdef.interfaceArgs.get key = some implArgs)
    (member : ty ∈ implArgs) : ty ∈ recordedArgs lib := by
  have inTables : sdef ∈ lib.typeDefs.map Prod.snd ++ lib.fileTypeDefs.flatMap fun file => file.2.map Prod.snd := by
    rw [defById] at declared
    split at declared
    · obtain ⟨name, entry⟩ := Table.mem_of_get declared
      exact List.mem_append_left _ (List.mem_map.mpr ⟨_, entry, rfl⟩)
    · obtain ⟨file, inFile, found⟩ := Option.bind_eq_some_iff.mp declared
      obtain ⟨owner, row⟩ := Table.mem_of_get inFile
      obtain ⟨name, entry⟩ := Table.mem_of_get found
      exact List.mem_append_right _ (List.mem_flatMap.mpr ⟨_, row, List.mem_map.mpr ⟨_, entry, rfl⟩⟩)
  obtain ⟨key, entry⟩ := Table.mem_of_get recorded
  exact List.mem_flatMap.mpr ⟨sdef, inTables, List.mem_flatMap.mpr ⟨_, entry, member⟩⟩

theorem conformance_pairs {sid tid : TypeId} {targs : List Ty} (conforms : conformance lib sid tid targs = some pairs)
    (member : pair ∈ pairs) : pair.1 ∈ recordedArgs lib ∧ pair.2 ∈ targs := by
  rw [conformance] at conforms
  split at conforms
  next sdef declared =>
    have declared : defById lib sid = some sdef := by
      split at declared
      · exact declared
      · cases declared
    split at conforms
    · cases conforms
      split at member
      · cases member
      · split at member
        next implArgs recorded =>
          split at member
          · cases member
          · exact ⟨mem_recordedArgs declared recorded (List.of_mem_zip member).1, (List.of_mem_zip member).2⟩
        · cases member
    · split at conforms
      · cases conforms
        cases member
      · cases conforms
  · cases conforms

theorem mem_argumentPairs {sid : TypeId} {sargs targs : List Ty} :
    pair ∈ argumentPairs lib sid sargs targs ↔
      pair ∈ sargs.zip targs ∨ isCovariantConstructor lib sid = false ∧ pair.swap ∈ sargs.zip targs := by
  obtain ⟨a, b⟩ := pair
  cases variance : isCovariantConstructor lib sid with
  | false =>
    simp only [argumentPairs, variance, List.mem_flatMap, Prod.exists, Bool.false_eq_true, if_false, List.mem_cons,
      Prod.mk.injEq, List.not_mem_nil, or_false, true_and, Prod.swap_prod_mk]
    constructor
    · rintro ⟨s, t, zipped, ⟨rfl, rfl⟩ | ⟨rfl, rfl⟩⟩
      · exact .inl zipped
      · exact .inr zipped
    · rintro (forth | back)
      · exact ⟨a, b, forth, .inl ⟨rfl, rfl⟩⟩
      · exact ⟨b, a, back, .inr ⟨rfl, rfl⟩⟩
  | true => simp [argumentPairs, variance]

/-- What a comparison goes on to compare is a piece of the two types or a recorded argument. -/
theorem Rests.pieces (rests : Rests lib source target pairs) (member : pair ∈ pairs) :
    pair.1 ∈ children source ++ children target ++ recordedArgs lib ∧
      pair.2 ∈ children source ++ children target ++ recordedArgs lib := by
  simp only [List.mem_append]
  cases rests with
  | conforms conforms =>
    obtain ⟨first, second⟩ := conformance_pairs conforms member
    exact ⟨.inr first, .inl (.inr second)⟩
  | sameElement _ _ =>
    rcases mem_argumentPairs.mp member with forth | ⟨-, back⟩
    · obtain ⟨first, second⟩ := List.of_mem_zip forth
      exact ⟨.inl (.inl first), .inl (.inr second)⟩
    · obtain ⟨first, second⟩ := List.of_mem_zip back
      exact ⟨.inl (.inr second), .inl (.inl first)⟩
  | function _ =>
    rcases List.mem_append.mp member with param | result
    · obtain ⟨first, second⟩ := List.of_mem_zip param
      exact ⟨.inl (.inr (List.mem_append_left _ first)), .inl (.inl (List.mem_append_left _ second))⟩
    · rw [List.mem_singleton.mp result]
      exact ⟨.inl (.inl (List.mem_append_right _ (List.mem_singleton.mpr rfl))),
        .inl (.inr (List.mem_append_right _ (List.mem_singleton.mpr rfl)))⟩

theorem comparisons_finite (source target : Ty) :
    {pair | ReflTransGen (Asks (comparison lib)) (source, target) pair}.Finite := by
  let within := {ty | ty ∈ partsAll (source :: target :: recordedArgs lib)}
  have finite : within.Finite := List.finite_toSet _
  refine (finite.prod finite).subset fun pair reached => ?_
  have top (ty : Ty) (member : ty ∈ source :: target :: recordedArgs lib) : ty ∈ within :=
    mem_partsAll.mpr ⟨ty, member, self_mem_parts ty⟩
  induction reached with
  | refl => exact ⟨top source (by simp), top target (by simp)⟩
  | @tail middle pair _ asks ih =>
    obtain ⟨asked, -⟩ := asks
    have piece (ty : Ty) (member : ty ∈ children middle.1 ++ children middle.2 ++ recordedArgs lib) : ty ∈ within := by
      rcases List.mem_append.mp member with inside | recorded
      · rcases List.mem_append.mp inside with left | right
        · exact child_mem_partsAll left _ ih.1
        · exact child_mem_partsAll right _ ih.2
      · exact top ty (by simp [recorded])
    obtain ⟨first, second⟩ := (comparison_inr asked).2.pieces (List.mem_append_right _ List.mem_cons_self)
    exact ⟨piece _ first, piece _ second⟩

end Thera.Element
