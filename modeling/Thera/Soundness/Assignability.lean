import Thera.Proofs.Element.Assignability
import Thera.Model.Checker.Conformance

/-! # Assignability returns, and is a preorder

Two questions about `isAssignable`: whether it returns, and whether it is reflexive and transitive on types
without holes. Neither holds of every library the checker accepts. It fails to return exactly when deciding a
comparison comes back to that comparison, which the recorded arguments of an `impl` allow; and two steps fail to
compose exactly when a step by conformance follows another and the type's own conformance does not cover where
they lead, as when it extends a generic interface whose arguments the second step ignores.
-/

namespace Thera.Soundness

open Thera.Element Querying Relation
open Thera.Compiler hiding ImplDecl InterfaceDecl TypeDefElement
open Thera.Checker (AcceptedLibrary)

section

variable (lib : LibraryElement)

def Assignable (source target : Ty) : Prop := ∃ fuel, isAssignable lib fuel source target = some true

def Returns (source target : Ty) : Prop := ∃ fuel answer, isAssignable lib fuel source target = some answer

end

variable {lib : LibraryElement}

variable {source target : Ty}

theorem assignable_iff_holds : Assignable lib source target ↔ Holds lib source target := by
  rw [← answers_true_iff]
  simp only [Assignable, Answers, isAssignable_eq_answer]

theorem returns_iff_answered :
    Returns lib source target ↔ ∃ b, Answers (comparison lib) (source, target) b := by
  simp only [Returns, Answers, isAssignable_eq_answer]
  exact exists_comm

theorem Returns.acc (returns : Returns lib source target) : Acc (flip (Calls lib)) (source, target) := by
  rw [← asks_eq_calls]
  exact answered_iff_acc.mp (returns_iff_answered.mp returns)

/-! ## Termination -/

/-- `interface I<T> {}`, `struct A {}` and `impl I<fn(I<fn(A) -> Int>) -> Int> for A {}`. -/
def swappingImpl : SourceProgram where
  file := "main"
  decls := [
    .interface { name := "I", typeParams := ["T"], superInterfaces := [], methods := [] },
    .type "A" [] false,
    .impl {
      typeParams := [], target := ⟨"main", "A"⟩, methods := []
      interface := some (⟨"main", "I"⟩, [.function
        [.interface ⟨"main", "I"⟩ [.function [.interface ⟨"main", "A"⟩ []] (.primitive .int)]] (.primitive .int)]) }]

def swappingLibrary : AcceptedLibrary := ⟨[swappingImpl], by decide +kernel⟩

mutual

/-- Built without unknown types, `Never` and type parameters. -/
def ground : Ty → Bool
  | .primitive _ => true
  | .interface _ args => groundAll args
  | .function params result => groundAll params && ground result
  | .typeParameter _ | .unknown | .never => false

def groundAll : List Ty → Bool
  | [] => true
  | ty :: rest => ground ty && groundAll rest

end

theorem groundAll_iff {tys : List Ty} : groundAll tys = true ↔ ∀ ty ∈ tys, ground ty = true := by
  induction tys with
  | nil => simp [groundAll]
  | cons ty rest ih => simp [groundAll, ih]

theorem ground_not_lenient {ty : Ty} (isGround : ground ty = true) :
    lenientSource ty = false ∧ lenientTarget ty = false := by
  cases ty <;> simp_all [ground, lenientSource, lenientTarget]

section

variable (lib)

/-- A step by conformance: by an `impl` whose recorded arguments fit, or by extension. -/
inductive Conforms : Ty → Ty → Prop where
  | intro {sid tid : TypeId} {sargs targs : List Ty} {pairs : List (Ty × Ty)}
      (conforms : conformance lib sid tid targs = some pairs) (fit : ∀ pair ∈ pairs, Holds lib pair.1 pair.2) :
      Conforms (.interface sid sargs) (.interface tid targs)

/-- Comparisons that come up in deciding one that two steps between ground types lead to. -/
def Arises (source target : Ty) : Prop :=
  ∃ a b c, ground a = true ∧ ground b = true ∧ ground c = true ∧ Assignable lib a b ∧ Assignable lib b c ∧
    Returns lib a c ∧ ReflTransGen (Calls lib) (a, c) (source, target)

end

theorem Conforms.holds (conforms : Conforms lib source target) : Holds lib source target := by
  obtain ⟨conforms, fit⟩ := conforms
  exact .rule (.conforms conforms) fit

/-- Between corresponding elements of the outer two stands one of the middle. -/
theorem mem_zip_middle {α : Type*} {xs ys zs : List α} (left : xs.length = ys.length) {pair : α × α} (member : pair ∈ xs.zip zs) :
    ∃ y ∈ ys, (pair.1, y) ∈ xs.zip ys ∧ (y, pair.2) ∈ ys.zip zs := by
  obtain ⟨i, here⟩ := List.mem_iff_getElem?.mp member
  obtain ⟨first, second⟩ := List.getElem?_zip_eq_some.mp here
  have bound : i < ys.length := left ▸ (List.getElem?_eq_some_iff.mp first).1
  have middle := List.getElem?_eq_getElem bound
  exact ⟨ys[i], List.getElem_mem bound, List.mem_of_getElem? (List.getElem?_zip_eq_some.mpr ⟨first, middle⟩),
    List.mem_of_getElem? (List.getElem?_zip_eq_some.mpr ⟨middle, second⟩)⟩

/-- What a conformance rests on when the target's arguments are replaced: nothing, or the recorded arguments
against the new ones. -/
theorem conformance_replace {sid tid : TypeId} {targs targs' : List Ty} {pairs : List (Ty × Ty)}
    (conforms : conformance lib sid tid targs = some pairs) (arity : targs.length = targs'.length) :
    conformance lib sid tid targs' = some [] ∨
      ∃ implArgs : List Ty, implArgs.length = targs.length ∧ pairs = implArgs.zip targs ∧
        conformance lib sid tid targs' = some (implArgs.zip targs') := by
  rw [conformance] at conforms ⊢
  cases declared : (if isInterfaceId lib tid then defById lib sid else none) with
  | none => simp [declared] at conforms
  | some sdef =>
    simp only [declared] at conforms ⊢
    split at conforms
    next implemented =>
      rw [if_pos implemented, ← arity]
      cases conforms
      split
      · exact .inl rfl
      · cases sdef.interfaceArgs.get (idKey tid) with
        | none => exact .inl rfl
        | some implArgs =>
          simp only
          split
          · exact .inl rfl
          next same => exact .inr ⟨implArgs, not_not.mp same, rfl, rfl⟩
    next other =>
      rw [if_neg other]
      split at conforms
      next extended => exact .inl (if_pos extended)
      · cases conforms

/-- A comparison holds once each that it rests on holds whenever it is called for. -/
theorem holds_of_calls {pairs : List (Ty × Ty)} (rests : Rests lib source target pairs)
    (called : ∀ pair ∈ pairs, Calls lib (source, target) pair → Holds lib pair.1 pair.2) : Holds lib source target := by
  by_cases same : source = target
  · exact same ▸ .refl source
  · refine .rule rests ?_
    have prefixes (before after : List (Ty × Ty)) (whole : pairs = before ++ after)
        (held : ∀ x ∈ before, Holds lib x.1 x.2) : ∀ x ∈ pairs, Holds lib x.1 x.2 := by
      induction after generalizing before with
      | nil => rwa [whole, List.append_nil]
      | cons pair after ih =>
        subst whole
        have here := called pair (List.mem_append_right _ List.mem_cons_self) (.intro same rests held)
        refine ih (before ++ [pair]) (by simp) fun x member => ?_
        rcases List.mem_append.mp member with old | new
        · exact held x old
        · rwa [List.mem_singleton.mp new]
    exact prefixes [] pairs rfl (by simp)

/-- Two steps through a ground type that are not both by conformance come down to two steps each, for every
comparison the composite rests on. -/
theorem rests_compose {middle : Ty} {left right : List (Ty × Ty)} (isGround : ground middle = true)
    (toMiddle : Rests lib source middle left) (fromMiddle : Rests lib middle target right)
    (leftHolds : ∀ pair ∈ left, Holds lib pair.1 pair.2) (rightHolds : ∀ pair ∈ right, Holds lib pair.1 pair.2) :
    (Conforms lib source middle ∧ Conforms lib middle target) ∨
      ∃ pairs, Rests lib source target pairs ∧ ∀ pair ∈ pairs,
        Holds lib pair.1 pair.2 ∨ ∃ ty, ground ty = true ∧ Holds lib pair.1 ty ∧ Holds lib ty pair.2 := by
  cases toMiddle with
  | conforms conforms =>
    cases fromMiddle with
    | conforms conforms' => exact .inl ⟨⟨conforms, leftHolds⟩, ⟨conforms', rightHolds⟩⟩
    | @sameElement id margs targs nominal arity =>
      right
      rw [ground, groundAll_iff] at isGround
      rcases conformance_replace conforms arity with free | ⟨implArgs, length, rfl, replaced⟩
      · exact ⟨[], .conforms free, by simp⟩
      · refine ⟨_, .conforms replaced, fun pair member => .inr ?_⟩
        obtain ⟨ty, inside, first, second⟩ := mem_zip_middle length member
        exact ⟨ty, isGround ty inside, leftHolds _ first, rightHolds (_, _) (mem_argumentPairs.mpr (.inl second))⟩
  | @sameElement id sargs margs nominal arity =>
    right
    cases fromMiddle with
    | conforms conforms' => exact ⟨_, .conforms conforms', fun pair member => .inl (rightHolds pair member)⟩
    | @sameElement _ _ targs nominal' arity' =>
      rw [ground, groundAll_iff] at isGround
      refine ⟨_, .sameElement nominal' (arity.trans arity'), fun pair member => .inr ?_⟩
      rcases mem_argumentPairs.mp member with forth | ⟨invariant, back⟩
      · obtain ⟨ty, inside, first, second⟩ := mem_zip_middle arity forth
        exact ⟨ty, isGround ty inside, leftHolds (_, _) (mem_argumentPairs.mpr (.inl first)),
          rightHolds (_, _) (mem_argumentPairs.mpr (.inl second))⟩
      · obtain ⟨ty, inside, first, second⟩ := mem_zip_middle arity back
        exact ⟨ty, isGround ty inside, rightHolds (_, _) (mem_argumentPairs.mpr (.inr ⟨invariant, second⟩)),
          leftHolds (_, _) (mem_argumentPairs.mpr (.inr ⟨invariant, first⟩))⟩
  | @function sparams mparams sret mret arity =>
    right
    cases fromMiddle with
    | @function _ tparams _ tret arity' =>
    rw [ground, Bool.and_eq_true, groundAll_iff] at isGround
    refine ⟨_, .function (arity.trans arity'), fun pair member => .inr ?_⟩
    rcases List.mem_append.mp member with param | result
    · obtain ⟨ty, inside, first, second⟩ := mem_zip_middle arity'.symm param
      exact ⟨ty, isGround.1 ty inside, rightHolds _ (List.mem_append_left _ first),
        leftHolds (_, _) (List.mem_append_left _ second)⟩
    · rw [List.mem_singleton.mp result]
      exact ⟨mret, isGround.2, leftHolds (_, _) (List.mem_append_right _ (List.mem_singleton.mpr rfl)),
        rightHolds (_, _) (List.mem_append_right _ (List.mem_singleton.mpr rfl))⟩

theorem Arises.acc (arises : Arises lib source target) : Acc (flip (Calls lib)) (source, target) := by
  obtain ⟨a, b, c, -, -, -, -, -, returns, reached⟩ := arises
  exact acc_of_reached returns.acc reached

theorem Arises.called {pair : Ty × Ty} (arises : Arises lib source target) (calls : Calls lib (source, target) pair) :
    Arises lib pair.1 pair.2 := by
  obtain ⟨a, b, c, groundA, groundB, groundC, ab, bc, returns, reached⟩ := arises
  exact ⟨a, b, c, groundA, groundB, groundC, ab, bc, returns, reached.tail calls⟩

/-- Where conformance composes, two steps through a ground type do. -/
theorem holds_trans
    (compose : ∀ s m t, Arises lib s t → ground m = true → Conforms lib s m → Conforms lib m t → Holds lib s t)
    {pair : Ty × Ty} {middle : Ty} (arises : Arises lib pair.1 pair.2) (isGround : ground middle = true)
    (toMiddle : Holds lib pair.1 middle) (fromMiddle : Holds lib middle pair.2) : Holds lib pair.1 pair.2 := by
  have acc : Acc (flip (Calls lib)) pair := arises.acc
  -- on the calls below the composite
  induction acc generalizing middle with
  | intro pair _ ih =>
    obtain ⟨notSource, notTarget⟩ := ground_not_lenient isGround
    cases toMiddle with
    | source lenient => exact .source lenient
    | target lenient => cases notTarget.symm.trans lenient
    | refl => exact fromMiddle
    | rule toMiddle leftHolds =>
      cases fromMiddle with
      | source lenient => cases notSource.symm.trans lenient
      | target lenient => exact .target lenient
      | refl => exact .rule toMiddle leftHolds
      | rule fromMiddle rightHolds =>
        rcases rests_compose isGround toMiddle fromMiddle leftHolds rightHolds with ⟨first, second⟩ | ⟨pairs, rests, each⟩
        · exact compose pair.1 middle pair.2 arises isGround first second
        · refine holds_of_calls rests fun below member calls => ?_
          rcases each below member with held | ⟨ty, isGround, first, second⟩
          · exact held
          · exact ih below calls (arises.called calls) isGround first second

/-- The type's own conformance covers the target, or the two are one type at arguments that are assignable. -/
def Covers (lib : LibraryElement) (source target : Ty) : Prop :=
  Conforms lib source target ∨
    ∃ id sargs targs, source = .interface id sargs ∧ target = .interface id targs ∧ Holds lib source target

theorem Covers.holds (covers : Covers lib source target) : Holds lib source target := by
  rcases covers with conforms | ⟨_, _, _, -, -, holds⟩
  · exact conforms.holds
  · exact holds

theorem covers_of_holds {sid tid : TypeId} {sargs targs : List Ty}
    (holds : Holds lib (.interface sid sargs) (.interface tid targs)) :
    Covers lib (.interface sid sargs) (.interface tid targs) := by
  cases holds with
  | source lenient | target lenient => cases lenient
  | refl => exact .inr ⟨_, _, _, rfl, rfl, .refl _⟩
  | rule rests premises =>
    cases rests with
    | conforms conforms => exact .inl ⟨conforms, premises⟩
    | sameElement nominal arity => exact .inr ⟨_, _, _, rfl, rfl, .rule (.sameElement nominal arity) premises⟩

theorem holds_of_reached {pair : Ty × Ty} (reached : ReflTransGen (Calls lib) (source, target) pair)
    (holds : Holds lib source target) : Holds lib pair.1 pair.2 := by
  induction reached with
  | refl => exact holds
  | tail _ calls ih => exact calls.holds ih

/-- `interface Source<T> {}`, `interface Feed : Source {}`, `struct A {}`, `impl Source<Int> for A {}` and
`impl Feed for A {}`. -/
def genericSuper : SourceProgram where
  file := "main"
  decls := [
    .interface { name := "Source", typeParams := ["T"], superInterfaces := [], methods := [] },
    .interface { name := "Feed", typeParams := [], superInterfaces := [⟨"main", "Source"⟩], methods := [] },
    .type "A" [] false,
    .impl { typeParams := [], target := ⟨"main", "A"⟩, methods := [],
            interface := some (⟨"main", "Source"⟩, [.primitive .int]) },
    .impl { typeParams := [], target := ⟨"main", "A"⟩, methods := [], interface := some (⟨"main", "Feed"⟩, []) }]

def genericSuperLibrary : AcceptedLibrary := ⟨[genericSuper], by decide +kernel⟩

end Thera.Soundness
