import Thera.Proofs.Checker.CallArgs

/-! # Every parameter gets the argument the checker checked

The checker matches an argument with a parameter by its place in the call, code generation by counting the
positional arguments only. On a call the checker has no report on the two agree exactly when each positional
argument has as many positional arguments before it as parameters before its place take one, no label is given
twice or belongs to two parameters, and every parameter without a default is given.
-/

namespace Thera.Soundness

open Thera.Element Thera.Checker
open Thera.Compiler hiding ImplDecl InterfaceDecl TypeDefElement

/-- The place of the parameter the checker compares an argument with. -/
def checkedPosition (params : List Param) (i : ℕ) (arg : CallArg) : Option ℕ :=
  match arg.label with
  | some label => (valueParams params).findIdx? fun p => p.label = some label
  | none => if i < (valueParams params).length then some i else none

/-- Code generation and the checker agree on a call. -/
structure PairedAsChecked (params : List Param) (args : List CallArg) : Prop where
  /-- Every parameter gets one value, the argument it takes or its default, and nothing is reported. -/
  resolved : ∀ span declFile c, ∃ ordered, resolveArgs params args span declFile c = some (ordered, c) ∧
    ordered.length = (valueParams params).length ∧
    ∀ (k : ℕ) (p : Param) (s : Option ℕ), (valueParams params)[k]? = some p → (suppliers params args)[k]? = some s →
      ordered[k]? = argumentFor declFile span p (s.map (argumentAt args))
  /-- An argument is taken by the parameter it was compared with, and by no other. -/
  once : ∀ i arg, args[i]? = some arg → ∃ k, checkedPosition params i arg = some k ∧
    ∀ k', (suppliers params args)[k']? = some (some i) ↔ k' = k

/-- What a call must be like for the two to agree. -/
structure ArgumentsAligned (params : List Param) (args : List CallArg) : Prop where
  labelOnce : ∀ (i j : ℕ) (a b : CallArg) (label : String), args[i]? = some a → args[j]? = some b →
    a.label = some label → b.label = some label → i = j
  labelUnique : ∀ label ∈ args.filterMap CallArg.label, ∀ (k k' : ℕ) (p p' : Param), (valueParams params)[k]? = some p →
    (valueParams params)[k']? = some p' → p.label = some label → p'.label = some label → k = k'
  positionalInPlace : ∀ (i : ℕ) (a : CallArg), args[i]? = some a → a.label = none →
    (args.take i).countP (fun a => a.label.isNone) =
      ((valueParams params).take i).countP (takesPositional (args.filterMap CallArg.label))
  required : ∀ (k : ℕ) (p : Param), (valueParams params)[k]? = some p → p.defaultValue = none →
    (∃ label ∈ args.filterMap CallArg.label, p.label = some label) ∨
      (takesPositional (args.filterMap CallArg.label) p = true ∧
        ((valueParams params).take k).countP (takesPositional (args.filterMap CallArg.label)) <
          args.countP fun a => a.label.isNone)

/-! ## What a clean check says -/

/-- The checker's parameters are those code generation matches, with their types. -/
theorem nonSelfParams_buildParams (selfType : Ty) (resolveOpt : Option TypeRef → Ty) (params : List Param) :
    nonSelfParams (buildParams selfType resolveOpt params) = (valueParams params).map fun p =>
      { label := p.label, isSelf := false, name := p.name, ty := resolveOpt p.typeAnn, hasDefault := p.defaultValue.isSome } := by
  induction params with
  | nil => rfl
  | cons p rest ih =>
    simp only [nonSelfParams, buildParams, valueParams] at ih ⊢
    cases isSelf : p.isSelf <;> simp [isSelf, ih]

/-- A call without reports names labels the signature has, has no more arguments than parameters, and puts its
positional arguments at parameters without a label. -/
structure CleanCall (params : List Param) (args : List CallArg) : Prop where
  known : ∀ (i : ℕ) (a : CallArg) (label : String), args[i]? = some a → a.label = some label →
    ∃ (k : ℕ) (p : Param), (valueParams params)[k]? = some p ∧ p.label = some label
  positional : ∀ (i : ℕ) (a : CallArg), args[i]? = some a → a.label = none →
    ∃ p : Param, (valueParams params)[i]? = some p ∧ p.label = none

theorem cleanCall_of_check {lib : LibraryElement} {fuel : ℕ} {fnEl : FunctionElement} {recvBindings : Table String Ty}
    {args : List CallArg} {argTypes : List Ty} {span : Span} {selfType : Ty} {resolveOpt : Option TypeRef → Ty}
    {params : List Param} (declared : fnEl.parameters = buildParams selfType resolveOpt params)
    (clean : checkCallArgs lib fuel fnEl recvBindings args argTypes span = some []) : CleanCall params args := by
  have elements := nonSelfParams_buildParams selfType resolveOpt params
  rw [checkCallArgs, declared] at clean
  split at clean
  · cases clean
  next labels =>
    dsimp only at clean
    split at clean
    · cases clean
    next arity =>
      obtain ⟨mismatches, -, clean⟩ := Option.bind_eq_some_iff.mp clean
      obtain ⟨bounds, -, clean⟩ := Option.bind_eq_some_iff.mp clean
      have owed := (List.append_eq_nil_iff.mp (List.append_eq_nil_iff.mp (Option.some.inj clean)).1).2
      rw [not_or, not_lt, not_lt, elements, List.length_map] at arity
      constructor
      · intro i a label there carries
        have valid := List.find?_eq_none.mp labels a (List.mem_of_getElem? there)
        simp only [carries, elements, List.filterMap_map, decide_not, Bool.not_eq_true, Bool.not_eq_false',
          decide_eq_true_eq, List.mem_filterMap, Function.comp] at valid
        obtain ⟨p, member, label'⟩ := valid
        obtain ⟨k, at_k⟩ := List.mem_iff_getElem?.mp member
        exact ⟨k, p, at_k, label'⟩
      · intro i a there positional
        have inside : i < (valueParams params).length := (List.getElem?_eq_some_iff.mp there).1.trans_le arity.2
        refine ⟨_, List.getElem?_eq_getElem inside, ?_⟩
        have pair : (a, some ((nonSelfParams (buildParams selfType resolveOpt params)).get ⟨i, by simpa [elements] using inside⟩)) ∈
            args.zip (paramsForArgs (nonSelfParams (buildParams selfType resolveOpt params)) args) := by
          refine List.mem_iff_getElem?.mpr ⟨i, ?_⟩
          rw [List.getElem?_zip_eq_some]
          refine ⟨there, ?_⟩
          simp [paramsForArgs, there, positional, elements, inside]
        have none := List.filterMap_eq_nil_iff.mp owed _ pair
        simpa [labelOwed, positional, elements] using none

/-! ## The two agree -/

section

variable {params : List Param} {args : List CallArg}

theorem label_given {i : ℕ} {a : CallArg} {label : String} (there : args[i]? = some a) (carries : a.label = some label) :
    label ∈ args.filterMap CallArg.label :=
  List.mem_filterMap.mpr ⟨a, List.mem_of_getElem? there, carries⟩

/-- An argument is taken by a parameter of its label, or, when it has none, by one that takes positional ones. -/
theorem supplier_iff {k i : ℕ} : (suppliers params args)[k]? = some (some i) ↔
    ∃ p a, (valueParams params)[k]? = some p ∧ args[i]? = some a ∧
      ((∃ label, p.label = some label ∧ a.label = some label ∧ (namedOf (indexed args)).get label = some i) ∨
        (takesPositional (args.filterMap CallArg.label) p = true ∧ a.label = none ∧
          (args.take i).countP (fun a => a.label.isNone) =
            ((valueParams params).take k).countP (takesPositional (args.filterMap CallArg.label)))) := by
  rw [suppliers_getElem?, Option.map_eq_some_iff]
  constructor
  · rintro ⟨p, there, taken⟩
    split at taken
    next taker =>
      obtain ⟨a, at_i, positional, count⟩ := positionalOf_indexed.mp taken
      exact ⟨p, a, there, at_i, .inr ⟨taker, positional, count⟩⟩
    next =>
      obtain ⟨label, labelled, found⟩ := Option.bind_eq_some_iff.mp taken
      obtain ⟨⟨a, at_i, carries⟩, -⟩ := get_namedOf_indexed.mp found
      exact ⟨p, a, there, at_i, .inl ⟨label, labelled, carries, found⟩⟩
  · rintro ⟨p, a, there, at_i, ⟨label, labelled, carries, found⟩ | ⟨taker, positional, count⟩⟩
    · exact ⟨p, there, by simp [takesPositional, labelled, label_given at_i carries, found]⟩
    · refine ⟨p, there, ?_⟩
      rw [if_pos taker, positionalOf_indexed]
      exact ⟨a, at_i, positional, count⟩

theorem aligned_of_paired (clean : CleanCall params args) (paired : PairedAsChecked params args) :
    ArgumentsAligned params args := by
  -- the argument that carries a label is the last to do so
  have last {i : ℕ} {a : CallArg} {label : String} (there : args[i]? = some a) (carries : a.label = some label) :
      (namedOf (indexed args)).get label = some i := by
    obtain ⟨k, -, taken⟩ := paired.once i a there
    obtain ⟨p, a', -, there', ⟨label', -, carries', found⟩ | ⟨-, positional, -⟩⟩ := supplier_iff.mp ((taken k).mpr rfl)
    · cases there.symm.trans there'
      cases carries.symm.trans carries'
      exact found
    · cases there.symm.trans there'
      cases carries.symm.trans positional
  constructor
  · intro i j a b label at_i at_j first second
    exact Option.some.inj ((last at_i first).symm.trans (last at_j second))
  · intro label given k k' p p' at_k at_k' labelled labelled'
    obtain ⟨a, member, carries⟩ := List.mem_filterMap.mp given
    obtain ⟨i, at_i⟩ := List.mem_iff_getElem?.mp member
    obtain ⟨k₀, -, taken⟩ := paired.once i a at_i
    have place {k : ℕ} {p : Param} (at_k : (valueParams params)[k]? = some p) (labelled : p.label = some label) : k = k₀ :=
      (taken k).mp (supplier_iff.mpr ⟨p, a, at_k, at_i, .inl ⟨label, labelled, carries, last at_i carries⟩⟩)
    exact (place at_k labelled).trans (place at_k' labelled').symm
  · intro i a at_i positional
    obtain ⟨p, at_p, unlabelled⟩ := clean.positional i a at_i positional
    obtain ⟨k, checked, taken⟩ := paired.once i a at_i
    have inside : i < (valueParams params).length := (List.getElem?_eq_some_iff.mp at_p).1
    obtain rfl : i = k := by simpa [checkedPosition, positional, inside] using checked
    obtain ⟨p', a', -, at_i', ⟨label, -, carries, -⟩ | ⟨-, -, count⟩⟩ := supplier_iff.mp ((taken i).mpr rfl)
    · cases at_i.symm.trans at_i'
      cases positional.symm.trans carries
    · exact count
  · intro k p at_k noDefault
    obtain ⟨ordered, -, length, values⟩ := paired.resolved noSpan none (newFnCompiler newModuleScope [])
    obtain ⟨s, taken⟩ : ∃ s, (suppliers params args)[k]? = some s :=
      ⟨_, by rw [suppliers_getElem?, at_k, Option.map_some]⟩
    have value := values k p s at_k taken
    rw [List.getElem?_eq_getElem (length ▸ (List.getElem?_eq_some_iff.mp at_k).1)] at value
    cases s with
    | none => simp [argumentFor, defaultArg, noDefault] at value
    | some i =>
      obtain ⟨p', a, at_k', at_i, taker⟩ := supplier_iff.mp taken
      cases at_k.symm.trans at_k'
      obtain ⟨label, labelled, carries, -⟩ | ⟨taker, positional, count⟩ := taker
      · exact .inl ⟨label, label_given at_i carries, labelled⟩
      · refine .inr ⟨taker, count ▸ ?_⟩
        rw [← length_positionalOf_indexed args]
        exact (List.getElem?_eq_some_iff.mp (positionalOf_indexed.mpr ⟨a, at_i, positional, rfl⟩)).1

/-- Among takers, the number of takers before tells the place. -/
theorem taker_place {labels : List String} {ps : List Param} {k k' : ℕ} {p p' : Param} (at_k : ps[k]? = some p)
    (at_k' : ps[k']? = some p') (taker : takesPositional labels p = true) (taker' : takesPositional labels p' = true)
    (same : (ps.take k).countP (takesPositional labels) = (ps.take k').countP (takesPositional labels)) : k = k' := by
  have more {m n : ℕ} {q : Param} (at_m : ps[m]? = some q) (takes : takesPositional labels q = true) (lt : m < n) :
      (ps.take m).countP (takesPositional labels) < (ps.take n).countP (takesPositional labels) := by
    have next : (ps.take (m + 1)).countP (takesPositional labels) = (ps.take m).countP (takesPositional labels) + 1 := by
      rw [List.take_add_one, at_m, Option.toList_some, List.countP_append, List.countP_singleton, if_pos takes]
    have mono : (ps.take (m + 1)).countP (takesPositional labels) ≤ (ps.take n).countP (takesPositional labels) :=
      (List.take_sublist_take_left lt).countP_le
    omega
  rcases lt_trichotomy k k' with lt | eq | gt
  · exact absurd same (more at_k taker lt).ne
  · exact eq
  · exact absurd same (more at_k' taker' gt).ne'

/-- Nothing is reported when every parameter without a default takes an argument. -/
theorem resolved_of_complete
    (complete : ∀ (k : ℕ) (p : Param), (valueParams params)[k]? = some p → p.defaultValue = none →
      ∃ i, (suppliers params args)[k]? = some (some i)) (span : Span) (declFile : Option String) (c : FnCompiler) :
    ∃ ordered, resolveArgs params args span declFile c = some (ordered, c) ∧
      ordered.length = (valueParams params).length ∧
      ∀ (k : ℕ) (p : Param) (s : Option ℕ), (valueParams params)[k]? = some p → (suppliers params args)[k]? = some s →
        ordered[k]? = argumentFor declFile span p (s.map (argumentAt args)) := by
  set matched := (valueParams params).zipWith (fun p s => (p, argumentFor declFile span p (s.map (argumentAt args))))
    (suppliers params args) with matched_eq
  have lengths : (suppliers params args).length = (valueParams params).length := length_placeArgs _ _ _
  have entry (k : ℕ) {p : Param} {s : Option ℕ} (at_p : (valueParams params)[k]? = some p)
      (at_s : (suppliers params args)[k]? = some s) :
      matched[k]? = some (p, argumentFor declFile span p (s.map (argumentAt args))) := by
    rw [matched_eq, List.getElem?_zipWith, at_p, at_s]
  have present : ∀ entry ∈ matched, entry.2.isSome = true := by
    intro e member
    obtain ⟨k, at_k⟩ := List.mem_iff_getElem?.mp member
    rw [matched_eq, List.getElem?_zipWith_eq_some] at at_k
    obtain ⟨p, s, at_p, at_s, rfl⟩ := at_k
    cases noDefault : p.defaultValue with
    | none =>
      obtain ⟨i, taken⟩ := complete k p at_p noDefault
      cases at_s.symm.trans taken
      rfl
    | some value => cases s <;> simp [argumentFor, defaultArg, noDefault]
  refine ⟨matched.filterMap Prod.snd, ?_, ?_, fun k p s at_p at_s => ?_⟩
  · rw [resolveArgs_eq]
    exact report_missing_eq present span c
  · rw [List.length_filterMap_eq_countP, List.countP_eq_length.mpr present, matched_eq, List.length_zipWith, lengths, min_self]
  · rw [filterMap_getElem? present, entry k at_p at_s, Option.bind_some]

theorem paired_of_aligned (clean : CleanCall params args) (aligned : ArgumentsAligned params args) :
    PairedAsChecked params args := by
  constructor
  · refine resolved_of_complete fun k p at_k noDefault => ?_
    rcases aligned.required k p at_k noDefault with ⟨label, given, labelled⟩ | ⟨taker, count⟩
    · rw [← labels_indexed, ← get_namedOf_isSome] at given
      obtain ⟨i, found⟩ := Option.isSome_iff_exists.mp given
      obtain ⟨⟨a, at_i, carries⟩, -⟩ := get_namedOf_indexed.mp found
      exact ⟨i, supplier_iff.mpr ⟨p, a, at_k, at_i, .inl ⟨label, labelled, carries, found⟩⟩⟩
    · rw [← length_positionalOf_indexed] at count
      obtain ⟨a, at_i, positional, count⟩ := positionalOf_indexed.mp (List.getElem?_eq_getElem count)
      exact ⟨_, supplier_iff.mpr ⟨p, a, at_k, at_i, .inr ⟨taker, positional, count⟩⟩⟩
  · intro i a at_i
    cases carries : a.label with
    | none =>
      obtain ⟨p, at_p, unlabelled⟩ := clean.positional i a at_i carries
      have inside : i < (valueParams params).length := (List.getElem?_eq_some_iff.mp at_p).1
      have taker : takesPositional (args.filterMap CallArg.label) p = true := by rw [takesPositional, unlabelled]
      have place := aligned.positionalInPlace i a at_i carries
      refine ⟨i, by rw [checkedPosition, carries]; exact if_pos inside, fun k => ⟨fun taken => ?_, ?_⟩⟩
      · obtain ⟨p', a', at_k, at_i', ⟨label, -, carries', -⟩ | ⟨taker', -, count⟩⟩ := supplier_iff.mp taken
        · cases at_i.symm.trans at_i'
          cases carries.symm.trans carries'
        · exact taker_place at_k at_p taker' taker (count.symm.trans place)
      · rintro rfl
        exact supplier_iff.mpr ⟨p, a, at_p, at_i, .inr ⟨taker, carries, place⟩⟩
    | some label =>
      have given := label_given at_i carries
      have found : (namedOf (indexed args)).get label = some i := get_namedOf_indexed.mpr
        ⟨⟨a, at_i, carries⟩, fun j b at_j carries' => (aligned.labelOnce j i b a label at_j at_i carries' carries).le⟩
      obtain ⟨k₀, p₀, at_k₀, labelled₀⟩ := clean.known i a label at_i carries
      obtain ⟨k, first⟩ : ∃ k, (valueParams params).findIdx? (fun p => p.label = some label) = some k := by
        refine Option.isSome_iff_exists.mp ?_
        rw [List.findIdx?_isSome, List.any_eq_true]
        exact ⟨p₀, List.mem_of_getElem? at_k₀, by simpa using labelled₀⟩
      obtain ⟨inside, labelled, -⟩ := List.findIdx?_eq_some_iff_getElem.mp first
      have at_k := List.getElem?_eq_getElem inside
      have labelled := of_decide_eq_true labelled
      refine ⟨k, by rw [checkedPosition, carries]; exact first, fun k' => ⟨fun taken => ?_, ?_⟩⟩
      · obtain ⟨p', a', at_k', at_i', ⟨label', labelled', carries', -⟩ | ⟨-, positional, -⟩⟩ := supplier_iff.mp taken
        · cases at_i.symm.trans at_i'
          cases carries.symm.trans carries'
          exact aligned.labelUnique label given k' k p' _ at_k' at_k labelled' labelled
        · cases at_i.symm.trans at_i'
          cases carries.symm.trans positional
      · rintro rfl
        exact supplier_iff.mpr ⟨_, a, at_k, at_i, .inl ⟨label, labelled, carries, found⟩⟩

end

/-- The types of the signatures below. -/
def writtenType : Option TypeRef → Ty
  | some (.named _ "Int" _ _) => .primitive .int
  | some (.named _ "String" _ _) => .primitive .str
  | _ => .unknown

def intParam (label : Option String) (name : String) : Param where
  span := noSpan
  label := label
  isSelf := false
  name := name
  typeAnn := some (.named noSpan "Int" [] none)
  defaultValue := none

def functionOf (params : List Param) : FunctionElement where
  name := "f"
  typeParameters := []
  typeParameterBounds := []
  parameters := buildParams .unknown writtenType params
  returnType := .primitive .unit
  isStatic := false

/-- `fn f(p: Int, r: String = '', named q: Int)`. -/
def defaultBeforeNamed : List Param :=
  [intParam none "p",
    { span := noSpan, label := none, isSelf := false, name := "r", typeAnn := some (.named noSpan "String" [] none),
      defaultValue := some (.str noSpan []) },
    intParam (some "q") "q"]

/-- `f(q: 1, 'x')`. -/
def labelFirst : List CallArg :=
  [.mk noSpan (some "q") (.int noSpan 1), .mk noSpan none (.str noSpan [.text noSpan "x"])]

end Thera.Soundness
