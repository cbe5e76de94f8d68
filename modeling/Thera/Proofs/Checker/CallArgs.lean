import Thera.Model.Checker.CallArgs
import Thera.Proofs.Compiler.Tables
import Thera.ToMathlib.Growing

/-! # Which argument each parameter takes

`resolveArgs` never looks into the argument expressions, so it can be followed with anything in their place:
with their indices it tells which argument each parameter takes. A parameter without a label takes positional
arguments, and so does a labelled one whose label is not given, if the label is its name; the others take the
argument of their label.
-/

namespace Thera.Checker

open Thera.Element
open Thera.Compiler hiding ImplDecl InterfaceDecl TypeDefElement

variable {V W : Type}

/-- The parameters a call gives values to. -/
def valueParams (params : List Param) : List Param := params.filter fun p => !p.isSelf

/-! ## Matching, with anything in place of the arguments -/

def positionalOf (args : List (Option String × V)) : List V :=
  args.filterMap fun (label, v) => if label.isNone then some v else none

def namedOf (args : List (Option String × V)) : Table String V :=
  args.foldl (fun named (label, v) => match label with
    | some label => Table.set named label v
    | none => named) []

/-- What a parameter takes, and the positional arguments it leaves. -/
def takeArg (named : Table String V) (p : Param) (positional : List V) : Option V × List V :=
  match p.label with
  | none => (positional.head?, positional.tail)
  | some label =>
      match named.get label with
      | some v => (some v, positional)
      | none => if label = p.name then (positional.head?, positional.tail) else (none, positional)

/-- What each parameter takes; `none` leaves it to its default. -/
def placeArgs (named : Table String V) : List Param → List V → List (Option V)
  | [], _ => []
  | p :: rest, positional => (takeArg named p positional).1 :: placeArgs named rest (takeArg named p positional).2

/-- A parameter's value: the argument it takes, or its default. -/
def argumentFor (declFile : Option String) (span : Span) (p : Param) : Option Expr → Option OrderedArg
  | some v => some ⟨v, .caller⟩
  | none => defaultArg p.defaultValue declFile span

theorem matchParams_eq_placeArgs (named : Table String Expr) (declFile : Option String) (span : Span)
    (params : List Param) (positional : List Expr) :
    matchParams named declFile span params positional =
      (valueParams params).zipWith (fun p v => (p, argumentFor declFile span p v))
        (placeArgs named (valueParams params) positional) := by
  induction params generalizing positional with
  | nil => rfl
  | cons p rest ih =>
    cases isSelf : p.isSelf with
    | true => simp [matchParams, valueParams, isSelf, ih]
    | false =>
      have keep : valueParams (p :: rest) = p :: valueParams rest := by simp [valueParams, isSelf]
      rw [keep, placeArgs, takeArg, matchParams.eq_def]
      simp only [isSelf, Bool.false_eq_true, if_false]
      cases p.label with
      | none => cases positional <;> simp [ih, argumentFor]
      | some label =>
        cases found : named.get label with
        | some v => simp [found, ih, argumentFor]
        | none =>
          cases positional with
          | nil => simp [found, ih, argumentFor]
          | cons v remaining =>
            simp only [found]
            split <;> simp [ih, argumentFor]

/-- A label stands for the last argument that carries it. -/
theorem get_namedOf_concat (args : List (Option String × V)) (arg : Option String × V) (label : String) :
    (namedOf (args ++ [arg])).get label = if arg.1 = some label then some arg.2 else (namedOf args).get label := by
  rw [namedOf, List.foldl_append, List.foldl_cons, List.foldl_nil, ← namedOf]
  obtain ⟨_ | l, v⟩ := arg
  · simp
  · simp [Table.get_set]

/-- The table of labels with other things in place of the arguments. -/
theorem get_namedOf_map (f : V → W) (args : List (Option String × V)) (label : String) :
    (namedOf (args.map fun (l, v) => (l, f v))).get label = ((namedOf args).get label).map f := by
  induction args using List.reverseRecOn with
  | nil => rfl
  | append_singleton args arg ih =>
    rw [List.map_append, List.map_singleton, get_namedOf_concat, get_namedOf_concat, ih]
    exact (apply_ite (Option.map f) (arg.1 = some label) (some arg.2) _).symm

theorem takeArg_map (f : V → W) {named : Table String V} {named' : Table String W}
    (same : ∀ label, named'.get label = (named.get label).map f) (p : Param) (positional : List V) :
    takeArg named' p (positional.map f) =
      ((takeArg named p positional).1.map f, (takeArg named p positional).2.map f) := by
  rw [takeArg, takeArg]
  cases p.label with
  | none => simp
  | some label =>
    simp only [same]
    cases named.get label with
    | some v => simp
    | none =>
      simp only [Option.map_none]
      split <;> simp

theorem length_placeArgs (named : Table String V) (params : List Param) (positional : List V) :
    (placeArgs named params positional).length = params.length := by
  induction params generalizing positional with
  | nil => rfl
  | cons p rest ih => rw [placeArgs, List.length_cons, ih, List.length_cons]

theorem placeArgs_map (f : V → W) {named : Table String V} {named' : Table String W}
    (same : ∀ label, named'.get label = (named.get label).map f) (params : List Param) (positional : List V) :
    placeArgs named' params (positional.map f) = (placeArgs named params positional).map (Option.map f) := by
  induction params generalizing positional with
  | nil => rfl
  | cons p rest ih => simp only [placeArgs, takeArg_map f same, ih, List.map_cons]

/-! ## Indices in place of the arguments -/

def indexed (args : List CallArg) : List (Option String × ℕ) := args.zipIdx.map fun (a, i) => (a.label, i)

/-- The index of the argument each parameter takes. -/
def suppliers (params : List Param) (args : List CallArg) : List (Option ℕ) :=
  placeArgs (namedOf (indexed args)) (valueParams params) (positionalOf (indexed args))

/-- The expression of an argument by its index. -/
def argumentAt (args : List CallArg) (i : ℕ) : Expr := (args[i]?.map CallArg.value).getD (.error noSpan)

theorem labelled_values (args : List CallArg) :
    args.map (fun a => (a.label, a.value)) = (indexed args).map fun (l, i) => (l, argumentAt args i) := by
  refine List.ext_getElem (by simp [indexed]) fun i inside _ => ?_
  rw [List.length_map] at inside
  simp [indexed, argumentAt, inside]

/-- What `resolveArgs` matches the parameters with: the arguments at the indices it takes them from, and defaults. -/
theorem matchParams_eq_suppliers (params : List Param) (args : List CallArg) (declFile : Option String) (span : Span) :
    matchParams (namedOf (args.map fun a => (a.label, a.value))) declFile span params
        (positionalOf (args.map fun a => (a.label, a.value))) =
      (valueParams params).zipWith (fun p s => (p, argumentFor declFile span p (s.map (argumentAt args))))
        (suppliers params args) := by
  have positional : positionalOf ((indexed args).map fun (l, i) => (l, argumentAt args i)) =
      (positionalOf (indexed args)).map (argumentAt args) := by
    rw [positionalOf, positionalOf, List.filterMap_map, List.map_filterMap]
    congr 1
    funext arg
    dsimp only [Function.comp]
    split <;> rfl
  rw [matchParams_eq_placeArgs, labelled_values, positional,
    placeArgs_map (argumentAt args) (get_namedOf_map (argumentAt args) (indexed args)), suppliers, List.zipWith_map_right]

theorem resolveArgs_eq (params : List Param) (args : List CallArg) (span : Span) (declFile : Option String) :
    resolveArgs params args span declFile = (do
      let matched := (valueParams params).zipWith (fun p s => (p, argumentFor declFile span p (s.map (argumentAt args))))
        (suppliers params args)
      matched.forM fun (p, arg) =>
        if arg.isNone then error ("missing argument for parameter `" ++ p.name ++ "`") span else pure ()
      return matched.filterMap Prod.snd) := by
  rw [← matchParams_eq_suppliers]
  have positional : positionalOf (args.map fun a => (a.label, a.value)) =
      args.filterMap fun a => if a.label.isNone then some a.value else none := by
    rw [positionalOf, List.filterMap_map]
    rfl
  have named : namedOf (args.map fun a => (a.label, a.value)) = args.foldl (fun named a => match a.label with
      | some label => Table.set named label a.value
      | none => named) [] := by
    rw [namedOf, List.foldl_map]
  rw [positional, named]
  rfl

/-- Nothing is reported, and nothing dropped, when every parameter has a value. -/
theorem report_missing_eq {matched : List (Param × Option OrderedArg)} (present : ∀ entry ∈ matched, entry.2.isSome = true)
    (span : Span) (c : FnCompiler) :
    (do
      matched.forM fun (p, arg) =>
        if arg.isNone then error ("missing argument for parameter `" ++ p.name ++ "`") span else pure ()
      return matched.filterMap Prod.snd : Emit (List OrderedArg)) c = some (matched.filterMap Prod.snd, c) := by
  have silent : (matched.forM fun (p, arg) =>
      if arg.isNone then error ("missing argument for parameter `" ++ p.name ++ "`") span else pure () : Emit Unit) = pure () := by
    induction matched with
    | nil => rfl
    | cons entry rest ih =>
      rw [List.forM, ih fun e member => present e (List.mem_cons_of_mem entry member)]
      have here := present entry List.mem_cons_self
      simp [Option.isNone_eq_false_iff.mpr here]
  rw [silent]
  rfl

theorem filterMap_getElem? {matched : List (Param × Option OrderedArg)}
    (present : ∀ entry ∈ matched, entry.2.isSome = true) (k : ℕ) :
    (matched.filterMap Prod.snd)[k]? = matched[k]?.bind Prod.snd := by
  induction matched generalizing k with
  | nil => rfl
  | cons entry rest ih =>
    obtain ⟨arg, here⟩ := Option.isSome_iff_exists.mp (present entry List.mem_cons_self)
    rw [List.filterMap_cons_some here]
    cases k with
    | zero => exact here.symm
    | succ k => exact ih (fun e member => present e (List.mem_cons_of_mem entry member)) k

/-! ## The taker of each argument -/

/-- Does the parameter take positional arguments, given the labels of the call? -/
def takesPositional (labels : List String) (p : Param) : Bool :=
  match p.label with
  | none => true
  | some label => label = p.name && decide (label ∉ labels)

theorem get_namedOf_isSome (args : List (Option String × V)) (label : String) :
    ((namedOf args).get label).isSome = true ↔ label ∈ args.filterMap Prod.fst := by
  induction args using List.reverseRecOn with
  | nil => simp [namedOf]
  | append_singleton args arg ih =>
    rw [get_namedOf_concat, List.filterMap_append, List.mem_append, ← ih]
    split <;> simp_all

theorem takeArg_eq (args : List (Option String × V)) (p : Param) (positional : List V) :
    takeArg (namedOf args) p positional =
      if takesPositional (args.filterMap Prod.fst) p then (positional.head?, positional.tail)
      else (p.label.bind (namedOf args).get, positional) := by
  rw [takeArg, takesPositional]
  cases p.label with
  | none => rfl
  | some label =>
    have given := get_namedOf_isSome args label
    cases found : (namedOf args).get label with
    | some v => simp_all
    | none =>
      have absent : label ∉ args.filterMap Prod.fst := by simp [← given, found]
      simp only [found, absent, not_false_eq_true, decide_true, Bool.and_true, decide_eq_true_eq, Option.bind_some]

/-- The parameter at a place takes the positional argument as many places on as takers stand before it, or the
argument of its label. -/
theorem placeArgs_getElem? (args : List (Option String × V)) (params : List Param) (positional : List V) (k : ℕ) :
    (placeArgs (namedOf args) params positional)[k]? = params[k]?.map fun p =>
      if takesPositional (args.filterMap Prod.fst) p then
        positional[(params.take k).countP (takesPositional (args.filterMap Prod.fst))]?
      else p.label.bind (namedOf args).get := by
  induction params generalizing positional k with
  | nil => rfl
  | cons p rest ih =>
    rw [placeArgs, takeArg_eq]
    cases k with
    | zero => split <;> simp_all [List.head?_eq_getElem?]
    | succ k =>
      rw [List.getElem?_cons_succ, ih, List.getElem?_cons_succ, List.take_succ_cons, List.countP_cons]
      split <;> simp_all

theorem indexed_concat (args : List CallArg) (arg : CallArg) :
    indexed (args ++ [arg]) = indexed args ++ [(arg.label, args.length)] := by
  simp [indexed, List.zipIdx_append]

theorem positionalOf_concat (args : List CallArg) (arg : CallArg) : positionalOf (indexed (args ++ [arg])) =
    positionalOf (indexed args) ++ if arg.label.isNone then [args.length] else [] := by
  rw [indexed_concat, positionalOf, List.filterMap_append, ← positionalOf]
  cases arg.label <;> rfl

theorem length_positionalOf_indexed (args : List CallArg) :
    (positionalOf (indexed args)).length = args.countP fun a => a.label.isNone := by
  induction args using List.reverseRecOn with
  | nil => rfl
  | append_singleton args arg ih =>
    rw [positionalOf_concat, List.length_append, ih, List.countP_append, List.countP_singleton]
    split <;> rfl

/-- The `m`-th positional argument is the one with `m` positional arguments before it. -/
theorem positionalOf_indexed {args : List CallArg} {m i : ℕ} :
    (positionalOf (indexed args))[m]? = some i ↔
      ∃ a, args[i]? = some a ∧ a.label = none ∧ (args.take i).countP (fun a => a.label.isNone) = m := by
  induction args using List.reverseRecOn with
  | nil => simp [positionalOf, indexed]
  | append_singleton args arg ih =>
    have old : (positionalOf (indexed args))[m]? = some i ↔ ∃ a, args[i]? = some a ∧ a.label = none ∧
        ((args ++ [arg]).take i).countP (fun a => a.label.isNone) = m := by
      refine ih.trans (exists_congr fun a => and_congr_right fun there => ?_)
      rw [List.take_append_of_le_length (List.getElem?_eq_some_iff.mp there).1.le]
    simp only [positionalOf_concat, List.getElem?_concat_iff, or_and_right, exists_or]
    cases label : arg.label with
    | some l => simpa [label] using old
    | none =>
      simp only [Option.isNone_none, if_true]
      rw [List.getElem?_concat_iff, old, length_positionalOf_indexed]
      refine or_congr_right ⟨?_, ?_⟩
      · rintro ⟨rfl, rfl⟩
        exact ⟨arg, ⟨rfl, rfl⟩, label, by simp⟩
      · rintro ⟨a, ⟨rfl, rfl⟩, -, count⟩
        exact ⟨by simpa using count.symm, rfl⟩

/-- An argument is found by its label if it is the last to carry it. -/
theorem get_namedOf_indexed {args : List CallArg} {label : String} {i : ℕ} :
    (namedOf (indexed args)).get label = some i ↔
      (∃ a, args[i]? = some a ∧ a.label = some label) ∧ ∀ j a, args[j]? = some a → a.label = some label → j ≤ i := by
  induction args using List.reverseRecOn with
  | nil => simp [namedOf, indexed]
  | append_singleton args arg ih =>
    rw [indexed_concat, get_namedOf_concat]
    simp only [List.getElem?_concat_iff]
    have bound {j : ℕ} {a : CallArg} (there : args[j]? = some a) : j < args.length := (List.getElem?_eq_some_iff.mp there).1
    split
    next here =>
      constructor
      · rintro ⟨⟩
        refine ⟨⟨arg, .inr ⟨rfl, rfl⟩, here⟩, ?_⟩
        rintro j a (there | ⟨rfl, rfl⟩) _
        · exact (bound there).le
        · exact le_rfl
      · rintro ⟨⟨a, there | ⟨rfl, rfl⟩, _⟩, latest⟩
        · exact absurd (latest args.length arg (.inr ⟨rfl, rfl⟩) here) (not_le.mpr (bound there))
        · rfl
    next here =>
      rw [ih]
      constructor
      · rintro ⟨⟨a, there, carries⟩, latest⟩
        refine ⟨⟨a, .inl there, carries⟩, ?_⟩
        rintro j b (before | ⟨rfl, rfl⟩) label'
        · exact latest j b before label'
        · exact absurd label' here
      · rintro ⟨⟨a, there | ⟨rfl, rfl⟩, carries⟩, latest⟩
        · exact ⟨⟨a, there, carries⟩, fun j b before => latest j b (.inl before)⟩
        · exact absurd carries here

theorem labels_indexed (args : List CallArg) : (indexed args).filterMap Prod.fst = args.filterMap CallArg.label := by
  rw [indexed, List.filterMap_map]
  conv_rhs => rw [show args = args.zipIdx.map Prod.fst by simp, List.filterMap_map]
  rfl

/-- Which argument a parameter takes. -/
theorem suppliers_getElem? (params : List Param) (args : List CallArg) (k : ℕ) :
    (suppliers params args)[k]? = (valueParams params)[k]?.map fun p =>
      if takesPositional (args.filterMap CallArg.label) p then
        (positionalOf (indexed args))[((valueParams params).take k).countP (takesPositional (args.filterMap CallArg.label))]?
      else p.label.bind (namedOf (indexed args)).get := by
  rw [suppliers, placeArgs_getElem?, labels_indexed]

end Thera.Checker
