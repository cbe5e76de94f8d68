import Thera.Proofs.Sdk.Path

/-! # Paths

Normal forms of paths, relative paths between them, and splitting off the last component.
-/

namespace Thera.Sdk.Path

/-! ## Normalising -/

theorem stackOf_normalize (path : Text) : stackOf (normalize path) = stackOf path := by
  rw [normalize_eq]
  exact stackOf_render (stackOf_normal path)

theorem isAbsolute_normalize (path : Text) : isAbsolute (normalize path) = isAbsolute path := by
  rw [normalize_eq]
  exact isAbsolute_render (stackOf_normal path)

theorem normalize_normalize (path : Text) : normalize (normalize path) = normalize path := by
  rw [normalize_eq (normalize path), isAbsolute_normalize, stackOf_normalize, normalize_eq]

theorem pathParts_normalize (path : Text) : pathParts (normalize path) = stackOf path := by
  rw [normalize_eq]
  exact pathParts_render (stackOf_normal path)

/-- The lone `.`, or steps up, from no root, and names behind them; no component is empty, is `.`, or is `..` behind a name. -/
def Clean (isAbs : Bool) (path : Text) : Prop :=
  path = dot ∨ ∃ up names, Normal isAbs up names ∧ (isAbs = true ∨ List.replicate up dotdot ++ names ≠ []) ∧
    path = (if isAbs then ['/'] else []) ++ joinParts '/' (List.replicate up dotdot ++ names)

theorem normalize_clean (path : Text) : Clean (isAbsolute path) (normalize path) := by
  obtain ⟨up, names, stack, normal⟩ := stackOf_normal path
  rw [normalize_eq, render, stack]
  cases abs : isAbsolute path with
  | true =>
    rw [abs] at normal
    exact .inr ⟨up, names, normal, .inl rfl, rfl⟩
  | false =>
    rw [abs] at normal
    rw [if_neg Bool.false_ne_true]
    split
    · exact .inl rfl
    · rename_i nonempty
      exact .inr ⟨up, names, normal, .inr (by rintro empty; rw [empty] at nonempty; exact nonempty rfl), rfl⟩

/-! ## Relative paths -/

theorem sharedLength_spec (bs ts : List Text) :
    ∃ shared bs' ts', bs = shared ++ bs' ∧ ts = shared ++ ts' ∧ sharedLength bs ts = shared.length ∧
      ∀ part, bs'.head? = some part → ts'.head? ≠ some part := by
  induction bs generalizing ts with
  | nil => exact ⟨[], [], ts, rfl, rfl, by cases ts <;> rfl, by simp⟩
  | cons b bs ih =>
    cases ts with
    | nil => exact ⟨[], b :: bs, [], rfl, rfl, rfl, by simp⟩
    | cons t ts =>
      by_cases same : b = t
      · subst same
        obtain ⟨shared, bs', ts', rfl, rfl, length, apart⟩ := ih ts
        exact ⟨b :: shared, bs', ts', rfl, rfl, by rw [sharedLength, if_pos rfl, length]; rfl, apart⟩
      · refine ⟨[], b :: bs, t :: ts, rfl, rfl, by rw [sharedLength, if_neg same]; rfl, ?_⟩
        rintro part first second
        exact same ((Option.some.inj first).trans (Option.some.inj second).symm)

/-- In a normal stack, names stand behind a component that is no step up. -/
theorem IsNormal.names_of_head {isAbs : Bool} {shared rest : List Text} (normal : IsNormal isAbs (shared ++ rest))
    (named : rest.head? ≠ some dotdot) : ∀ name ∈ rest, Name name := by
  obtain ⟨up, names, split, all, -⟩ := normal
  obtain ⟨inner, rfl, rfl⟩ | ⟨inner, climbs, rfl⟩ := List.append_eq_append_iff.mp split.symm
  · exact fun name member => all name (List.mem_append_right _ member)
  · cases inner with
    | nil => exact all
    | cons step inner =>
      have back : step = dotdot := (List.eq_replicate_iff.mp climbs.symm).2 step (by simp)
      exact absurd (by rw [back]; rfl) named

/-- What relates two places: the shared components, those to climb out of, and those to go down to. -/
theorem resolve_relative {isAbs : Bool} {shared bs ts : List Text} (normal : IsNormal isAbs (shared ++ bs))
    (normal' : IsNormal isAbs (shared ++ ts)) (named : bs.head? ≠ some dotdot) :
    resolve isAbs (shared ++ bs) (List.replicate bs.length dotdot ++ ts) = shared ++ ts := by
  rw [resolve_append, resolve_climb (normal.names_of_head named), resolve_normal normal']

/-- The components that lead from one place to another. -/
def steps (bs ts : List Text) : List Text := List.replicate bs.length dotdot ++ ts

/-- What `relative` answers for two places that are both absolute or both relative. -/
inductive Relates (source target : Text) : Except Text Text → Prop
  | climbs {shared bs ts : List Text} (from_split : stackOf source = shared ++ bs) (to_split : stackOf target = shared ++ ts)
      (apart : ts.head? ≠ some dotdot) (stuck : bs.head? = some dotdot) (e : Text) : Relates source target (.error e)
  | leads {shared bs ts : List Text} (from_split : stackOf source = shared ++ bs) (to_split : stackOf target = shared ++ ts)
      (free : bs.head? ≠ some dotdot) :
      Relates source target (.ok (if steps bs ts = [] then dot else joinParts '/' (steps bs ts)))

theorem relative_relates {source target : Text} (same : isAbsolute source = isAbsolute target) :
    Relates source target (relative source target) := by
  rw [relative]
  by_cases equal : normalize source = normalize target
  · have same_stack : stackOf source = stackOf target := by rw [← stackOf_normalize source, equal, stackOf_normalize]
    rw [if_pos equal]
    exact @Relates.leads source target (stackOf source) [] [] (List.append_nil _).symm
      (same_stack.symm.trans (List.append_nil _).symm) (by simp)
  · have both : ¬ isAbsolute (normalize source) ≠ isAbsolute (normalize target) := by
      rw [isAbsolute_normalize, isAbsolute_normalize]
      exact not_not.mpr same
    rw [if_neg equal, if_neg both, pathParts_normalize, pathParts_normalize]
    obtain ⟨shared, bs, ts, from_split, to_split, length, apart⟩ := sharedLength_spec (stackOf source) (stackOf target)
    have next : (stackOf source)[shared.length]? = bs.head? := by
      rw [from_split, List.getElem?_append_right (le_refl _), Nat.sub_self, List.head?_eq_getElem?]
    have rest : (stackOf target).drop shared.length = ts := by rw [to_split, List.drop_left]
    have left : (stackOf source).length - shared.length = bs.length := by rw [from_split, List.length_append, Nat.add_sub_cancel_left]
    simp only [length, next, rest, left]
    split
    · rename_i stuck
      exact .climbs from_split to_split (apart _ stuck) stuck _
    · rename_i free
      rw [← apply_ite Except.ok]
      exact .leads from_split to_split free

theorem stuck_of_error {source target e : Text} (run : relative source target = .error e) :
    isAbsolute source ≠ isAbsolute target ∨ ∃ shared bs ts, stackOf source = shared ++ dotdot :: bs ∧ stackOf target = shared ++ ts ∧
      ts.head? ≠ some dotdot := by
  by_cases same : isAbsolute source = isAbsolute target
  · have relates := relative_relates same
    rw [run] at relates
    cases relates with
    | climbs from_split to_split apart stuck =>
      obtain ⟨bs, rfl⟩ := List.head?_eq_some_iff.mp stuck
      exact .inr ⟨_, bs, _, from_split, to_split, apart⟩
  · exact .inl same

theorem pieces_steps {bs ts : List Text} (plain : ∀ part ∈ ts, part ≠ [] ∧ part ≠ dot ∧ '/' ∉ part) :
    isAbsolute (if steps bs ts = [] then dot else joinParts '/' (steps bs ts)) = false ∧
      ∀ isAbs stack, resolve isAbs stack (pieces (if steps bs ts = [] then dot else joinParts '/' (steps bs ts))) =
        resolve isAbs stack (steps bs ts) := by
  have all : ∀ part ∈ steps bs ts, part ≠ [] ∧ '/' ∉ part := by
    intro part member
    obtain climbs | later := List.mem_append.mp member
    · rw [List.eq_of_mem_replicate climbs]
      decide
    · exact ⟨(plain part later).1, (plain part later).2.2⟩
  split
  · rename_i nothing
    rw [nothing]
    exact ⟨rfl, fun isAbs stack => rfl⟩
  · rename_i nonempty
    obtain ⟨c, rest, starts, other⟩ := joinParts_head all nonempty
    refine ⟨?_, fun isAbs stack => ?_⟩
    · rw [starts]
      exact decide_eq_false fun same => other (Option.some.inj same)
    · rw [pieces_joinParts (fun part member => (all part member).2) nonempty]

theorem relative_sound {source target r : Text} (run : relative source target = .ok r) :
    normalize (join source r) = normalize target := by
  by_cases same : isAbsolute source = isAbsolute target
  · have relates := relative_relates same
    have normal := stackOf_normal source
    have normal' := stackOf_normal target
    rw [run] at relates
    cases relates with
    | @leads shared bs ts from_split to_split free =>
      rw [from_split] at normal
      rw [to_split, ← same] at normal'
      obtain ⟨relative, reads⟩ := @pieces_steps bs ts fun part member => normal'.part (List.mem_append_right _ member)
      rw [normalize_join relative, reads, from_split, steps, resolve_relative normal normal' free, same, ← to_split, ← normalize_eq]
  · rw [relative, if_neg (by intro equal; exact same (by rw [← isAbsolute_normalize, equal, isAbsolute_normalize])),
      if_pos (by rw [isAbsolute_normalize, isAbsolute_normalize]; exact same)] at run
    cases run

/-- Normalising is idempotent and leaves a clean path; a relative path leads from its source to its target, and there is none only
between an absolute and a relative path or out of a directory above the shared ones. -/
theorem normalize_and_relative :
    (∀ p, normalize (normalize p) = normalize p ∧ Clean (isAbsolute p) (normalize p)) ∧
      ∀ source target,
        (∀ r, relative source target = .ok r → normalize (join source r) = normalize target) ∧
        ∀ e, relative source target = .error e →
          isAbsolute source ≠ isAbsolute target ∨
            ∃ shared bs ts, pathParts (normalize source) = shared ++ dotdot :: bs ∧ pathParts (normalize target) = shared ++ ts ∧
              ts.head? ≠ some dotdot := by
  refine ⟨fun p => ⟨normalize_normalize p, normalize_clean p⟩, fun source target => ⟨fun r run => relative_sound run, fun e run => ?_⟩⟩
  rw [pathParts_normalize, pathParts_normalize]
  exact stuck_of_error run

/-! ## The last component -/

theorem isAbsolute_of_pieces {path first : Text} {others : List Text} (nonempty : path ≠ []) (split : pieces path = first :: others) :
    isAbsolute path = decide (first = []) := by
  obtain ⟨c, path, rfl⟩ := List.exists_cons_of_ne_nil nonempty
  by_cases slash : c = '/'
  · subst slash
    have root : pieces ('/' :: path) = [] :: pieces path := pieces_append [] path
    rw [root] at split
    rw [← (List.cons.inj split).1]
    rfl
  · have whole := @List.intercalate_splitOn Char (c :: path) _ _ '/'
    have filled : first ≠ [] := by
      rintro rfl
      rw [show (c :: path).splitOn '/' = [] :: others from split] at whole
      cases others with
      | nil =>
        rw [List.intercalate_singleton] at whole
        cases whole
      | cons second others =>
        rw [List.intercalate_cons_cons] at whole
        exact slash (List.cons.inj whole).1.symm
    rw [decide_eq_false filled]
    exact decide_eq_false fun same => slash (Option.some.inj same)

theorem normalize_of_components (path : Text) : normalize path = render (isAbsolute path) (resolve (isAbsolute path) [] (components path)) := by
  rw [normalize_eq, stackOf, resolve_components]

/-- The directory of a path with more than one component. -/
theorem directory_spec {first : Text} {init : List Text} (plain : ∀ part ∈ first :: init, '/' ∉ part) :
    isAbsolute (if first :: init = [[]] then ['/'] else joinParts '/' (first :: init)) = decide (first = []) ∧
      stackOf (if first :: init = [[]] then ['/'] else joinParts '/' (first :: init)) = resolve (decide (first = [])) [] (first :: init) := by
  split
  · rename_i root
    obtain ⟨rfl, rfl⟩ := List.cons.inj root
    exact ⟨rfl, rfl⟩
  · rename_i other
    have split := pieces_joinParts plain (List.cons_ne_nil first init)
    have nonempty : joinParts '/' (first :: init) ≠ [] := by
      intro empty
      rw [empty] at split
      exact other split.symm
    have abs := isAbsolute_of_pieces nonempty split
    exact ⟨abs, by rw [stackOf, abs, split]⟩

section

variable {p first : Text} {names : List Text}

theorem split_single (parts : components p = [first]) :
    dirname p = (if first = [] then ['/'] else dot) ∧ basename p = if first = [] then ['/'] else first := by
  have only : ([first] = [[]]) ↔ first = [] := by simp
  constructor
  · simp only [dirname, parts, List.length_singleton, le_refl, if_true, only]
  · rw [basename, parts]
    rfl

theorem split_concat {last : Text} (parts : components p = first :: (names ++ [last])) (filled : last ≠ []) :
    dirname p = (if first :: names = [[]] then ['/'] else joinParts '/' (first :: names)) ∧ basename p = last := by
  have long : ¬ (components p).length ≤ 1 := by
    rw [parts, List.length_cons, List.length_append, List.length_singleton]
    omega
  have front : (components p).dropLast = first :: names := by rw [parts, ← List.cons_append, List.dropLast_concat]
  have back : (components p).getLast? = some last := by rw [parts, ← List.cons_append, List.getLast?_concat]
  constructor
  · rw [dirname, if_neg long, front]
  · rw [basename, back]
    exact if_neg filled

end

/-- The components of a path: the first, and names behind it. -/
theorem components_spec (p : Text) : ∃ first names, components p = first :: names ∧ (∀ part ∈ first :: names, '/' ∉ part) ∧
    (∀ name ∈ names, name ≠ []) ∧ (p ≠ [] → isAbsolute p = decide (first = [])) := by
  obtain ⟨first, others, split⟩ := List.exists_cons_of_ne_nil (List.splitOn_ne_nil '/' p)
  have plain : ∀ part ∈ first :: others, '/' ∉ part := by
    intro part member
    rw [← split] at member
    exact slash_not_mem_pieces member
  refine ⟨first, others.filter (· ≠ []), components_cons split, ?_, ?_, fun nonempty => isAbsolute_of_pieces nonempty split⟩
  · intro part member
    obtain rfl | later := List.mem_cons.mp member
    · exact plain part List.mem_cons_self
    · exact plain part (List.mem_cons_of_mem _ (List.mem_filter.mp later).1)
  · intro name member
    exact of_decide_eq_true (List.mem_filter.mp member).2

theorem not_absolute {name : Text} (plain : '/' ∉ name) : isAbsolute name = false := by
  apply decide_eq_false
  intro slash
  exact plain (List.mem_of_mem_head? slash)

theorem rejoin {p : Text} (nonempty : p ≠ []) :
    normalize (join (dirname p) (basename p)) = normalize p ∧ isAbsolute (dirname p) = isAbsolute p := by
  obtain ⟨first, names, parts, plain, filled, absolute⟩ := components_spec p
  rw [normalize_of_components p, absolute nonempty, parts]
  obtain rfl | ⟨init, last, rfl⟩ := List.eq_nil_or_concat names
  · obtain ⟨dir, base⟩ := split_single parts
    rw [dir, base]
    by_cases root : first = []
    · subst root
      exact ⟨rfl, rfl⟩
    · have no_slash := plain first List.mem_cons_self
      rw [if_neg root, if_neg root, decide_eq_false root, normalize_join (not_absolute no_slash), pieces_of_not_mem no_slash]
      exact ⟨rfl, rfl⟩
  · rw [List.concat_eq_append] at parts plain filled ⊢
    obtain ⟨dir, base⟩ := split_concat parts (filled last (by simp))
    have no_slash := plain last (by simp)
    obtain ⟨abs, stack⟩ := @directory_spec first init fun part member => plain part (by
      rw [← List.cons_append]
      exact List.mem_append_left _ member)
    rw [dir, base, normalize_join (not_absolute no_slash), abs, stack, pieces_of_not_mem no_slash, ← resolve_append, List.cons_append]
    exact ⟨rfl, rfl⟩

theorem basename_spec (p : Text) : basename p = ['/'] ∨ basename p ≠ [] ∧ '/' ∉ basename p := by
  obtain ⟨first, names, parts, plain, filled, -⟩ := components_spec p
  obtain rfl | ⟨init, last, rfl⟩ := List.eq_nil_or_concat names
  · rw [(split_single parts).2]
    split
    · exact .inl rfl
    · rename_i filled
      exact .inr ⟨filled, plain first List.mem_cons_self⟩
  · rw [List.concat_eq_append] at parts plain filled
    rw [(split_concat parts (filled last (by simp))).2]
    exact .inr ⟨filled last (by simp), plain last (by simp)⟩

theorem basename_basename (p : Text) : basename (basename p) = basename p := by
  obtain root | ⟨nonempty, plain⟩ := basename_spec p
  · rw [root]
    decide
  · have single : components (basename p) = [basename p] := components_cons (pieces_of_not_mem plain)
    generalize basename p = name at *
    rw [basename, single]
    exact if_neg nonempty

theorem joinParts_concat {sep : Char} {parts : List Text} {last : Text} (nonempty : parts ≠ []) :
    joinParts sep (parts ++ [last]) = joinParts sep parts ++ sep :: last := by
  unfold joinParts
  induction parts with
  | nil => exact absurd rfl nonempty
  | cons part parts ih =>
    cases parts with
    | nil => rw [List.singleton_append, List.intercalate_cons_cons, List.intercalate_singleton, List.intercalate_singleton]; simp
    | cons second parts =>
      rw [List.cons_append, List.cons_append, List.intercalate_cons_cons, List.intercalate_cons_cons, ← List.cons_append,
        ih (List.cons_ne_nil _ _), List.append_assoc, List.append_assoc, List.append_assoc]

theorem stem_append_extension (p : Text) : stem p ++ extension p = basename p := by
  have same : extension (basename p) = extension p := by rw [extension, basename_basename, extension]
  rw [stem, same]
  split
  · rename_i none
    rw [none, List.append_nil]
  · rename_i some
    have whole : joinParts '.' ((basename p).splitOn '.') = basename p := List.intercalate_splitOn '.'
    rw [extension] at some ⊢
    generalize (basename p).splitOn '.' = parts at some whole ⊢
    by_cases short : parts.length < 2
    · exact absurd (if_pos short) some
    rw [if_neg short] at some ⊢
    by_cases hidden : parts.length = 2 ∧ parts.head? = Option.some []
    · exact absurd (if_pos hidden) some
    rw [if_neg hidden]
    obtain rfl | ⟨init, last, rfl⟩ := List.eq_nil_or_concat parts
    · exact absurd Nat.zero_lt_two short
    · rw [List.concat_eq_append] at whole short ⊢
      have nonempty : init ≠ [] := by
        rintro rfl
        exact short Nat.one_lt_two
      rw [List.dropLast_concat, List.getLastD_concat, ← whole, joinParts_concat nonempty]

/-- Splitting off the last component and joining it again names the same place, for every path but the empty one. -/
theorem split_and_rejoin_iff (p : Text) :
    (normalize (join (dirname p) (basename p)) = normalize p ∧ isAbsolute (dirname p) = isAbsolute p ∧
      stem p ++ extension p = basename p) ↔ p ≠ [] := by
  constructor
  · rintro ⟨-, same, -⟩ rfl
    exact absurd same (by decide)
  · intro nonempty
    obtain ⟨place, absolute⟩ := rejoin nonempty
    exact ⟨place, absolute, stem_append_extension p⟩

theorem empty_path_becomes_root :
    normalize (join (dirname []) (basename [])) = ['/'] ∧ normalize [] = dot ∧ isAbsolute (dirname []) = true ∧ isAbsolute [] = false := by
  decide

end Thera.Sdk.Path
