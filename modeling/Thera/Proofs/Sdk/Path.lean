import Thera.Model.Sdk.Path

/-! # Components and their stack

Normalising folds the components over a stack. Empty components do nothing there, so the fold can be read over the plain pieces
between slashes; and it leaves what is already normal as it is.
-/

namespace Thera.Sdk.Path

/-! ## Pieces -/

/-- What stands between slashes. -/
def pieces (path : Text) : List Text := path.splitOn '/'

theorem slash_not_mem_pieces {path piece : Text} (member : piece ∈ pieces path) : '/' ∉ piece := by
  induction path generalizing piece with
  | nil =>
    rw [pieces, List.splitOn_nil, List.mem_singleton] at member
    rw [member]
    exact List.not_mem_nil
  | cons c path ih =>
    rw [pieces, List.splitOn, List.splitOnP_cons_eq_if_modifyHead] at member
    split at member
    · obtain rfl | later := List.mem_cons.mp member
      · exact List.not_mem_nil
      · exact ih later
    · rename_i other
      have other : '/' ≠ c := fun same => other (beq_iff_eq.mpr same.symm)
      change piece ∈ List.modifyHead (List.cons c) (pieces path) at member
      cases split : pieces path with
      | nil => simp [split] at member
      | cons first others =>
        rw [split, List.modifyHead_cons, List.mem_cons] at member
        obtain rfl | later := member
        · rw [List.mem_cons, not_or]
          exact ⟨other, ih (by rw [split]; exact List.mem_cons_self)⟩
        · exact ih (by rw [split]; exact List.mem_cons_of_mem _ later)

theorem pieces_append (path rest : Text) : pieces (path ++ '/' :: rest) = pieces path ++ pieces rest :=
  List.splitOnP_append_cons path rest rfl

theorem pieces_of_not_mem {name : Text} (plain : '/' ∉ name) : pieces name = [name] := by
  have split := @List.splitOn_intercalate Char [name] _ _ '/' (by simpa using plain) (List.cons_ne_nil _ _)
  rwa [List.intercalate_singleton] at split

theorem pieces_joinParts {parts : List Text} (plain : ∀ part ∈ parts, '/' ∉ part) (nonempty : parts ≠ []) :
    pieces (joinParts '/' parts) = parts :=
  List.splitOn_intercalate '/' plain nonempty

/-- The stack behind some components. -/
def resolve (isAbs : Bool) (stack parts : List Text) : List Text := parts.foldl (normalizeStep isAbs) stack

variable {isAbs : Bool} {stack parts : List Text}

theorem resolve_append (parts' : List Text) : resolve isAbs stack (parts ++ parts') = resolve isAbs (resolve isAbs stack parts) parts' :=
  List.foldl_append

theorem resolve_filter : resolve isAbs stack (parts.filter (· ≠ [])) = resolve isAbs stack parts := by
  induction parts generalizing stack with
  | nil => rfl
  | cons part parts ih =>
    by_cases empty : part = []
    · subst empty
      rw [List.filter_cons_of_neg (by decide), ih]
      rfl
    · have kept : decide (part ≠ []) = true := decide_eq_true empty
      rw [List.filter_cons, if_pos kept]
      exact ih

theorem components_cons {path first : Text} {others : List Text} (split : pieces path = first :: others) :
    components path = first :: others.filter (· ≠ []) := by
  rw [components, show path.splitOn '/' = first :: others from split]

theorem resolve_components (path : Text) : resolve isAbs stack (components path) = resolve isAbs stack (pieces path) := by
  unfold components pieces
  split
  · rename_i none
    rw [none]
  · rename_i first others split
    rw [split]
    exact resolve_filter

/-! ## Normal stacks -/

/-- A component that names something. -/
structure Name (part : Text) : Prop where
  nonempty : part ≠ []
  not_dot : part ≠ dot
  not_dotdot : part ≠ dotdot
  plain : '/' ∉ part

/-- Steps up, none of them from the root, and then names. -/
structure Normal (isAbs : Bool) (up : ℕ) (names : List Text) : Prop where
  names : ∀ name ∈ names, Name name
  rooted : isAbs = true → up = 0

def IsNormal (isAbs : Bool) (stack : List Text) : Prop := ∃ up names, stack = List.replicate up dotdot ++ names ∧ Normal isAbs up names

theorem normal_nil : IsNormal isAbs [] := ⟨0, [], rfl, fun _ member => absurd member List.not_mem_nil, fun _ => rfl⟩

theorem step_name {name : Text} (named : Name name) : normalizeStep isAbs stack name = stack ++ [name] := by
  rw [normalizeStep, if_neg (by rintro (empty | isDot); exacts [named.nonempty empty, named.not_dot isDot]), if_neg named.not_dotdot]

theorem step_dotdot : normalizeStep isAbs stack dotdot =
    if stack ≠ [] ∧ stack.getLast? ≠ some dotdot then stack.dropLast else if isAbs then stack else stack ++ [dotdot] := by
  rw [normalizeStep, if_neg (by decide), if_pos rfl]

theorem dotdot_pops {name : Text} (named : Name name) : normalizeStep isAbs (stack ++ [name]) dotdot = stack := by
  have top : stack ++ [name] ≠ [] ∧ (stack ++ [name]).getLast? ≠ some dotdot := by
    refine ⟨by simp, ?_⟩
    rw [List.getLast?_concat]
    exact fun same => named.not_dotdot (Option.some.inj same)
  rw [step_dotdot, if_pos top, List.dropLast_concat]

theorem dotdot_stays (up : ℕ) : normalizeStep false (List.replicate up dotdot) dotdot = List.replicate (up + 1) dotdot := by
  have blocked : ¬ (List.replicate up dotdot ≠ [] ∧ (List.replicate up dotdot).getLast? ≠ some dotdot) := by
    cases up with
    | zero => exact fun both => both.1 rfl
    | succ up => exact fun both => both.2 (by rw [List.replicate_succ', List.getLast?_concat])
  rw [step_dotdot, if_neg blocked, if_neg Bool.false_ne_true, List.replicate_succ']

theorem IsNormal.step {part : Text} (normal : IsNormal isAbs stack) (plain : '/' ∉ part) : IsNormal isAbs (normalizeStep isAbs stack part) := by
  obtain ⟨up, names, rfl, named, rooted⟩ := normal
  by_cases skipped : part = [] ∨ part = dot
  · rw [normalizeStep, if_pos skipped]
    exact ⟨up, names, rfl, named, rooted⟩
  by_cases back : part = dotdot
  · subst back
    obtain rfl | ⟨others, last, rfl⟩ := List.eq_nil_or_concat names
    · rw [List.append_nil]
      cases isAbs with
      | true =>
        obtain rfl := rooted rfl
        exact normal_nil
      | false =>
        rw [dotdot_stays]
        exact ⟨up + 1, [], (List.append_nil _).symm, named, fun no => absurd no Bool.false_ne_true⟩
    · rw [List.concat_eq_append, ← List.append_assoc, dotdot_pops (named last (by simp))]
      exact ⟨up, others, rfl, fun name member => named name (by simp [member]), rooted⟩
  · have name : Name part := ⟨fun empty => skipped (.inl empty), fun isDot => skipped (.inr isDot), back, plain⟩
    rw [step_name name, List.append_assoc]
    refine ⟨up, names ++ [part], rfl, ?_, rooted⟩
    intro other member
    obtain earlier | last := List.mem_append.mp member
    · exact named other earlier
    · rw [List.mem_singleton.mp last]
      exact name

theorem IsNormal.resolve (normal : IsNormal isAbs stack) (plain : ∀ part ∈ parts, '/' ∉ part) : IsNormal isAbs (resolve isAbs stack parts) := by
  induction parts generalizing stack with
  | nil => exact normal
  | cons part parts ih =>
    exact ih (normal.step (plain part List.mem_cons_self)) fun other member => plain other (List.mem_cons_of_mem _ member)

theorem step_normal {part : Text} (normal : IsNormal isAbs (stack ++ part :: parts)) : normalizeStep isAbs stack part = stack ++ [part] := by
  obtain ⟨up, names, split, named, rooted⟩ := normal
  obtain ⟨inner, rfl, rfl⟩ | ⟨inner, climbs, rest⟩ := List.append_eq_append_iff.mp split.symm
  · exact step_name (named part (by simp))
  · cases inner with
    | nil => exact step_name (named part (by rw [← show part :: parts = names from rest]; exact List.mem_cons_self))
    | cons step inner =>
      obtain ⟨rfl, -⟩ := List.cons.inj rest
      have all := List.eq_replicate_iff.mp climbs.symm
      have back : part = dotdot := all.2 part (by simp)
      have below : stack = List.replicate stack.length dotdot :=
        List.eq_replicate_iff.mpr ⟨rfl, fun part member => all.2 part (List.mem_append_left _ member)⟩
      have relative : isAbs = false := by
        cases isAbs with
        | false => rfl
        | true =>
          have length := all.1
          rw [rooted rfl, List.length_append, List.length_cons] at length
          omega
      rw [back, relative, below, dotdot_stays, List.replicate_succ']

/-- Components that keep a stack normal are pushed as they are. -/
theorem resolve_normal (normal : IsNormal isAbs (stack ++ parts)) : Path.resolve isAbs stack parts = stack ++ parts := by
  induction parts generalizing stack with
  | nil => exact (List.append_nil stack).symm
  | cons part parts ih =>
    show Path.resolve isAbs (normalizeStep isAbs stack part) parts = _
    rw [step_normal normal, ih (by rwa [List.append_assoc]), List.append_assoc]
    rfl

/-- As many steps up as there are names on top take them off. -/
theorem resolve_climb {names : List Text} (named : ∀ name ∈ names, Name name) :
    Path.resolve isAbs (stack ++ names) (List.replicate names.length dotdot) = stack := by
  induction names using List.reverseRecOn with
  | nil => rw [List.append_nil]; rfl
  | append_singleton names name ih =>
    rw [List.length_append, List.length_singleton, List.replicate_succ, ← List.append_assoc]
    show Path.resolve isAbs (normalizeStep isAbs (stack ++ names ++ [name]) dotdot) (List.replicate names.length dotdot) = stack
    rw [dotdot_pops (named name (by simp))]
    exact ih fun other member => named other (by simp [member])

/-! ## Writing a stack -/

/-- The path of a stack. -/
def render (isAbs : Bool) (stack : List Text) : Text :=
  if isAbs then '/' :: joinParts '/' stack else if joinParts '/' stack = [] then dot else joinParts '/' stack

/-- The stack of a path. -/
def stackOf (path : Text) : List Text := resolve (isAbsolute path) [] (pieces path)

theorem normalize_eq (path : Text) : normalize path = render (isAbsolute path) (stackOf path) := by
  rw [stackOf, ← resolve_components]
  rfl

theorem stackOf_normal (path : Text) : IsNormal (isAbsolute path) (stackOf path) :=
  normal_nil.resolve fun _ member => slash_not_mem_pieces member

theorem joinParts_head (plain : ∀ part ∈ stack, part ≠ [] ∧ '/' ∉ part) (nonempty : stack ≠ []) :
    ∃ c rest, joinParts '/' stack = c :: rest ∧ c ≠ '/' := by
  obtain ⟨part, parts, rfl⟩ := List.exists_cons_of_ne_nil nonempty
  obtain ⟨filled, no_slash⟩ := plain part List.mem_cons_self
  obtain ⟨c, rest, rfl⟩ := List.exists_cons_of_ne_nil filled
  have other : c ≠ '/' := fun slash => no_slash (slash ▸ List.mem_cons_self)
  cases parts with
  | nil => exact ⟨c, rest, by rw [joinParts, List.intercalate_singleton], other⟩
  | cons second parts => exact ⟨c, _, by rw [joinParts, List.intercalate_cons_cons]; rfl, other⟩

section

variable (normal : IsNormal isAbs stack)

include normal

theorem IsNormal.part {part : Text} (member : part ∈ stack) : part ≠ [] ∧ part ≠ dot ∧ '/' ∉ part := by
  obtain ⟨up, names, rfl, named, -⟩ := normal
  obtain climbs | name := List.mem_append.mp member
  · rw [List.eq_of_mem_replicate climbs]
    decide
  · exact ⟨(named part name).nonempty, (named part name).not_dot, (named part name).plain⟩

theorem IsNormal.joinParts_head (nonempty : stack ≠ []) : ∃ c rest, joinParts '/' stack = c :: rest ∧ c ≠ '/' :=
  Path.joinParts_head (fun _ member => ⟨(normal.part member).1, (normal.part member).2.2⟩) nonempty

theorem isAbsolute_render : isAbsolute (render isAbs stack) = isAbs := by
  cases isAbs with
  | true => rfl
  | false =>
    rw [render, if_neg Bool.false_ne_true]
    split
    · rfl
    · rename_i nonempty
      obtain ⟨c, rest, starts, plain⟩ := normal.joinParts_head (by rintro rfl; exact nonempty rfl)
      rw [starts]
      exact decide_eq_false fun same => plain (Option.some.inj same)

theorem pieces_render : pieces (render isAbs stack) =
    (if isAbs then [[]] else []) ++ (if stack = [] then if isAbs then [[]] else [dot] else stack) := by
  have plain : ∀ part ∈ stack, '/' ∉ part := fun part member => (normal.part member).2.2
  cases isAbs with
  | true =>
    rw [render, if_pos rfl, if_pos rfl, if_pos rfl]
    refine (pieces_append [] _).trans ?_
    split
    · rename_i empty
      rw [empty]
      rfl
    · rename_i nonempty
      rw [pieces_joinParts plain nonempty]
      rfl
  | false =>
    rw [render, if_neg Bool.false_ne_true, if_neg Bool.false_ne_true, List.nil_append]
    by_cases empty : stack = []
    · rw [empty]
      rfl
    · obtain ⟨c, rest, starts, -⟩ := normal.joinParts_head empty
      rw [if_neg (by rw [starts]; exact List.cons_ne_nil _ _), if_neg empty, pieces_joinParts plain empty]

theorem stackOf_render : stackOf (render isAbs stack) = stack := by
  rw [stackOf, isAbsolute_render normal, pieces_render normal]
  have kept : resolve isAbs [] stack = stack := resolve_normal (by rwa [List.nil_append])
  by_cases empty : stack = []
  · subst empty
    cases isAbs <;> rfl
  · rw [if_neg empty]
    cases isAbs with
    | true | false => exact kept

theorem IsNormal.filter_eq : stack.filter (· ≠ []) = stack :=
  List.filter_eq_self.mpr fun _ member => decide_eq_true (normal.part member).1

theorem pathParts_render : pathParts (render isAbs stack) = stack := by
  have here := stackOf_render normal
  have split := pieces_render normal
  have kept := normal.filter_eq
  rw [pathParts]
  by_cases current : render isAbs stack = dot
  · rw [if_pos current, ← here, current]
    decide
  rw [if_neg current]
  cases isAbs with
  | true =>
    by_cases empty : stack = []
    · subst empty
      rfl
    · rw [if_pos rfl, if_neg empty] at split
      rw [components_cons (show pieces (render true stack) = [] :: stack from split), kept]
  | false =>
    obtain ⟨part, parts, rfl⟩ := List.exists_cons_of_ne_nil (show stack ≠ [] by rintro rfl; exact current rfl)
    rw [if_neg Bool.false_ne_true, if_neg (List.cons_ne_nil _ _), List.nil_append] at split
    rw [List.filter_cons, if_pos (decide_eq_true (normal.part List.mem_cons_self).1)] at kept
    obtain ⟨c, rest, rfl⟩ := List.exists_cons_of_ne_nil (normal.part List.mem_cons_self).1
    rw [components_cons split, (List.cons.inj kept).2]

end

/-! ## Joining -/

theorem isAbsolute_append {base : Text} (rest : Text) (nonempty : base ≠ []) : isAbsolute (base ++ rest) = isAbsolute base := by
  obtain ⟨c, base, rfl⟩ := List.exists_cons_of_ne_nil nonempty
  rfl

/-- What a relative path names from some place. -/
theorem normalize_join {base part : Text} (relative : isAbsolute part = false) :
    normalize (join base part) = render (isAbsolute base) (resolve (isAbsolute base) (stackOf base) (pieces part)) := by
  rw [join]
  by_cases empty : base = []
  · subst empty
    rw [if_pos rfl, normalize_eq, relative, stackOf, relative]
    rfl
  rw [if_neg empty]
  by_cases nothing : part = []
  · subst nothing
    rw [if_pos rfl, normalize_eq]
    rfl
  rw [if_neg nothing, if_neg (by rw [relative]; exact Bool.false_ne_true)]
  split
  · rename_i slash
    obtain ⟨front, rfl⟩ : ∃ front, base = front ++ ['/'] := by
      obtain rfl | ⟨front, last, rfl⟩ := List.eq_nil_or_concat base
      · exact absurd rfl empty
      · rw [List.concat_eq_append, List.getLast?_concat] at slash
        rw [Option.some.inj slash]
        exact ⟨front, List.concat_eq_append⟩
    rw [normalize_eq, isAbsolute_append part empty, stackOf, isAbsolute_append part empty, List.append_assoc, List.cons_append,
      List.nil_append, pieces_append, resolve_append, stackOf, pieces_append, resolve_append]
    rfl
  · rw [normalize_eq, isAbsolute_append _ empty, stackOf, isAbsolute_append _ empty, pieces_append, resolve_append, stackOf]

end Thera.Sdk.Path
