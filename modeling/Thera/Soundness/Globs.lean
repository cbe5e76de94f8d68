import Thera.Model.Lsp.Glob

/-! # What globs exclude

A pruned directory holds excluded files only. A `**` between slashes is more liberal than whole segments: what stands behind it is
tried at every position, in the middle of a segment too.
-/

namespace Thera.Lsp

open Sdk

variable {rest : Text → Bool} {cross : Bool} {p s x : Text}

/-- A star takes a run of characters, without slashes unless it crosses them. -/
theorem matchStar_iff :
    matchStar rest cross s = true ↔ ∃ taken left, s = taken ++ left ∧ (cross = false → '/' ∉ taken) ∧ rest left = true := by
  induction s with
  | nil =>
    constructor
    · intro here
      exact ⟨[], [], rfl, fun _ => List.not_mem_nil, here⟩
    · rintro ⟨taken, left, split, -, here⟩
      obtain ⟨rfl, rfl⟩ := List.append_eq_nil_iff.mp split.symm
      exact here
  | cons c s ih =>
    rw [matchStar, Bool.or_eq_true]
    constructor
    · rintro (here | later)
      · exact ⟨[], c :: s, rfl, fun _ => List.not_mem_nil, here⟩
      · split at later
        · cases later
        · rename_i passes
          obtain ⟨taken, left, rfl, plain, here⟩ := ih.mp later
          refine ⟨c :: taken, left, rfl, fun single => ?_, here⟩
          rw [List.mem_cons, not_or]
          refine ⟨fun slash => passes ?_, plain single⟩
          rw [single, ← slash]
          rfl
    · rintro ⟨taken, left, split, plain, here⟩
      cases taken with
      | nil =>
        rw [List.nil_append] at split
        rw [split]
        exact .inl here
      | cons d taken =>
        obtain ⟨rfl, rfl⟩ := List.cons.inj split
        have passes : ¬ (!cross && decide (c = '/')) = true := by
          intro slash
          rw [Bool.and_eq_true, Bool.not_eq_true', decide_eq_true_eq] at slash
          exact plain slash.1 (by rw [slash.2]; exact List.mem_cons_self)
        rw [if_neg passes]
        exact .inr (ih.mpr ⟨taken, left, rfl, fun single member => plain single (List.mem_cons_of_mem c member), here⟩)

/-- Whatever a star takes of a path, it can take of a longer one. -/
theorem matchStar_append {rest' : Text → Bool} {more : Text} (here : matchStar rest cross s = true)
    (longer : ∀ left, rest left = true → rest' (left ++ more) = true) : matchStar rest' cross (s ++ more) = true := by
  obtain ⟨taken, left, rfl, plain, matched⟩ := matchStar_iff.mp here
  exact matchStar_iff.mpr ⟨taken, left ++ more, List.append_assoc _ _ _, plain, longer left matched⟩

theorem matchAt_nil : matchAt [] s = true ↔ s = [] := List.isEmpty_iff

theorem matchAt_everything (s : Text) : matchAt ['*', '*'] s = true :=
  matchStar_iff.mpr ⟨s, [], (List.append_nil s).symm, fun no => absurd no (by decide), rfl⟩

theorem matchAt_spans (p : Text) : matchAt ('*' :: '*' :: '/' :: p) = matchStar (matchAt p) true := rfl

theorem matchAt_double {p : Text} (other : ∀ p', p ≠ '/' :: p') : matchAt ('*' :: '*' :: p) = matchStar (matchAt p) true := by
  funext s
  rw [matchAt]
  exact fun p' same => other p' same

theorem matchAt_single {p : Text} (other : ∀ p', p ≠ '*' :: p') : matchAt ('*' :: p) = matchStar (matchAt p) false := by
  funext s
  rw [matchAt]
  · exact fun p' same => other _ same
  · exact fun p' same => other _ same

/-- A character of the pattern that is no star takes one character of the path. -/
theorem matchAt_char {pc : Char} (plain : pc ≠ '*') : matchAt (pc :: p) s = true ↔
    ∃ c left, s = c :: left ∧ (if pc = '?' then c ≠ '/' else c = pc) ∧ matchAt p left = true := by
  by_cases any : pc = '?'
  · subst any
    cases s with
    | nil | cons c s => simp [matchAt]
  · cases s with
    | nil | cons c s => simp [matchAt, any, plain]

/-- How a pattern begins. -/
inductive Begins : Text → Prop
  | done : Begins []
  | spans (p : Text) : Begins ('*' :: '*' :: '/' :: p)
  | double {p : Text} (other : ∀ p', p ≠ '/' :: p') : Begins ('*' :: '*' :: p)
  | single {p : Text} (other : ∀ p', p ≠ '*' :: p') : Begins ('*' :: p)
  | char {pc : Char} (p : Text) (plain : pc ≠ '*') : Begins (pc :: p)

theorem begins (p : Text) : Begins p := by
  match p with
  | [] => exact .done
  | pc :: p =>
    by_cases star : pc = '*'
    · subst star
      match p with
      | [] => exact .single fun p' => by simp
      | d :: p =>
        by_cases second : d = '*'
        · subst second
          match p with
          | [] => exact .double fun p' => by simp
          | e :: p =>
            by_cases slash : e = '/'
            · subst slash
              exact .spans p
            · exact .double fun p' same => slash (List.cons.inj same).1
        · exact .single fun p' same => second (List.cons.inj same).1
    · exact .char p star

/-- What a pattern matches lies below what matches it with a `/**` behind it. -/
theorem matchAt_below (x : Text) {p s : Text} (here : matchAt p s = true) : matchAt (p ++ below) (s ++ '/' :: x) = true := by
  induction length : p.length using Nat.strong_induction_on generalizing p s with
  | _ n ih =>
    have shorter {q left : Text} (shrinks : q.length < n) (matched : matchAt q left = true) :
        matchAt (q ++ below) (left ++ '/' :: x) = true := ih q.length shrinks matched rfl
    cases begins p with
    | done =>
      rw [matchAt_nil.mp here]
      exact (matchAt_char (by decide)).mpr ⟨'/', x, rfl, rfl, matchAt_everything x⟩
    | spans p =>
      rw [matchAt_spans] at here
      simp only [List.cons_append, matchAt_spans]
      exact matchStar_append here fun left matched => shorter (by rw [← length]; simp only [List.length_cons]; omega) matched
    | @double p other =>
      rw [matchAt_double other] at here
      cases p with
      | nil =>
        -- the slash of `/**` is swallowed by the `**` in front of it, and the other `**` takes everything
        show matchAt ('*' :: '*' :: '/' :: ['*', '*']) _ = true
        rw [matchAt_spans]
        exact matchStar_iff.mpr ⟨[], _, rfl, fun _ => List.not_mem_nil, matchAt_everything _⟩
      | cons c p =>
        have other' : ∀ p', c :: (p ++ below) ≠ '/' :: p' := fun p' same => other p (by rw [(List.cons.inj same).1])
        simp only [List.cons_append, matchAt_double other']
        exact matchStar_append here fun left matched => shorter (by rw [← length]; simp only [List.length_cons]; omega) matched
    | @single p other =>
      rw [matchAt_single other] at here
      have other' : ∀ p', p ++ below ≠ '*' :: p' := by
        intro p' same
        cases p with
        | nil => exact absurd (List.cons.inj same).1 (by decide)
        | cons c p => exact other p (by rw [(List.cons.inj same).1])
      rw [List.cons_append, matchAt_single other']
      exact matchStar_append here fun left matched => shorter (by rw [← length]; simp only [List.length_cons]; omega) matched
    | char p plain =>
      obtain ⟨c, left, rfl, takes, matched⟩ := (matchAt_char plain).mp here
      exact (matchAt_char plain).mpr ⟨c, _, rfl, takes, shorter (by rw [← length]; simp only [List.length_cons]; omega) matched⟩

/-- Pruning hides excluded files only. -/
theorem pruned_is_excluded (pattern rel x : Text) (pruned : prunesDir pattern rel = true) :
    matchesPath pattern (rel ++ '/' :: x) = true := by
  unfold prunesDir at pruned
  split at pruned
  · rename_i ends
    obtain ⟨base, rfl⟩ := ends
    rw [List.length_append, Nat.add_sub_cancel, List.take_left] at pruned
    exact matchAt_below x pruned
  · cases pruned

theorem build_is_excluded : matchesPath "build/**".toList "build/a/b".toList = true :=
  pruned_is_excluded "build/**".toList "build".toList "a/b".toList (by decide)

/-! ## Spanning segments -/

/-- A text without wildcards matches itself only. -/
theorem matchAt_literal (literal : ∀ c ∈ p, c ≠ '*' ∧ c ≠ '?') {q : Text} :
    matchAt (p ++ q) s = true ↔ ∃ left, s = p ++ left ∧ matchAt q left = true := by
  induction p generalizing s with
  | nil => exact ⟨fun here => ⟨s, rfl, here⟩, by rintro ⟨left, rfl, here⟩; exact here⟩
  | cons c p ih =>
    obtain ⟨no_star, no_mark⟩ := literal c List.mem_cons_self
    have others := fun d member => literal d (List.mem_cons_of_mem c member)
    rw [List.cons_append, matchAt_char no_star]
    constructor
    · rintro ⟨d, left, rfl, takes, here⟩
      obtain ⟨left', rfl, matched⟩ := (ih others).mp here
      rw [if_neg no_mark] at takes
      exact ⟨left', by rw [takes]; rfl, matched⟩
    · rintro ⟨left, rfl, here⟩
      exact ⟨c, p ++ left, rfl, by rw [if_neg no_mark], (ih others).mpr ⟨left, rfl, here⟩⟩

def Literal (text : Text) : Prop := ∀ c ∈ text, c ≠ '*' ∧ c ≠ '?'

/-- A `**` between slashes takes any run: what stands behind it may begin anywhere. -/
theorem matches_spanning {q : Text} (literal : Literal p) (literal' : Literal q) :
    matchesPath (p ++ '/' :: '*' :: '*' :: '/' :: q) s = true ↔ ∃ run, s = p ++ '/' :: (run ++ q) := by
  have whole {left : Text} : matchAt q left = true ↔ left = q := by
    have literal := @matchAt_literal q left literal' []
    rw [List.append_nil] at literal
    rw [literal]
    constructor
    · rintro ⟨rest, rfl, done⟩
      rw [matchAt_nil.mp done, List.append_nil]
    · rintro rfl
      exact ⟨[], (List.append_nil _).symm, matchAt_nil.mpr rfl⟩
  rw [matchesPath, matchAt_literal literal]
  constructor
  · rintro ⟨left, rfl, here⟩
    obtain ⟨c, left, rfl, rfl, behind⟩ := (matchAt_char (by decide)).mp here
    rw [matchAt_spans] at behind
    obtain ⟨run, left, rfl, -, matched⟩ := matchStar_iff.mp behind
    exact ⟨run, by rw [whole.mp matched]⟩
  · rintro ⟨run, rfl⟩
    refine ⟨_, rfl, (matchAt_char (by decide)).mpr ⟨'/', _, rfl, rfl, ?_⟩⟩
    rw [matchAt_spans]
    exact matchStar_iff.mpr ⟨run, q, rfl, fun no => absurd no (by decide), whole.mpr rfl⟩

/-- A `**` between slashes spans whole segments exactly where the text it would take ends with a segment. -/
theorem spans_segments_iff (p q s : Text) (literal : Literal p) (literal' : Literal q) :
    ((matchesPath (p ++ '/' :: '*' :: '*' :: '/' :: q) s = true) ↔
        s = p ++ '/' :: q ∨ ∃ m, m ≠ [] ∧ s = p ++ '/' :: (m ++ '/' :: q)) ↔
      ∀ run, s = p ++ '/' :: (run ++ q) → run = [] ∨ ∃ m, m ≠ [] ∧ run = m ++ ['/'] := by
  rw [matches_spanning literal literal']
  constructor
  · intro segments run split
    obtain direct | ⟨m, filled, through⟩ := segments.mp ⟨run, split⟩
    · rw [direct] at split
      have same := (List.cons.inj (List.append_cancel_left split)).2
      exact .inl (List.append_cancel_right (show run ++ q = [] ++ q from same.symm))
    · rw [through] at split
      have same := (List.cons.inj (List.append_cancel_left split)).2
      refine .inr ⟨m, filled, List.append_cancel_right (show run ++ q = m ++ ['/'] ++ q from ?_)⟩
      rw [← same, List.append_assoc]
      rfl
  · intro whole
    constructor
    · rintro ⟨run, rfl⟩
      obtain rfl | ⟨m, filled, rfl⟩ := whole run rfl
      · exact .inl rfl
      · exact .inr ⟨m, filled, by rw [List.append_assoc]; rfl⟩
    · rintro (rfl | ⟨m, -, rfl⟩)
      · exact ⟨[], rfl⟩
      · exact ⟨m ++ ['/'], by rw [List.append_assoc]; rfl⟩

theorem spans_segments_nested :
    (matchesPath "src/**/gen".toList "src/a/gen".toList = true) ↔
      ("src/a/gen".toList = "src".toList ++ '/' :: "gen".toList ∨
        ∃ m, m ≠ [] ∧ "src/a/gen".toList = "src".toList ++ '/' :: (m ++ '/' :: "gen".toList)) := by
  refine (spans_segments_iff "src".toList "gen".toList "src/a/gen".toList (by simp [Literal]) (by simp [Literal])).mpr ?_
  intro run split
  obtain rfl : run = ['a', '/'] := by
    have same : "src/".toList ++ ("a/".toList ++ "gen".toList) = "src/".toList ++ (run ++ "gen".toList) := split
    exact (List.append_cancel_right (List.append_cancel_left same)).symm
  exact .inr ⟨['a'], by decide, rfl⟩

/-- `a/**/b` matches `a/xb`, where no segment is `b`. -/
theorem spans_part_of_segment :
    matchesPath "a/**/b".toList "a/xb".toList = true ∧ "a/xb".toList ≠ "a".toList ++ '/' :: "b".toList ∧
      ∀ m, "a/xb".toList ≠ "a".toList ++ '/' :: (m ++ '/' :: "b".toList) := by
  refine ⟨by decide, by decide, fun m same => ?_⟩
  have last := congrArg (fun text => text.reverse[1]?) same
  simp at last

end Thera.Lsp
