import Mathlib

/-! # Questions answered by asking questions

A question is answered outright, or by asking others in order until one is answered no. Under a bound on the
depth of asking an answer may be missing, but an answer that is given does not depend on the bound. The asking
ends exactly when no question comes up again below itself, provided that only finitely many can come up.
-/

namespace Querying

open Relation

variable {α : Type*}

/-- Ask in order until one answer is no. -/
def askAll (ask : α → Option Bool) : List α → Option Bool
  | [] => some true
  | a :: rest => do if ← ask a then askAll ask rest else return false

variable {ask : α → Option Bool} {a : α} {b : Bool}

theorem askAll_cons {rest : List α} :
    askAll ask (a :: rest) = some b ↔
      (ask a = some true ∧ askAll ask rest = some b) ∨ (ask a = some false ∧ b = false) := by
  rw [askAll]
  rcases ask a with - | (_ | _) <;> simp [eq_comm]

theorem askAll_eq_true {as : List α} : askAll ask as = some true ↔ ∀ a ∈ as, ask a = some true := by
  induction as with
  | nil => simp [askAll]
  | cons a rest ih => simp [askAll_cons, ih]

theorem askAll_mono {ask' : α → Option Bool} {as : List α} (more : ∀ a c, ask a = some c → ask' a = some c)
    (answered : askAll ask as = some b) : askAll ask' as = some b := by
  induction as with
  | nil => exact answered
  | cons a rest ih =>
    rcases askAll_cons.mp answered with ⟨yes, later⟩ | ⟨no, rfl⟩
    · exact askAll_cons.mpr (.inl ⟨more a true yes, ih later⟩)
    · exact askAll_cons.mpr (.inr ⟨more a false no, rfl⟩)

/-- The answer given outright, or by asking. -/
def follow (ask : α → Option Bool) : Bool ⊕ List α → Option Bool
  | .inl b => some b
  | .inr questions => askAll ask questions

section

variable (next : α → Bool ⊕ List α)

/-- The answer found by asking to a depth of less than `depth`. -/
def answer : ℕ → α → Option Bool
  | 0, _ => none
  | depth + 1, a => follow (answer depth) (next a)

def Answers (a : α) (b : Bool) : Prop := ∃ depth, answer next depth a = some b

/-- A question comes up below another when all that are asked before it are answered yes. -/
inductive Asks : α → α → Prop where
  | intro {a q : α} {before after : List α} (asked : next a = .inr (before ++ q :: after))
      (yes : ∀ x ∈ before, Answers next x true) : Asks a q

end

variable {next : α → Bool ⊕ List α}

theorem answer_mono {depth depth' : ℕ} (le : depth ≤ depth') (found : answer next depth a = some b) :
    answer next depth' a = some b := by
  induction depth generalizing depth' a b with
  | zero => cases found
  | succ depth ih =>
    obtain ⟨more, rfl⟩ : ∃ more, depth' = more + 1 := ⟨depth' - 1, by omega⟩
    rw [answer] at found ⊢
    cases asked : next a with
    | inl c => rwa [asked] at found
    | inr questions =>
      rw [asked] at found
      exact askAll_mono (fun _ _ => ih (by omega)) found

theorem Answers.unique {c : Bool} (first : Answers next a b) (second : Answers next a c) : b = c := by
  obtain ⟨m, first⟩ := first
  obtain ⟨n, second⟩ := second
  have left := answer_mono (Nat.le_max_left m n) first
  have right := answer_mono (Nat.le_max_right m n) second
  exact Option.some.inj (left.symm.trans right)

theorem Answers.outright (known : next a = .inl b) : Answers next a b := ⟨1, by rw [answer, known, follow]⟩

theorem answers_all {questions : List α} (asked : next a = .inr questions) :
    Answers next a true ↔ ∀ q ∈ questions, Answers next q true := by
  constructor
  · rintro ⟨depth, found⟩ q member
    cases depth with
    | zero => cases found
    | succ depth =>
      rw [answer, asked] at found
      exact ⟨depth, askAll_eq_true.mp found q member⟩
  · intro yes
    -- one depth does for all of them
    obtain ⟨depth, enough⟩ : ∃ depth, ∀ q ∈ questions, answer next depth q = some true := by
      clear asked
      induction questions with
      | nil => exact ⟨0, by simp⟩
      | cons q rest ih =>
        obtain ⟨m, first⟩ := yes q List.mem_cons_self
        obtain ⟨n, others⟩ := ih fun x member => yes x (List.mem_cons_of_mem q member)
        refine ⟨max m n, fun x member => ?_⟩
        rcases List.mem_cons.mp member with rfl | later
        · exact answer_mono (Nat.le_max_left m n) first
        · exact answer_mono (Nat.le_max_right m n) (others x later)
    exact ⟨depth + 1, by rw [answer, asked]; exact askAll_eq_true.mpr enough⟩

/-! ## Which questions are answered -/

theorem Asks.first {q : α} {rest : List α} (asked : next a = .inr (q :: rest)) : Asks next a q :=
  .intro (List.nil_append (q :: rest) ▸ asked) (by simp)

/-- A question that comes up below an answered one is answered, one level less deep. -/
theorem Asks.answered {q : α} (asks : Asks next a q) {depth : ℕ} (found : answer next (depth + 1) a = some b) :
    ∃ c, answer next depth q = some c := by
  obtain ⟨asked, yes⟩ := asks
  rw [answer, asked, follow] at found
  clear asked
  rename_i before after
  induction before with
  | nil => rcases askAll_cons.mp found with ⟨here, -⟩ | ⟨here, -⟩ <;> exact ⟨_, here⟩
  | cons x rest ih =>
    rcases askAll_cons.mp found with ⟨-, later⟩ | ⟨no, -⟩
    · exact ih later fun y member => yes y (List.mem_cons_of_mem x member)
    · cases (yes x List.mem_cons_self).unique ⟨depth, no⟩

theorem answered_iff_acc : (∃ b, Answers next a b) ↔ Acc (flip (Asks next)) a := by
  constructor
  · rintro ⟨b, depth, found⟩
    induction depth generalizing a b with
    | zero => cases found
    | succ depth ih =>
      refine ⟨a, fun q asks => ?_⟩
      obtain ⟨c, found⟩ := Asks.answered asks found
      exact ih c found
  · intro acc
    induction acc with
    | intro a _ ih =>
      cases asked : next a with
      | inl b => exact ⟨b, .outright asked⟩
      | inr questions =>
        -- the answers so far were yes, and the rest is answered
        have rest (before after : List α) (whole : questions = before ++ after)
            (yes : ∀ x ∈ before, Answers next x true) : ∃ depth b, askAll (answer next depth) after = some b := by
          induction after generalizing before with
          | nil => exact ⟨0, true, rfl⟩
          | cons q after rest =>
            obtain ⟨c, m, here⟩ := ih q ⟨asked.trans (congrArg _ whole), yes⟩
            cases c with
            | false => exact ⟨m, false, askAll_cons.mpr (.inr ⟨here, rfl⟩)⟩
            | true =>
              obtain ⟨n, b, later⟩ := rest (before ++ [q]) (by simp [whole]) (by
                simp only [List.mem_append, List.mem_singleton]
                rintro x (old | rfl)
                · exact yes x old
                · exact ⟨m, here⟩)
              refine ⟨max m n, b, askAll_cons.mpr (.inl ⟨answer_mono (Nat.le_max_left m n) here, ?_⟩)⟩
              exact askAll_mono (fun _ _ => answer_mono (Nat.le_max_right m n)) later
        obtain ⟨depth, b, found⟩ := rest [] questions rfl (by simp)
        exact ⟨b, depth + 1, by rw [answer, asked]; exact found⟩

theorem acc_of_reached {r : α → α → Prop} {q : α} (acc : Acc (flip r) a) (reached : ReflTransGen r a q) :
    Acc (flip r) q := by
  induction reached with
  | refl => exact acc
  | tail _ asks ih => exact ih.inv asks

theorem acyclic_of_acc (acc : Acc (flip (Asks next)) a) : ¬ TransGen (Asks next) a a := by
  intro cycle
  have again : TransGen (flip (Asks next)) a a := transGen_swap.mpr cycle
  induction acc.transGen with
  | intro a _ ih => exact ih a again (acc.inv_of_transGen again) cycle again

/-- A question that comes up below itself is not answered, however deep one asks. -/
theorem answer_eq_none_of_cycle (cycle : TransGen (Asks next) a a) (depth : ℕ) : answer next depth a = none := by
  cases found : answer next depth a with
  | none => rfl
  | some b => exact absurd cycle (acyclic_of_acc (answered_iff_acc.mp ⟨b, depth, found⟩))

/-- Where only finitely many questions can come up, a question is answered exactly when none of them comes up
again below itself. -/
theorem answered_iff_acyclic (finite : {q | ReflTransGen (Asks next) a q}.Finite) :
    (∃ b, Answers next a b) ↔ ∀ q, ReflTransGen (Asks next) a q → ¬ TransGen (Asks next) q q := by
  rw [answered_iff_acc]
  constructor
  · intro acc q reached
    exact acyclic_of_acc (acc_of_reached acc reached)
  · intro acyclic
    have := finite.to_subtype
    let below : {q | ReflTransGen (Asks next) a q} → {q | ReflTransGen (Asks next) a q} → Prop :=
      fun x y => TransGen (Asks next) y x
    have : IsTrans _ below := ⟨fun _ _ _ first second => second.trans first⟩
    have : Std.Irrefl below := ⟨fun x => acyclic x x.2⟩
    have wf : WellFounded below := Finite.wellFounded_of_trans_of_irrefl below
    have acc (x : {q | ReflTransGen (Asks next) a q}) : Acc (flip (Asks next)) x := by
      induction wf.apply x with
      | intro x _ ih => exact ⟨_, fun q asks => ih ⟨q, x.2.tail asks⟩ (.single asks)⟩
    exact acc ⟨a, .refl⟩

end Querying
