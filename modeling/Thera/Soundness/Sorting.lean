import Thera.Model.Sdk.Lists
import Thera.ToMathlib.Merging

/-! # Sorting is stable

The loops of `sorted_by` merge neighbouring runs, pass by pass. Whatever the comparison answers, the result is a permutation; if it
answers as a strict weak order, the result is ordered and equivalent elements keep their order.
-/

namespace Thera.Soundness

open Sdk Merging

section

variable {α S : Type} {less : α → α → StateM S Bool} {src dst : List α} {s : S}

/-- What the comparison may answer. -/
def mayAnswer (less : α → α → StateM S Bool) (a b : α) (answer : Bool) : Prop := ∃ s, (less a b s).1 = answer

/-- The state is changed by calls of the comparison only. -/
def Called (less : α → α → StateM S Bool) : S → S → Prop := Relation.ReflTransGen fun s s' => ∃ a b, s' = (less a b s).2

/-- The run ends with what it had, then a list with the property; nothing but the comparison changed the state. -/
def Gives (less : α → α → StateM S Bool) (run : StateT S Option (List α)) (s : S) (dst : List α) (P : List α → Prop) : Prop :=
  ∃ out s', run s = some (dst ++ out, s') ∧ P out ∧ Called less s s'

theorem item_run {i : ℕ} (inside : i < src.length) : item src i s = some (src[i], s) := by
  rw [item, List.getElem?_eq_getElem inside]
  rfl

theorem run_item {i : ℕ} {next : α → StateT S Option (List α)} (inside : i < src.length) : (item src i >>= next) s = next src[i] s := by
  show (item src i s).bind (fun result => next result.1 result.2) = _
  rw [item_run inside]
  rfl

theorem run_ask {a b : α} {next : Bool → StateT S Option (List α)} : (ask less a b >>= next) s = next (less a b s).1 (less a b s).2 := rfl

theorem Gives.cons {run : StateT S Option (List α)} {a : α} {P Q : List α → Prop} {s₀ : S} (gives : Gives less run s (dst ++ [a]) P)
    (called : Called less s₀ s) (next : ∀ out, P out → Q (a :: out)) : ∃ out s', run s = some (dst ++ out, s') ∧ Q out ∧ Called less s₀ s' := by
  obtain ⟨out, s', result, holds, called'⟩ := gives
  refine ⟨a :: out, s', ?_, next out holds, called.trans called'⟩
  rw [result, List.append_assoc]
  rfl

/-- The inner loop merges what is left of two runs. -/
theorem mergeLoop_gives {mid hi i j fuel : ℕ} (left : mid ≤ src.length) (right : hi ≤ src.length) (enough : (mid - i) + (hi - j) < fuel) :
    Gives less (mergeLoop less src mid hi i j dst fuel) s dst (Merged (mayAnswer less) (slice src i mid) (slice src j hi)) := by
  induction fuel generalizing i j dst s with
  | zero => omega
  | succ fuel ih =>
    have noneLeft (done : ¬ i < mid) : slice src i mid = [] := by rw [slice, Nat.sub_eq_zero_of_le (by omega), List.take_zero]
    have noneRight (done : ¬ j < hi) : slice src j hi = [] := by rw [slice, Nat.sub_eq_zero_of_le (by omega), List.take_zero]
    rw [mergeLoop]
    by_cases more : i < mid ∨ j < hi
    · simp only [if_pos more]
      by_cases leftOver : i < mid
      · simp only [if_neg (show ¬ i ≥ mid by omega)]
        rw [slice_cons leftOver (by omega)]
        by_cases rightOver : j < hi
        · simp only [if_neg (show ¬ j ≥ hi by omega)]
          rw [slice_cons rightOver (by omega), Gives, run_item (by omega), run_item (by omega), run_ask]
          have called : Called less s (less src[j] src[i] s).2 := .single ⟨_, _, rfl⟩
          cases answer : (less src[j] src[i] s).1 with
          | true =>
            rw [if_pos rfl]
            apply (ih (by omega)).cons called
            intro out merged
            rw [slice_cons leftOver (by omega)] at merged
            exact .right ⟨s, answer⟩ merged
          | false =>
            rw [if_neg Bool.false_ne_true]
            apply (ih (by omega)).cons called
            intro out merged
            rw [slice_cons rightOver (by omega)] at merged
            exact .left ⟨s, answer⟩ merged
        · simp only [if_pos (show j ≥ hi by omega)]
          rw [noneRight rightOver, Gives, run_item (by omega)]
          apply (ih (by omega)).cons .refl
          intro out merged
          rw [noneRight rightOver] at merged
          rw [merged.nil_right]
          exact .nilRight _
      · have rightOver : j < hi := more.resolve_left leftOver
        simp only [if_pos (show i ≥ mid by omega)]
        rw [noneLeft leftOver, slice_cons rightOver (by omega), Gives, run_item (by omega)]
        apply (ih (by omega)).cons .refl
        intro out merged
        rw [noneLeft leftOver] at merged
        rw [merged.nil_left]
        exact .nilLeft _
    · rw [if_neg more]
      refine ⟨[], s, by rw [List.append_nil]; rfl, ?_, .refl⟩
      rw [noneLeft (by omega), noneRight (by omega)]
      exact .nilLeft []

/-- The second of two neighbouring runs, wherever the list ends. -/
theorem second_slice (src : List α) (lo width : ℕ) :
    slice src (min (lo + width) src.length) (min (lo + width + width) src.length) = ((src.drop lo).drop width).take width := by
  rw [List.drop_drop]
  by_cases inside : lo + width ≤ src.length
  · rw [min_eq_left inside, slice_min]
  · rw [min_eq_right (by omega), min_eq_right (by omega), slice_self, List.drop_eq_nil_of_le (by omega), List.take_nil]

theorem passLoop_gives {width lo fuel : ℕ} (positive : 0 < width) (enough : src.length - lo < fuel) :
    Gives less (passLoop less src width lo dst fuel) s dst (Pass (mayAnswer less) width (src.drop lo)) := by
  induction fuel generalizing lo dst s with
  | zero => omega
  | succ fuel ih =>
    rw [passLoop]
    by_cases more : lo < src.length
    · simp only [if_pos more]
      have merged : Gives less (mergeLoop less src (min (lo + width) src.length) (min (lo + width + width) src.length) lo
          (min (lo + width) src.length) dst (src.length + 1)) s dst _ :=
        mergeLoop_gives (min_le_right _ _) (min_le_right _ _) (by omega)
      obtain ⟨zs, s₁, run, merged, called⟩ := merged
      have others : Gives less (passLoop less src width (lo + width + width) (dst ++ zs) fuel) s₁ (dst ++ zs) _ := ih (by omega)
      obtain ⟨rest, s', run', pass, called'⟩ := others
      refine ⟨zs ++ rest, s', ?_, ?_, called.trans called'⟩
      · show (mergeLoop less src _ _ lo _ dst (src.length + 1) s).bind
          (fun result => passLoop less src width (lo + width + width) result.1 fuel result.2) = _
        rw [run, ← List.append_assoc]
        exact run'
      · refine .cons (List.ne_nil_of_length_pos (by rw [List.length_drop]; omega)) ?_ ?_
        · rwa [slice_min, second_slice] at merged
        · rwa [List.drop_drop, ← Nat.add_assoc]
    · rw [if_neg more]
      refine ⟨[], s, by rw [List.append_nil]; rfl, ?_, .refl⟩
      rw [List.drop_eq_nil_of_le (by omega)]
      exact .nil

/-- The result of sorting, for any comparison and for one that answers as a strict weak order. -/
structure SortedFrom (less : α → α → StateM S Bool) (src out : List α) (s s' : S) : Prop where
  perm : out.Perm src
  called : Called less s s'
  ordered : ∀ lt : α → α → Bool, StrictWeak lt → (∀ a b s, (less a b s).1 = lt a b) → Ordered lt out
  stable : ∀ lt : α → α → Bool, StrictWeak lt → (∀ a b s, (less a b s).1 = lt a b) →
    ∀ a, out.filter (tied lt a) = src.filter (tied lt a)

theorem widthLoop_sorts {n width fuel : ℕ} (length : src.length = n) (positive : 0 < width) (enough : n - width < fuel) :
    ∃ out s', widthLoop less n src width fuel s = some (out, s') ∧ out.Perm src ∧ Called less s s' ∧
      ∀ lt : α → α → Bool, StrictWeak lt → (∀ a b s, (less a b s).1 = lt a b) → Runs lt width src →
        Ordered lt out ∧ ∀ a, out.filter (tied lt a) = src.filter (tied lt a) := by
  induction fuel generalizing src width s with
  | zero => omega
  | succ fuel ih =>
    rw [widthLoop]
    by_cases more : width < n
    · simp only [if_pos more]
      have passed : Gives less (passLoop less src width 0 [] (src.length + 1)) s [] _ := passLoop_gives positive (by omega)
      obtain ⟨dst, s₁, run, pass, called⟩ := passed
      rw [List.drop_zero] at pass
      obtain ⟨out, s', run', perm, called', sorted⟩ :=
        ih (pass.perm.length_eq.trans length) (show 0 < width + width by omega) (by omega)
      refine ⟨out, s', ?_, perm.trans pass.perm, called.trans called', fun lt weak answer runs => ?_⟩
      · show (passLoop less src width 0 [] (src.length + 1) s).bind
          (fun result => widthLoop less n result.1 (width + width) fuel result.2) = _
        rw [run]
        exact run'
      · have exactly : Pass (answers lt) width src dst := pass.mono (by
          rintro a b _ ⟨s, rfl⟩
          exact (answer a b s).symm)
        obtain ⟨ordered, stable⟩ := sorted lt weak answer (exactly.runs weak runs)
        exact ⟨ordered, fun a => (stable a).trans (exactly.filter_tied weak runs a)⟩
    · rw [if_neg more]
      exact ⟨src, s, rfl, List.Perm.refl src, .refl, fun lt weak answer runs => ⟨runs.whole (by omega), fun a => rfl⟩⟩

end

/-- Sorting ends with a permutation, whatever the comparison answers, and changes nothing but what the comparison changes; if the
comparison answers as a strict weak order, no later element is less than an earlier one and equivalent elements keep their order. -/
theorem sorted_by_is_stable {α S : Type} (less : α → α → StateM S Bool) (xs : List α) (s : S) :
    ∃ out s', sortedBy less xs s = some (out, s') ∧ SortedFrom less xs out s s' := by
  obtain ⟨out, s', run, perm, called, sorted⟩ :=
    @widthLoop_sorts α S less xs s xs.length 1 (xs.length + 1) rfl Nat.one_pos (by omega)
  refine ⟨out, s', run, perm, called, fun lt weak answer => ?_, fun lt weak answer => ?_⟩
  · exact (sorted lt weak answer (runs_one lt xs)).1
  · exact (sorted lt weak answer (runs_one lt xs)).2

example : (sortedBy (fun a b : ℕ × ℕ => pure (decide (a.1 < b.1))) [(2, 0), (1, 1), (2, 2), (0, 3), (1, 4)] ()) =
    some ([(0, 3), (1, 1), (1, 4), (2, 0), (2, 2)], ()) := by rfl

end Thera.Soundness
