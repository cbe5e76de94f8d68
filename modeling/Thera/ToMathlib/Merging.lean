import Mathlib

/-! # Merging runs

A merge of two lists takes elements from the fronts, as some comparison answers. Merging neighbouring runs of a list, pass by pass,
leaves a permutation; if the answers are those of a strict weak order, it leaves a sorted list in which equivalent elements keep
their order.
-/

namespace Merging

variable {α : Type*}

/-- The part of a list between two positions. -/
def slice (l : List α) (i j : ℕ) : List α := (l.drop i).take (j - i)

theorem slice_self (l : List α) (i : ℕ) : slice l i i = [] := by
  rw [slice, Nat.sub_self, List.take_zero]

theorem slice_cons {l : List α} {i j : ℕ} (before : i < j) (inside : i < l.length) : slice l i j = l[i] :: slice l (i + 1) j := by
  rw [slice, slice, List.drop_eq_getElem_cons inside, show j - i = (j - (i + 1)) + 1 by omega, List.take_succ_cons]

theorem slice_min (l : List α) (i width : ℕ) : slice l i (min (i + width) l.length) = (l.drop i).take width := by
  rw [slice]
  by_cases inside : i + width ≤ l.length
  · rw [min_eq_left inside, Nat.add_sub_cancel_left]
  · rw [min_eq_right (by omega), List.take_of_length_le (by rw [List.length_drop]), List.take_of_length_le (by rw [List.length_drop]; omega)]

/-! ## One merge -/

/-- Taking from the fronts of two lists; `takes y x b` says that the comparison of the right front `y` with the left front `x` may
answer `b`, and the right one is taken if it answers yes. -/
inductive Merged (takes : α → α → Bool → Prop) : List α → List α → List α → Prop where
  | nilLeft (ys : List α) : Merged takes [] ys ys
  | nilRight (xs : List α) : Merged takes xs [] xs
  | right {x y : α} {xs ys zs : List α} (yes : takes y x true) (more : Merged takes (x :: xs) ys zs) :
      Merged takes (x :: xs) (y :: ys) (y :: zs)
  | left {x y : α} {xs ys zs : List α} (no : takes y x false) (more : Merged takes xs (y :: ys) zs) :
      Merged takes (x :: xs) (y :: ys) (x :: zs)

variable {takes : α → α → Bool → Prop} {xs zs ys : List α}

theorem Merged.nil_right (merged : Merged takes xs [] zs) : zs = xs := by
  cases merged with
  | nilLeft | nilRight => rfl

theorem Merged.nil_left (merged : Merged takes [] ys zs) : zs = ys := by
  cases merged with
  | nilLeft | nilRight => rfl

theorem Merged.mono {takes' : α → α → Bool → Prop} (weaker : ∀ a b answer, takes a b answer → takes' a b answer)
    (merged : Merged takes xs ys zs) : Merged takes' xs ys zs := by
  induction merged with
  | nilLeft ys => exact .nilLeft ys
  | nilRight xs => exact .nilRight xs
  | right yes more ih => exact .right (weaker _ _ _ yes) ih
  | left no more ih => exact .left (weaker _ _ _ no) ih

theorem Merged.perm (merged : Merged takes xs ys zs) : zs.Perm (xs ++ ys) := by
  induction merged with
  | nilLeft ys => exact List.Perm.refl ys
  | nilRight xs =>
    rw [List.append_nil]
  | right yes more ih => exact (ih.cons _).trans List.perm_middle.symm
  | left no more ih => exact ih.cons _

theorem Merged.length (merged : Merged takes xs ys zs) : zs.length = xs.length + ys.length := by
  rw [merged.perm.length_eq, List.length_append]

/-! ## Strict weak orders -/

/-- A comparison that answers as a strict weak order. -/
structure StrictWeak (lt : α → α → Bool) : Prop where
  irrefl : ∀ a, lt a a = false
  trans : ∀ a b c, lt a b = true → lt b c = true → lt a c = true
  /-- Being incomparable is transitive. -/
  tie_trans : ∀ a b c, lt a b = false → lt b a = false → lt b c = false → lt c b = false → lt a c = false ∧ lt c a = false

/-- No later element is less than an earlier one. -/
def Ordered (lt : α → α → Bool) (l : List α) : Prop := l.Pairwise fun a b => lt b a = false

/-- The elements are equivalent. -/
def tied (lt : α → α → Bool) (a b : α) : Bool := !lt a b && !lt b a

/-- The answers of one comparison. -/
def answers (lt : α → α → Bool) (a b : α) (answer : Bool) : Prop := lt a b = answer

section

variable {lt : α → α → Bool} (weak : StrictWeak lt)
include weak

theorem StrictWeak.asymm {a b : α} (less : lt a b = true) : lt b a = false := by
  by_contra more
  rw [Bool.not_eq_false] at more
  have loop := weak.trans a b a less more
  rw [weak.irrefl a] at loop
  cases loop

/-- Not being less is transitive. -/
theorem StrictWeak.negTrans {a b c : α} (ab : lt a b = false) (bc : lt b c = false) : lt a c = false := by
  by_contra less
  rw [Bool.not_eq_false] at less
  by_cases ba : lt b a = true
  · rw [weak.trans b a c ba less] at bc
    cases bc
  by_cases cb : lt c b = true
  · rw [weak.trans a c b less cb] at ab
    cases ab
  rw [Bool.not_eq_true] at ba cb
  rw [(weak.tie_trans a b c ab ba bc cb).1] at less
  cases less

theorem Merged.ordered {xs ys zs : List α} (merged : Merged (answers lt) xs ys zs) (left : Ordered lt xs) (right : Ordered lt ys) :
    Ordered lt zs := by
  induction merged with
  | nilLeft ys => exact right
  | nilRight xs => exact left
  | @right x y xs ys zs yes more ih =>
    obtain ⟨least, right⟩ := List.pairwise_cons.mp right
    refine List.pairwise_cons.mpr ⟨fun z member => ?_, ih left right⟩
    obtain inLeft | inRight := List.mem_append.mp (more.perm.mem_iff.mp member)
    · -- The right front is less than the left one, which is not more than what follows it.
      have front : lt x y = false := weak.asymm yes
      obtain rfl | later := List.mem_cons.mp inLeft
      · exact front
      · exact weak.negTrans ((List.pairwise_cons.mp left).1 z later) front
    · exact least z inRight
  | @left x y xs ys zs no more ih =>
    obtain ⟨least, left⟩ := List.pairwise_cons.mp left
    refine List.pairwise_cons.mpr ⟨fun z member => ?_, ih left right⟩
    obtain inLeft | inRight := List.mem_append.mp (more.perm.mem_iff.mp member)
    · exact least z inLeft
    · obtain rfl | later := List.mem_cons.mp inRight
      · exact no
      · exact weak.negTrans ((List.pairwise_cons.mp right).1 z later) no

/-- Equivalent elements of the left run come first, each run's in its own order. -/
theorem Merged.filter_tied {xs ys zs : List α} (merged : Merged (answers lt) xs ys zs) (left : Ordered lt xs) (a : α) :
    zs.filter (tied lt a) = xs.filter (tied lt a) ++ ys.filter (tied lt a) := by
  induction merged with
  | nilLeft ys => rfl
  | nilRight xs =>
    rw [List.filter_nil, List.append_nil]
  | @right x y xs ys zs yes more ih =>
    by_cases tie : tied lt a y = true
    · -- What is left of the left run is more than `y`, so none of it is equivalent to `a`.
      have none : (x :: xs).filter (tied lt a) = [] := by
        rw [List.filter_eq_nil_iff]
        intro z member tie'
        simp only [tied, Bool.and_eq_true, Bool.not_eq_true'] at tie tie'
        have yz : lt y z = false := weak.negTrans tie.2 tie'.1
        have zx : lt z x = false := by
          obtain rfl | later := List.mem_cons.mp member
          · exact weak.irrefl _
          · exact (List.pairwise_cons.mp left).1 z later
        have bad := weak.negTrans yz zx
        rw [show lt y x = true from yes] at bad
        cases bad
      rw [List.filter_cons_of_pos tie, List.filter_cons_of_pos tie, ih left, none]
      rfl
    · rw [List.filter_cons_of_neg tie, List.filter_cons_of_neg tie, ih left]
  | @left x y xs ys zs no more ih =>
    rw [List.filter_cons, List.filter_cons, ih (List.pairwise_cons.mp left).2]
    split
    · rfl
    · rfl

end

/-! ## Passes -/

/-- Neighbouring runs of a width are merged, from the front. -/
inductive Pass (takes : α → α → Bool → Prop) (width : ℕ) : List α → List α → Prop where
  | nil : Pass takes width [] []
  | cons {l zs rest : List α} (nonempty : l ≠ []) (merged : Merged takes (l.take width) ((l.drop width).take width) zs)
      (more : Pass takes width (l.drop (width + width)) rest) : Pass takes width l (zs ++ rest)

theorem Pass.mono {takes' : α → α → Bool → Prop} (weaker : ∀ a b answer, takes a b answer → takes' a b answer)
    {width : ℕ} {l out : List α} (pass : Pass takes width l out) : Pass takes' width l out := by
  induction pass with
  | nil => exact .nil
  | cons nonempty merged more ih => exact .cons nonempty (merged.mono weaker) ih

theorem take_take_drop (l : List α) (width : ℕ) :
    l.take width ++ ((l.drop width).take width ++ l.drop (width + width)) = l := by
  rw [← List.drop_drop, List.take_append_drop, List.take_append_drop]

theorem Pass.perm {width : ℕ} {l out : List α} (pass : Pass takes width l out) : out.Perm l := by
  induction pass with
  | nil => exact List.Perm.refl _
  | @cons l zs rest nonempty merged more ih =>
    have both := merged.perm.append ih
    rwa [List.append_assoc, take_take_drop] at both

/-- Every run of the width is ordered. -/
def Runs (lt : α → α → Bool) (width : ℕ) (l : List α) : Prop := ∀ k, Ordered lt ((l.drop (k * width)).take width)

theorem Runs.drop {lt : α → α → Bool} {width : ℕ} {l : List α} (runs : Runs lt width l) : Runs lt width (l.drop width) := by
  intro k
  have run := runs (k + 1)
  rwa [Nat.succ_mul, Nat.add_comm, ← List.drop_drop] at run

theorem runs_one (lt : α → α → Bool) (l : List α) : Runs lt 1 l := by
  intro k
  cases l.drop (k * 1) with
  | nil => exact List.Pairwise.nil
  | cons a rest => exact List.pairwise_singleton _ a

theorem Runs.whole {lt : α → α → Bool} {width : ℕ} {l : List α} (runs : Runs lt width l) (wide : l.length ≤ width) : Ordered lt l := by
  have first := runs 0
  rwa [Nat.zero_mul, List.drop_zero, List.take_of_length_le wide] at first

section

variable {lt : α → α → Bool} {width : ℕ} {l out : List α}

theorem Pass.runs (weak : StrictWeak lt) (pass : Pass (answers lt) width l out) (runs : Runs lt width l) :
    Runs lt (width + width) out := by
  induction pass with
  | nil =>
    intro k
    rw [List.drop_nil, List.take_nil]
    exact List.Pairwise.nil
  | @cons l zs rest nonempty merged more ih =>
    have first : Ordered lt (l.take width) := by
      have run := runs 0
      rwa [Nat.zero_mul, List.drop_zero] at run
    have second : Ordered lt ((l.drop width).take width) := by
      have run := runs.drop 0
      rwa [Nat.zero_mul, List.drop_zero] at run
    have ordered := merged.ordered weak first second
    have length := merged.length
    rw [List.length_take, List.length_take, List.length_drop] at length
    have rest' : Runs lt (width + width) rest := by
      apply ih
      rw [← List.drop_drop]
      exact runs.drop.drop
    by_cases whole : width + width ≤ l.length
    · -- The merged runs are the first run of the new width.
      have exact_ : zs.length = width + width := by omega
      intro k
      cases k with
      | zero => rwa [Nat.zero_mul, List.drop_zero, ← exact_, List.take_left]
      | succ k =>
        rw [show (k + 1) * (width + width) = width + width + k * (width + width) by ring, ← List.drop_drop, ← exact_, List.drop_left,
          exact_]
        exact rest' k
    · -- They are all there is.
      have nothing : l.drop (width + width) = [] := List.drop_eq_nil_of_le (by omega)
      rw [nothing] at more
      have none : rest = [] := List.Perm.eq_nil more.perm
      rw [none, List.append_nil]
      intro k
      exact ordered.sublist ((List.take_sublist _ _).trans (List.drop_sublist _ _))

/-- A pass keeps equivalent elements in their order. -/
theorem Pass.filter_tied (weak : StrictWeak lt) (pass : Pass (answers lt) width l out) (runs : Runs lt width l) (a : α) :
    out.filter (tied lt a) = l.filter (tied lt a) := by
  induction pass with
  | nil => rfl
  | @cons l zs rest nonempty merged more ih =>
    have first : Ordered lt (l.take width) := by
      have run := runs 0
      rwa [Nat.zero_mul, List.drop_zero] at run
    have behind : Runs lt width (l.drop (width + width)) := by
      rw [← List.drop_drop]
      exact runs.drop.drop
    rw [List.filter_append, merged.filter_tied weak first, ih behind, List.append_assoc, ← List.filter_append, ← List.filter_append,
      take_take_drop]

end

end Merging
