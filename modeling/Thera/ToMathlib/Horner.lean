import Mathlib

/-! # Digits, most significant first

The value of a list of digits by Horner's rule, how it is bounded by the number of digits, and how two lists of equal
length compare: by the first place where they differ.
-/

namespace Horner

/-- The number with the given digits, most significant first. -/
def value (base : ℕ) (digits : List ℕ) : ℕ := digits.foldl (fun n d => n * base + d) 0

variable {base : ℕ} {ds es : List ℕ}

theorem foldl_eq (n : ℕ) (ds : List ℕ) :
    ds.foldl (fun n d => n * base + d) n = n * base ^ ds.length + value base ds := by
  induction ds generalizing n with
  | nil => simp [value]
  | cons d ds ih =>
    rw [value, List.foldl_cons, List.foldl_cons, ih, ih (0 * base + d), List.length_cons, pow_succ]
    ring

theorem value_cons (d : ℕ) (ds : List ℕ) : value base (d :: ds) = d * base ^ ds.length + value base ds := by
  rw [value, List.foldl_cons, foldl_eq, Nat.zero_mul, Nat.zero_add]

/-- A leading zero does not count. -/
theorem value_zero_cons (ds : List ℕ) : value base (0 :: ds) = value base ds := by
  rw [value_cons, Nat.zero_mul, Nat.zero_add]

theorem value_eq_ofDigits (ds : List ℕ) : value base ds = Nat.ofDigits base ds.reverse := by
  induction ds with
  | nil => rfl
  | cons d ds ih =>
    rw [value_cons, ih, List.reverse_cons, Nat.ofDigits_append, Nat.ofDigits_singleton, List.length_reverse, Nat.add_comm,
      Nat.mul_comm]

theorem value_lt (small : ∀ d ∈ ds, d < base) : value base ds < base ^ ds.length := by
  induction ds with
  | nil => simp [value]
  | cons d ds ih =>
    have later := ih fun e member => small e (List.mem_cons_of_mem d member)
    have first : (d + 1) * base ^ ds.length ≤ base * base ^ ds.length :=
      Nat.mul_le_mul_right _ (small d List.mem_cons_self)
    rw [value_cons, List.length_cons, pow_succ']
    rw [Nat.add_mul, Nat.one_mul] at first
    omega

/-- Digits that do not start with a zero reach the power of their number. -/
theorem le_value {d : ℕ} (leading : d ≠ 0) (ds : List ℕ) : base ^ ds.length ≤ value base (d :: ds) := by
  rw [value_cons]
  exact (Nat.le_mul_of_pos_left _ (Nat.pos_of_ne_zero leading)).trans (Nat.le_add_right _ _)

/-- No zero leads, except one that stands alone. -/
def Trimmed (ds : List ℕ) : Prop := ds.length ≤ 1 ∨ ds.head? ≠ some 0

/-- The number of digits tells which powers of the base are reached. -/
theorem lt_length_iff (base_pos : 0 < base) (trimmed : Trimmed ds) (small : ∀ d ∈ ds, d < base) {k : ℕ} (positive : 0 < k) :
    k < ds.length ↔ base ^ k ≤ value base ds := by
  constructor
  · intro longer
    cases ds with
    | nil => cases longer
    | cons d ds =>
      have leading : d ≠ 0 := by
        rintro rfl
        obtain short | nonzero := trimmed
        · omega
        · exact nonzero rfl
      exact (Nat.pow_le_pow_right base_pos (Nat.lt_succ_iff.mp longer)).trans (le_value leading ds)
  · intro reaches
    by_contra short
    have bound := value_lt small
    have := Nat.pow_le_pow_right base_pos (not_lt.mp short)
    omega

/-- Numbers of equal length compare as their first different digits. -/
theorem lt_of_cons_lt {d e : ℕ} (less : d < e) (same : ds.length = es.length) (small : ∀ d ∈ ds, d < base) :
    value base (d :: ds) < value base (e :: es) := by
  have bound := value_lt small
  have step : (d + 1) * base ^ ds.length ≤ e * base ^ ds.length := Nat.mul_le_mul_right _ less
  rw [value_cons, value_cons, ← same]
  rw [Nat.add_mul, Nat.one_mul] at step
  omega

/-- The first place where two lists of digits differ decides. -/
theorem lt_iff_of_find {d e : ℕ} (same : ds.length = es.length) (small : ∀ d ∈ ds, d < base) (small' : ∀ e ∈ es, e < base)
    (found : (ds.zip es).find? (fun pair => pair.1 ≠ pair.2) = some (d, e)) : value base es < value base ds ↔ e < d := by
  induction ds generalizing es with
  | nil => cases found
  | cons a ds ih =>
    cases es with
    | nil => cases found
    | cons b es =>
      have sameTail : ds.length = es.length := Nat.succ.inj same
      have small₁ : ∀ d ∈ ds, d < base := fun d member => small d (List.mem_cons_of_mem a member)
      have small₂ : ∀ e ∈ es, e < base := fun e member => small' e (List.mem_cons_of_mem b member)
      rw [List.zip_cons_cons, List.find?_cons] at found
      obtain differ | equal := ne_or_eq a b
      · rw [decide_eq_true differ] at found
        obtain ⟨rfl, rfl⟩ : a = d ∧ b = e := by simpa using found
        obtain less | more := differ.lt_or_gt
        · have := lt_of_cons_lt less sameTail small₁
          omega
        · have := lt_of_cons_lt more sameTail.symm small₂
          omega
      · subst equal
        rw [decide_eq_false (not_not.mpr rfl)] at found
        rw [value_cons, value_cons, ← sameTail, Nat.add_lt_add_iff_left]
        exact ih sameTail small₁ small₂ found

theorem eq_of_find (same : ds.length = es.length) (found : (ds.zip es).find? (fun pair => pair.1 ≠ pair.2) = none) : ds = es := by
  simp only [List.find?_eq_none, ne_eq, decide_eq_true_eq, not_not] at found
  refine List.ext_getElem same fun i bound bound' => ?_
  have member : (ds.zip es)[i]? = some (ds[i], es[i]) :=
    List.getElem?_zip_eq_some.mpr ⟨List.getElem?_eq_getElem bound, List.getElem?_eq_getElem bound'⟩
  exact found _ (List.mem_of_getElem? member)

end Horner
