import Mathlib

/-! # Lists that grow at their end -/

namespace List

variable {α : Type} {xs ys : List α} {x y : α} {i : ℕ}

/-- What stood in the shorter list stands in the longer one. -/
theorem IsPrefix.getElem?_some (grows : xs <+: ys) (there : xs[i]? = some x) : ys[i]? = some x := by
  obtain ⟨rest, rfl⟩ := grows
  rw [getElem?_append_left (getElem?_eq_some_iff.mp there).1, there]

theorem getElem?_concat_iff : (xs ++ [y])[i]? = some x ↔ xs[i]? = some x ∨ i = xs.length ∧ y = x := by
  rcases Nat.lt_trichotomy i xs.length with before | rfl | after
  · simp [getElem?_append, before, before.ne]
  · simp
  · simp [after.ne', after.le, after]

end List
