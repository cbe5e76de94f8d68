import Thera.Model.Sdk.Int64

/-! # Arithmetic that stays in range

Where the exact result fits 64 bits, it is what the operation computes. Each rule goes from the values of the operands
to the value of the result.
-/

namespace Thera.Sdk

abbrev InRange (n : ℤ) : Prop := -2 ^ 63 ≤ n ∧ n < 2 ^ 63

theorem wrapI64_val {n : ℤ} (range : InRange n) : (wrapI64 n).1 = n := by
  show (n + 2 ^ 63) % 2 ^ 64 - 2 ^ 63 = n
  omega

section

variable {a b : I64} {x y : ℤ}

theorem I64.ext (same : a.1 = b.1) : a = b := Subtype.ext same

section

variable (left : a.1 = x)

include left

theorem neg_val (range : InRange (-x)) : (-a).1 = -x := by
  subst left
  exact wrapI64_val range

theorem add_val (right : b.1 = y) (range : InRange (x + y)) : (a + b).1 = x + y := by
  subst left right
  exact wrapI64_val range

theorem sub_val (right : b.1 = y) (range : InRange (x - y)) : (a - b).1 = x - y := by
  subst left right
  exact wrapI64_val range

theorem mul_val (right : b.1 = y) (range : InRange (x * y)) : (a * b).1 = x * y := by
  subst left right
  exact wrapI64_val range

theorem div_val (right : b.1 = y) (nonneg : 0 ≤ x) (pos : 0 < y) : (a / b).1 = x / y := by
  subst left right
  have exact_quotient : a.1.tdiv b.1 = a.1 / b.1 := Int.tdiv_eq_ediv_of_nonneg nonneg
  have le : a.1 / b.1 ≤ a.1 := Int.ediv_le_self _ nonneg
  have quotient_nonneg : 0 ≤ a.1 / b.1 := Int.ediv_nonneg nonneg pos.le
  have range := a.2
  show (wrapI64 (a.1.tdiv b.1)).1 = _
  rw [exact_quotient]
  exact wrapI64_val (by omega)

/-- A negative dividend is rounded up. -/
theorem div_val_neg (right : b.1 = y) (nonpos : x ≤ 0) (one_lt : 1 < y) : (a / b).1 = -(-x / y) := by
  subst left right
  have exact_quotient : a.1.tdiv b.1 = -(-a.1 / b.1) := by
    rw [← Int.tdiv_eq_ediv_of_nonneg (by omega), Int.neg_tdiv, neg_neg]
  have le : -a.1 / b.1 ≤ -a.1 := Int.ediv_le_self _ (by omega)
  have quotient_nonneg : 0 ≤ -a.1 / b.1 := Int.ediv_nonneg (by omega) (by omega)
  have range := a.2
  show (wrapI64 (a.1.tdiv b.1)).1 = _
  rw [exact_quotient]
  exact wrapI64_val (by omega)

theorem mod_val (right : b.1 = y) (nonneg : 0 ≤ x) (pos : 0 < y) : (a % b).1 = x % y := by
  subst left right
  have exact_rest : a.1.tmod b.1 = a.1 % b.1 := Int.tmod_eq_emod_of_nonneg nonneg
  have lt : a.1 % b.1 < b.1 := Int.emod_lt_of_pos _ pos
  have rest_nonneg : 0 ≤ a.1 % b.1 := Int.emod_nonneg _ pos.ne'
  have range := b.2
  show (wrapI64 (a.1.tmod b.1)).1 = _
  rw [exact_rest]
  exact wrapI64_val (by omega)

/-- A negative dividend's rest is negative. -/
theorem mod_val_neg (right : b.1 = y) (nonpos : x ≤ 0) (pos : 0 < y) : (a % b).1 = -(-x % y) := by
  subst left right
  have exact_rest : a.1.tmod b.1 = -(-a.1 % b.1) := by
    rw [← Int.tmod_eq_emod_of_nonneg (by omega), Int.neg_tmod, neg_neg]
  have lt : -a.1 % b.1 < b.1 := Int.emod_lt_of_pos _ pos
  have rest_nonneg : 0 ≤ -a.1 % b.1 := Int.emod_nonneg _ pos.ne'
  have range := b.2
  show (wrapI64 (a.1.tmod b.1)).1 = _
  rw [exact_rest]
  exact wrapI64_val (by omega)

end

end

end Thera.Sdk
