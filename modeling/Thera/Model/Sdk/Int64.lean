import Thera.Model.Sdk.Scan

/-! # Arithmetic on `Int`

An `Int` has 64 bits; its arithmetic wraps around, and division rounds toward zero.
-/

namespace Thera.Sdk

instance (n : ℕ) : OfNat I64 n := ⟨wrapI64 n⟩

instance : Neg I64 := ⟨fun a => wrapI64 (-a.1)⟩

instance : Add I64 := ⟨fun a b => wrapI64 (a.1 + b.1)⟩

instance : Sub I64 := ⟨fun a b => wrapI64 (a.1 - b.1)⟩

instance : Mul I64 := ⟨fun a b => wrapI64 (a.1 * b.1)⟩

instance : Div I64 := ⟨fun a b => wrapI64 (a.1.tdiv b.1)⟩

instance : Mod I64 := ⟨fun a b => wrapI64 (a.1.tmod b.1)⟩

instance : LE I64 := ⟨fun a b => a.1 ≤ b.1⟩

instance : LT I64 := ⟨fun a b => a.1 < b.1⟩

instance (a b : I64) : Decidable (a ≤ b) := inferInstanceAs (Decidable (a.1 ≤ b.1))

instance (a b : I64) : Decidable (a < b) := inferInstanceAs (Decidable (a.1 < b.1))

end Thera.Sdk
