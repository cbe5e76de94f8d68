import Thera.Proofs.Compiler.Boxing

/-! # Closure conversion and scoping

Which locals live in a cell is decided by name, once per function; which slot a name stands for is decided
by scope. The two agree on every access exactly when no access to a boxed name finds a binding that keeps
its value in the slot itself.
-/

namespace Thera.Compiler

/-- The binding an access resolves to keeps a plain value in its slot: a parameter, the variable of a loop
or a pattern, or a variable captured by value. -/
def Access.Plain (a : Access) : Prop :=
  a.binder = some .parameter ∨ a.binder = some .loop ∨ a.binder = some .temporary ∨
    a.binder = some .capture ∧ a.holdsCell = false

theorem Access.Sound.consistent_iff {a : Access} (sound : a.Sound) :
    a.throughCell = a.holdsCell ↔ (a.throughCell = true → ¬ a.Plain) := by
  constructor
  · rintro same boxed (bound | bound | bound | ⟨_, plain⟩)
    case inr.inr.inr => simp [← same, boxed] at plain
    all_goals rcases sound.binder (same ▸ boxed) with other | other <;> cases bound.symm.trans other
  · intro found
    cases holds : a.holdsCell with
    | true => exact sound.named holds
    | false =>
      refine Bool.eq_false_iff.mpr fun boxed => ?_
      cases bound : a.binder with
      | none => exact sound.known bound
      | some binder =>
        cases binder with
        | «let» => simp [sound.declared bound boxed] at holds
        | parameter => exact found boxed (.inl bound)
        | loop => exact found boxed (.inr (.inl bound))
        | temporary => exact found boxed (.inr (.inr (.inl bound)))
        | capture => exact found boxed (.inr (.inr (.inr ⟨bound, holds⟩)))

/-- `fn f(x) { let mut n = x; let g = () => n; n = 2; }`. -/
def sharedLocal : Program := oneFunction [⟨noSpan, some "x", false, "x", none, none⟩]
  [.let noSpan true "n" none (.ident noSpan "x"), .let noSpan false "g" none (.lambda noSpan [] (.ident noSpan "n")),
    .assign noSpan (.ident noSpan "n") none (.int noSpan 2)]

/-- `fn f(x) { if true { let mut x = 1; let g = () => x; } return x; }`. -/
def shadowedParameter : Program := oneFunction [⟨noSpan, some "x", false, "x", none, none⟩]
  [.if noSpan (.bool noSpan true)
    (.mk [.let noSpan true "x" none (.int noSpan 1), .let noSpan false "g" none (.lambda noSpan [] (.ident noSpan "x"))]
      none) none,
    .return noSpan (some (.ident noSpan "x"))]

end Thera.Compiler
