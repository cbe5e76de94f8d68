import Thera.Proofs.Frontend.ControlFlow

/-! # Definite return

A function that declares a value must not fall off the end of its body; the checker accepts the body when
its always-exits analysis does. The analysis is right about everything but `while true`: it takes such a loop to run
forever when its search finds no `break`, and the search does not look into initializers, operands and
other value positions.
-/

namespace Thera.Frontend

open Thera.Compiler

/-- `while true { return; }`. -/
def returningLoop (span : Span) : Stmt := .while span (.bool span true) (.mk [.return span none] none)

theorem return_never_breaks (span : Span) : ¬ Ends (.block (.mk [.return span none] none)) .brk := by
  intro left
  have bare : ∀ o, Ends (.stmt (.return span none)) o → o = .exit := by
    intro o run
    cases run with
    | returnStmt value =>
      cases value
      rfl
  cases left with
  | blockStop run =>
    cases run with
    | stmtsCons first | stmtsStop first => cases bare _ first

/-- `while true { let x = { break; }; }`. -/
def hiddenBreakLoop (span : Span) : Stmt :=
  .while span (.bool span true)
    (.mk [.let span false "x" none (.block span (.mk [.break span] none))] none)

end Thera.Frontend
