import Thera.Model.Frontend.AlwaysExits

/-! # How control can leave a piece of code

`Ends code outcome` says that some execution of the code finishes with the outcome, whatever values the
data take: a condition goes either way unless it is the literal `true`, a `match` may take any arm, and any
expression may trap. An execution that does not finish has no outcome. The always-exits analysis is read
against this relation.
-/

namespace Thera.Frontend

open Thera.Compiler

/-- How an execution finishes: it runs to the end, leaves or restarts the loop around it, or leaves the
function by a return, a throw, a propagated error or a trap. -/
inductive Outcome where
  | normal
  | brk
  | cont
  | exit
  deriving DecidableEq

/-- The outcome of a `return` or `throw` from that of its value. -/
def Outcome.leaving : Outcome → Outcome
  | .normal => .exit
  | o => o

theorem Outcome.leaving_ne_normal (o : Outcome) : o.leaving ≠ .normal := by
  cases o <;> simp [leaving]

/-- The operands an expression evaluates, in order, before it does its own work; none for the expressions
that direct control. -/
def operands : Expr → Option (List Expr)
  | .int .. | .float .. | .bool .. | .unit _ | .ident .. | .lambda .. | .loc _ | .error _ => some []
  | .str _ parts => some (parts.filterMap fun part => match part with
      | .text .. => none
      | .interp _ e => some e)
  | .listLit _ items => some items
  | .mapLit _ entries => some (entries.flatMap fun entry => [entry.key, entry.value])
  | .struct _ _ _ fields => some (fields.map FieldInit.value)
  | .call _ callee _ _ args => some (callee :: args.map CallArg.value)
  | .field _ object _ => some [object]
  | .index _ object i => some [object, i]
  | .binary _ left _ right => some [left, right]
  | .unary _ _ operand => some [operand]
  | .propagate _ inner => some [inner]
  | .range _ start stop => some [start, stop]
  | .match .. | .block .. | .if .. | .return .. | .throw .. => none

/-- The literal `true`. -/
def IsTrue : Expr → Prop
  | .bool _ true => True
  | _ => False

inductive Code where
  | expr (e : Expr)
  /-- Operands evaluated one after the other. -/
  | exprs (es : List Expr)
  | stmt (s : Stmt)
  | stmts (ss : List Stmt)
  | block (b : Block)
  /-- An `if`, as a statement or an expression. -/
  | branch (condition : Expr) (thenBlock : Block) (elseBlock : Option Block)
  /-- The iterations a `for` has left. -/
  | iterations (body : Block)

/-- `Ends code outcome`: some execution of the code finishes so. -/
inductive Ends : Code → Outcome → Prop
  | exprsNil : Ends (.exprs []) .normal
  | exprsCons (first : Ends (.expr e) .normal) (after : Ends (.exprs rest) o) : Ends (.exprs (e :: rest)) o
  | exprsStop (first : Ends (.expr e) o) (stops : o ≠ .normal) : Ends (.exprs (e :: rest)) o
  | operands (strict : operands e = some es) (run : Ends (.exprs es) o) : Ends (.expr e) o
  | trap : Ends (.expr e) .exit
  -- `&&` and `||` may leave their right operand out
  | shortcut (lazy : op = "&&" ∨ op = "||") (decided : Ends (.expr left) .normal) :
      Ends (.expr (.binary span left op right)) .normal
  | matchStop (run : Ends (.expr subject) o) (stops : o ≠ .normal) :
      Ends (.expr (.match span origin subject arms)) o
  | matchArm (run : Ends (.expr subject) .normal) (taken : arm ∈ arms) (body : Ends (.expr arm.body) o) :
      Ends (.expr (.match span origin subject arms)) o
  | matchNone (run : Ends (.expr subject) .normal) : Ends (.expr (.match span origin subject [])) .normal
  | blockExpr (run : Ends (.block b) o) : Ends (.expr (.block span b)) o
  | ifExpr (run : Ends (.branch condition thenBlock elseBlock) o) :
      Ends (.expr (.if span condition thenBlock elseBlock)) o
  | returnExpr {value : Option Expr} (run : Ends (.exprs value.toList) o) :
      Ends (.expr (.return span value)) o.leaving
  | throwExpr (run : Ends (.expr value) o) : Ends (.expr (.throw span value)) o.leaving
  | branchStop (run : Ends (.expr condition) o) (stops : o ≠ .normal) :
      Ends (.branch condition thenBlock elseBlock) o
  | branchThen (run : Ends (.expr condition) .normal) (body : Ends (.block thenBlock) o) :
      Ends (.branch condition thenBlock elseBlock) o
  | branchElse (run : Ends (.expr condition) .normal) (body : Ends (.block elseBlock) o) :
      Ends (.branch condition thenBlock (some elseBlock)) o
  | branchSkip (run : Ends (.expr condition) .normal) : Ends (.branch condition thenBlock none) .normal
  | letStmt (run : Ends (.expr value) o) : Ends (.stmt (.let span isMut name typeAnn value)) o
  | assign (run : Ends (.exprs [target, assignValue target op value]) o) :
      Ends (.stmt (.assign span target op value)) o
  | exprStmt (run : Ends (.expr e) o) : Ends (.stmt (.expr span e)) o
  | returnStmt {value : Option Expr} (run : Ends (.exprs value.toList) o) :
      Ends (.stmt (.return span value)) o.leaving
  | throwStmt (run : Ends (.expr value) o) : Ends (.stmt (.throw span value)) o.leaving
  | ifStmt (run : Ends (.branch condition thenBlock elseBlock) o) :
      Ends (.stmt (.if span condition thenBlock elseBlock)) o
  | breakStmt : Ends (.stmt (.break span)) .brk
  | continueStmt : Ends (.stmt (.continue span)) .cont
  -- a `break` in the condition belongs to the loop outside
  | whileStop (run : Ends (.expr condition) o) (stops : o ≠ .normal) :
      Ends (.stmt (.while span condition body)) o
  | whileDone (run : Ends (.expr condition) .normal) (undecided : ¬ IsTrue condition) :
      Ends (.stmt (.while span condition body)) .normal
  | whileBreak (run : Ends (.expr condition) .normal) (left : Ends (.block body) .brk) :
      Ends (.stmt (.while span condition body)) .normal
  | whileExit (run : Ends (.expr condition) .normal) (left : Ends (.block body) .exit) :
      Ends (.stmt (.while span condition body)) .exit
  | whileNext (run : Ends (.expr condition) .normal) (once : Ends (.block body) o)
      (resumes : o = .normal ∨ o = .cont) (again : Ends (.stmt (.while span condition body)) o') :
      Ends (.stmt (.while span condition body)) o'
  | forStop (run : Ends (.expr iterable) o) (stops : o ≠ .normal) :
      Ends (.stmt (.for span pattern iterable body)) o
  | forStmt (run : Ends (.expr iterable) .normal) (loop : Ends (.iterations body) o) :
      Ends (.stmt (.for span pattern iterable body)) o
  | iterationsDone : Ends (.iterations body) .normal
  | iterationsTrap : Ends (.iterations body) .exit
  | iterationsBreak (left : Ends (.block body) .brk) : Ends (.iterations body) .normal
  | iterationsExit (left : Ends (.block body) .exit) : Ends (.iterations body) .exit
  | iterationsNext (once : Ends (.block body) o) (resumes : o = .normal ∨ o = .cont)
      (again : Ends (.iterations body) o') : Ends (.iterations body) o'
  | stmtsNil : Ends (.stmts []) .normal
  | stmtsCons (first : Ends (.stmt s) .normal) (after : Ends (.stmts rest) o) : Ends (.stmts (s :: rest)) o
  | stmtsStop (first : Ends (.stmt s) o) (stops : o ≠ .normal) : Ends (.stmts (s :: rest)) o
  | blockStop (run : Ends (.stmts stmts) o) (stops : o ≠ .normal) : Ends (.block (.mk stmts tail)) o
  | blockEnd (run : Ends (.stmts stmts) .normal) : Ends (.block (.mk stmts none)) .normal
  | blockTail (run : Ends (.stmts stmts) .normal) (value : Ends (.expr tail) o) :
      Ends (.block (.mk stmts (some tail))) o

/-- `FinalLoop code body`: an execution of the code can arrive at a `while true` loop with this body in a
place where nothing is left to do once the loop completes. -/
inductive FinalLoop : Code → Block → Prop
  | here : FinalLoop (.stmt (.while span (.bool span' true) body)) body
  | exprStmt (inner : FinalLoop (.expr e) body) : FinalLoop (.stmt (.expr span e)) body
  | ifStmt (inner : FinalLoop (.branch condition thenBlock elseBlock) body) :
      FinalLoop (.stmt (.if span condition thenBlock elseBlock)) body
  | ifExpr (inner : FinalLoop (.branch condition thenBlock elseBlock) body) :
      FinalLoop (.expr (.if span condition thenBlock elseBlock)) body
  | branchThen (run : Ends (.expr condition) .normal) (inner : FinalLoop (.block thenBlock) body) :
      FinalLoop (.branch condition thenBlock elseBlock) body
  | branchElse (run : Ends (.expr condition) .normal) (inner : FinalLoop (.block elseBlock) body) :
      FinalLoop (.branch condition thenBlock (some elseBlock)) body
  | matchArm (run : Ends (.expr subject) .normal) (taken : arm ∈ arms)
      (inner : FinalLoop (.expr arm.body) body) : FinalLoop (.expr (.match span origin subject arms)) body
  | blockExpr (inner : FinalLoop (.block b) body) : FinalLoop (.expr (.block span b)) body
  | last (inner : FinalLoop (.stmt s) body) : FinalLoop (.stmts [s]) body
  | later (first : Ends (.stmt s) .normal) (inner : FinalLoop (.stmts rest) body) :
      FinalLoop (.stmts (s :: rest)) body
  | blockEnd (inner : FinalLoop (.stmts stmts) body) : FinalLoop (.block (.mk stmts none)) body
  | blockTail (run : Ends (.stmts stmts) .normal) (inner : FinalLoop (.expr tail) body) :
      FinalLoop (.block (.mk stmts (some tail))) body

/-- The analysis on the code that a statement or block runs into. -/
def Code.alwaysExits : Code → Bool
  | .expr e => exprAlwaysExits e
  | .stmt s => stmtAlwaysExits s
  | .stmts ss => lastAlwaysExits ss
  | .block b => blockAlwaysExits b
  | .branch _ thenBlock (some elseBlock) => blockAlwaysExits thenBlock && blockAlwaysExits elseBlock
  | .branch _ _ none | .exprs _ | .iterations _ => false

theorem armsAlwaysExit_mem {arms : List MatchArm} (all : armsAlwaysExit arms = true) {arm : MatchArm}
    (member : arm ∈ arms) : exprAlwaysExits arm.body = true := by
  induction arms with
  | nil => cases member
  | cons head rest ih =>
    obtain ⟨span, pattern, body⟩ := head
    rw [armsAlwaysExit, Bool.and_eq_true] at all
    rcases List.mem_cons.mp member with rfl | inRest
    · exact all.1
    · exact ih all.2 inRest

/-- Only `return`, `throw`, a block, an `if` and a `match` always exit. -/
theorem exprAlwaysExits_strict {e : Expr} {es : List Expr} (strict : operands e = some es) :
    exprAlwaysExits e = false := by
  cases e <;> first | rfl | simp [operands] at strict

theorem stmtAlwaysExits_while {span : Span} {condition : Expr} {body : Block}
    (exits : stmtAlwaysExits (.while span condition body) = true) :
    (∃ span', condition = .bool span' true) ∧ blockHasBreak body = false := by
  cases condition with
  | bool span' b =>
    cases b with
    | true => exact ⟨⟨span', rfl⟩, by simpa [stmtAlwaysExits] using exits⟩
    | false => simp [stmtAlwaysExits] at exits
  | _ => simp [stmtAlwaysExits] at exits

theorem exprAlwaysExits_if {span : Span} {condition : Expr} {thenBlock : Block} {elseBlock : Option Block} :
    exprAlwaysExits (.if span condition thenBlock elseBlock) =
      (Code.branch condition thenBlock elseBlock).alwaysExits := by
  cases elseBlock <;> rfl

theorem stmtAlwaysExits_if {span : Span} {condition : Expr} {thenBlock : Block} {elseBlock : Option Block} :
    stmtAlwaysExits (.if span condition thenBlock elseBlock) =
      (Code.branch condition thenBlock elseBlock).alwaysExits := by
  cases elseBlock <;> rfl

/-- An execution of always-exiting code that runs to the end has broken out of a final loop, in which the
analysis has searched for a break and found none. -/
theorem Ends.finalLoop {code : Code} {o : Outcome} (ends : Ends code o) (completes : o = .normal)
    (exits : code.alwaysExits = true) :
    ∃ body, FinalLoop code body ∧ Ends (.block body) .brk ∧ blockHasBreak body = false := by
  induction ends with
  | exprsNil | exprsCons | exprsStop | forStop | forStmt | letStmt | assign | iterationsDone | iterationsTrap
  | iterationsBreak | iterationsExit | iterationsNext | stmtsNil | shortcut | branchSkip =>
    simp [Code.alwaysExits, stmtAlwaysExits, exprAlwaysExits, lastAlwaysExits] at exits
  | trap | breakStmt | continueStmt | whileExit => cases completes
  | matchStop _ stops | branchStop _ stops | whileStop _ stops | stmtsStop _ stops | blockStop _ stops =>
    exact absurd completes stops
  | returnExpr | throwExpr | returnStmt | throwStmt => exact absurd completes (Outcome.leaving_ne_normal _)
  | operands strict =>
    rw [Code.alwaysExits, exprAlwaysExits_strict strict] at exits
    cases exits
  | matchNone => simp [Code.alwaysExits, exprAlwaysExits] at exits
  | matchArm run taken body _ ih =>
    simp only [Code.alwaysExits, exprAlwaysExits, Bool.and_eq_true] at exits
    obtain ⟨loop, final, left⟩ := ih completes (armsAlwaysExit_mem exits.1 taken)
    exact ⟨loop, .matchArm run taken final, left⟩
  | blockExpr run ih =>
    obtain ⟨loop, final, left⟩ := ih completes exits
    exact ⟨loop, .blockExpr final, left⟩
  | ifExpr run ih =>
    obtain ⟨loop, final, left⟩ := ih completes (exprAlwaysExits_if.symm.trans exits)
    exact ⟨loop, .ifExpr final, left⟩
  | ifStmt run ih =>
    obtain ⟨loop, final, left⟩ := ih completes (stmtAlwaysExits_if.symm.trans exits)
    exact ⟨loop, .ifStmt final, left⟩
  | @branchThen _ _ _ elseBlock run body _ ih =>
    cases elseBlock with
    | none => cases exits
    | some elseBlock =>
      rw [Code.alwaysExits, Bool.and_eq_true] at exits
      obtain ⟨loop, final, left⟩ := ih completes exits.1
      exact ⟨loop, .branchThen run final, left⟩
  | branchElse run body _ ih =>
    rw [Code.alwaysExits, Bool.and_eq_true] at exits
    obtain ⟨loop, final, left⟩ := ih completes exits.2
    exact ⟨loop, .branchElse run final, left⟩
  | exprStmt run ih =>
    obtain ⟨loop, final, left⟩ := ih completes exits
    exact ⟨loop, .exprStmt final, left⟩
  | whileDone run undecided =>
    obtain ⟨⟨span', rfl⟩, _⟩ := stmtAlwaysExits_while exits
    exact absurd trivial undecided
  | whileBreak run left =>
    obtain ⟨⟨span', rfl⟩, unbroken⟩ := stmtAlwaysExits_while exits
    exact ⟨_, .here, left, unbroken⟩
  | whileNext run once resumes again _ _ ih => exact ih completes exits
  | @stmtsCons _ rest _ first after ihFirst ihAfter =>
    -- the analysis looks at the last statement only
    cases rest with
    | nil =>
      obtain ⟨loop, final, left⟩ := ihFirst rfl exits
      exact ⟨loop, .last final, left⟩
    | cons next rest =>
      obtain ⟨loop, final, left⟩ := ihAfter completes exits
      exact ⟨loop, .later first final, left⟩
  | blockEnd run ih =>
    obtain ⟨loop, final, left⟩ := ih rfl exits
    exact ⟨loop, .blockEnd final, left⟩
  | blockTail run value _ ih =>
    obtain ⟨loop, final, left⟩ := ih completes exits
    exact ⟨loop, .blockTail run final, left⟩

theorem Ends.true {span : Span} : Ends (.expr (.bool span true)) .normal :=
  .operands rfl .exprsNil

/-- Breaking out of a final loop runs the code to its end. -/
theorem FinalLoop.completes {code : Code} {body : Block} (final : FinalLoop code body)
    (left : Ends (.block body) .brk) : Ends code .normal := by
  induction final with
  | here => exact .whileBreak .true left
  | exprStmt _ ih => exact .exprStmt (ih left)
  | ifStmt _ ih => exact .ifStmt (ih left)
  | ifExpr _ ih => exact .ifExpr (ih left)
  | branchThen run _ ih => exact .branchThen run (ih left)
  | branchElse run _ ih => exact .branchElse run (ih left)
  | matchArm run taken _ ih => exact .matchArm run taken (ih left)
  | blockExpr _ ih => exact .blockExpr (ih left)
  | last _ ih => exact .stmtsCons (ih left) .stmtsNil
  | later first _ ih => exact .stmtsCons first (ih left)
  | blockEnd _ ih => exact .blockEnd (ih left)
  | blockTail run _ ih => exact .blockTail run (ih left)

/-- Code the analysis says always exits never completes, exactly when the break search sees every break
that can leave one of its final loops. -/
theorem Code.never_completes_iff {code : Code} (exits : code.alwaysExits = true) :
    ¬ Ends code .normal ↔
      ∀ body, FinalLoop code body → Ends (.block body) .brk → blockHasBreak body = true := by
  constructor
  · intro never body final left
    exact absurd (final.completes left) never
  · intro seen completes
    obtain ⟨body, final, left, unbroken⟩ := completes.finalLoop rfl exits
    exact Bool.false_ne_true (unbroken.symm.trans (seen body final left))

end Thera.Frontend
