import Thera.Model.Compiler.Compile

/-! # Hereditary properties of syntax

What the emitter compiles besides an expression it is given: its parts, and the expressions of the
statements in its blocks. A property that passes from an expression to these holds of everything that is
compiled along the way.
-/

namespace Thera.Compiler

mutual

/-- The expressions a statement compiles directly. -/
def Stmt.children : Stmt → List Expr
  | .let _ _ _ _ value | .throw _ value | .expr _ value => [value]
  | .return _ value => value.toList
  | .assign _ target op value => [target, assignValue target op value]
  | .if _ condition thenBlock elseBlock => condition :: (Block.children thenBlock ++ optChildren elseBlock)
  | .for _ _ iterable body => iterable :: Block.children body
  | .while _ condition body => condition :: Block.children body
  | .break _ | .continue _ => []

def stmtsChildren : List Stmt → List Expr
  | [] => []
  | s :: rest => Stmt.children s ++ stmtsChildren rest

def Block.children : Block → List Expr
  | .mk stmts tail => stmtsChildren stmts ++ tail.toList

def optChildren : Option Block → List Expr
  | none => []
  | some b => Block.children b

end

/-- The expressions an expression compiles directly. -/
def Expr.children : Expr → List Expr
  | .str _ parts => parts.filterMap fun part => match part with
      | .text .. => none
      | .interp _ e => some e
  | .listLit _ items => items
  | .mapLit _ entries => entries.flatMap fun entry => [entry.key, entry.value]
  | .struct _ _ _ fields => fields.map FieldInit.value
  | .call _ callee _ _ args => callee :: args.map CallArg.value
  | .field _ object _ => [object]
  | .index _ object i => [object, i]
  | .binary _ left _ right => [left, right]
  | .unary _ _ operand => [operand]
  | .propagate _ inner => [inner]
  | .range _ start stop => [start, stop]
  | .match _ _ subject arms => subject :: arms.map MatchArm.body
  | .lambda _ _ body => [body]
  | .block _ b => b.children
  | .if _ condition thenBlock elseBlock => condition :: (thenBlock.children ++ optChildren elseBlock)
  | .return _ value => value.toList
  | .throw _ value => [value]
  | .int .. | .float .. | .bool .. | .unit _ | .ident .. | .loc _ | .error _ => []

theorem mem_stmtsChildren {s : Stmt} {stmts : List Stmt} (member : s ∈ stmts) : s.children ⊆ stmtsChildren stmts := by
  induction stmts with
  | nil => simp at member
  | cons head rest ih =>
    rw [stmtsChildren]
    rcases List.mem_cons.mp member with rfl | inRest
    · exact List.subset_append_left _ _
    · exact List.Subset.trans (ih inRest) (List.subset_append_right _ _)

/-! ## Jumps out of a loop -/

mutual

/-- Whether a statement is, or has in a branch, a `break` or `continue` of the loop around it. -/
def Stmt.leaves : Stmt → Bool
  | .break _ | .continue _ => true
  | .if _ _ thenBlock elseBlock => Block.leaves thenBlock || optLeaves elseBlock
  | _ => false

def stmtsLeave : List Stmt → Bool
  | [] => false
  | s :: rest => Stmt.leaves s || stmtsLeave rest

def Block.leaves : Block → Bool
  | .mk stmts _ => stmtsLeave stmts

def optLeaves : Option Block → Bool
  | none => false
  | some b => Block.leaves b

end

mutual

/-- The expressions of a statement whose jumps belong to the loop around it. -/
def Stmt.sameLoop : Stmt → List Expr
  | .let _ _ _ _ value | .throw _ value | .expr _ value => [value]
  | .return _ value => value.toList
  | .assign _ target op value => [target, assignValue target op value]
  | .if _ condition thenBlock elseBlock => condition :: (Block.sameLoop thenBlock ++ optSameLoop elseBlock)
  | .for _ _ iterable _ => [iterable]
  | .while _ condition _ => [condition]
  | .break _ | .continue _ => []

def stmtsSameLoop : List Stmt → List Expr
  | [] => []
  | s :: rest => Stmt.sameLoop s ++ stmtsSameLoop rest

def Block.sameLoop : Block → List Expr
  | .mk stmts tail => stmtsSameLoop stmts ++ tail.toList

def optSameLoop : Option Block → List Expr
  | none => []
  | some b => Block.sameLoop b

end

mutual

/-- The expressions of a statement evaluated while an operand of it may be on the stack. -/
def Stmt.held : Stmt → List Expr
  | .assign _ target op value => [assignValue target op value]
  | .if _ _ thenBlock elseBlock => Block.held thenBlock ++ optHeld elseBlock
  | .for _ _ _ body | .while _ _ body => Block.held body
  | _ => []

def stmtsHeld : List Stmt → List Expr
  | [] => []
  | s :: rest => Stmt.held s ++ stmtsHeld rest

def Block.held : Block → List Expr
  | .mk stmts _ => stmtsHeld stmts

def optHeld : Option Block → List Expr
  | none => []
  | some b => Block.held b

end

/-- The expressions under an interpolation. -/
def StringPart.value? : StringPart → Option Expr
  | .text .. => none
  | .interp _ e => some e

namespace Expr

/-- Whether a block of the expression has a `break` or `continue` of the loop around the expression. -/
def leaves : Expr → Bool
  | .block _ b => b.leaves
  | .if _ _ thenBlock elseBlock => thenBlock.leaves || optLeaves elseBlock
  | _ => false

/-- The parts of an expression whose jumps belong to the loop around it: not the body of a lambda. -/
def sameLoop : Expr → List Expr
  | .lambda .. => []
  | .block _ b => b.sameLoop
  | .if _ condition thenBlock elseBlock => condition :: (thenBlock.sameLoop ++ optSameLoop elseBlock)
  | e => e.children

/-- The parts evaluated while an earlier operand may be on the stack. Arguments and field initializers are
evaluated in the order of their declaration, so any of them may come second. -/
def held : Expr → List Expr
  | .str _ parts => parts.tail.filterMap StringPart.value?
  | .listLit _ items => items.tail
  | .mapLit _ entries => (entries.flatMap fun entry => [entry.key, entry.value]).tail
  | .struct _ _ _ fields => fields.map FieldInit.value
  | .call _ _ _ _ args => args.map CallArg.value
  | .index _ _ i => [i]
  | .binary _ _ op right => if op = "&&" ∨ op = "||" then [] else [right]
  | .block _ b => b.held
  | .if _ _ thenBlock elseBlock => thenBlock.held ++ optHeld elseBlock
  | _ => []

end Expr

/-- An expression with a `break` or `continue` of the loop around it. -/
inductive Loose : Expr → Prop
  | here {e : Expr} (leaves : e.leaves = true) : Loose e
  | inside {e e' : Expr} (member : e' ∈ e.sameLoop) (loose : Loose e') : Loose e

/-- A block without a `break` or `continue` of the loop around it. -/
structure Block.Quiet (b : Block) : Prop where
  stays : b.leaves = false
  exprs : ∀ e ∈ b.sameLoop, ¬ Loose e

/-- A statement without a `break` or `continue` of the loop around it. -/
structure Stmt.Quiet (s : Stmt) : Prop where
  stays : s.leaves = false
  exprs : ∀ e ∈ s.sameLoop, ¬ Loose e

theorem mem_stmtsHeld {s : Stmt} {stmts : List Stmt} (member : s ∈ stmts) : s.held ⊆ stmtsHeld stmts := by
  induction stmts with
  | nil => simp at member
  | cons head rest ih =>
    rw [stmtsHeld]
    rcases List.mem_cons.mp member with rfl | inRest
    · exact List.subset_append_left _ _
    · exact List.Subset.trans (ih inRest) (List.subset_append_right _ _)

theorem Block.Quiet.stmt {b : Block} (quiet : b.Quiet) {s : Stmt} (member : s ∈ b.stmts) : s.Quiet := by
  obtain ⟨stmts, tail⟩ := b
  have exprs : ∀ e ∈ stmtsSameLoop stmts, ¬ Loose e := fun e inside => quiet.exprs e (List.mem_append_left _ inside)
  have stays : stmtsLeave stmts = false := quiet.stays
  change s ∈ stmts at member
  clear quiet
  induction stmts with
  | nil => simp at member
  | cons head rest ih =>
    rw [stmtsLeave, Bool.or_eq_false_iff] at stays
    rw [stmtsSameLoop] at exprs
    rcases List.mem_cons.mp member with rfl | inRest
    · exact ⟨stays.1, fun e inside => exprs e (List.mem_append_left _ inside)⟩
    · exact ih (fun e inside => exprs e (List.mem_append_right _ inside)) stays.2 inRest

theorem Block.Quiet.tail {b : Block} (quiet : b.Quiet) {e : Expr} (tail : b.tail = some e) : ¬ Loose e := by
  obtain ⟨stmts, _⟩ := b
  cases tail
  exact quiet.exprs e (List.mem_append_right _ (by simp))

/-! ## Hereditary properties -/

/-- A property of expressions and patterns that whatever they compile inherits. It may ask for code that is
balanced: then no `break` or `continue` stands in an operand, and a `match` has an arm. -/
structure Hereditary where
  expr : Expr → Prop
  pattern : Pattern → Prop
  child : ∀ {e e' : Expr}, expr e → e' ∈ e.children → expr e'
  arm : ∀ {span : Span} {origin : MatchOrigin} {subject : Expr} {arms : List MatchArm} {arm : MatchArm},
    expr (.match span origin subject arms) → arm ∈ arms → pattern arm.pattern
  arg : ∀ {span : Span} {name : String} {args : List Pattern} {arg : Pattern},
    pattern (.constructor span name args) → arg ∈ args → pattern arg
  literal : ∀ {span : Span} {e : Expr}, pattern (.literal span e) → expr e
  /-- The expressions `#loc` is made of. -/
  int : ∀ (span : Span) (value : ℤ), expr (.int span value)
  text : ∀ (span span' : Span) (text : String), expr (.str span [.text span' text])
  balanced : Prop
  held : balanced → ∀ {e e' : Expr}, expr e → e' ∈ e.held → ¬ Loose e'
  heldLiteral : balanced → ∀ {span : Span} {e : Expr}, pattern (.literal span e) → ¬ Loose e
  arms_ne : balanced → ∀ {span : Span} {origin : MatchOrigin} {subject : Expr} {arms : List MatchArm},
    expr (.match span origin subject arms) → arms ≠ []

namespace Hereditary

/-- The property everything has. -/
def all : Hereditary where
  expr _ := True
  pattern _ := True
  child _ _ := trivial
  arm _ _ := trivial
  arg _ _ := trivial
  literal _ := trivial
  int _ _ := trivial
  text _ _ _ := trivial
  balanced := False
  held := False.elim
  heldLiteral := False.elim
  arms_ne := False.elim

variable (H : Hereditary)

structure block (b : Block) : Prop where
  exprs : ∀ e ∈ b.children, H.expr e
  held : H.balanced → ∀ e ∈ b.held, ¬ Loose e

structure stmt (s : Stmt) : Prop where
  exprs : ∀ e ∈ s.children, H.expr e
  held : H.balanced → ∀ e ∈ s.held, ¬ Loose e

/-- An expression compiled outside any loop of its own, wherever it is used. -/
structure const (e : Expr) : Prop where
  expr : H.expr e
  quiet : H.balanced → ¬ Loose e

/-- The defaults of a parameter list. -/
def params (params : List Param) : Prop := ∀ p ∈ params, ∀ e, p.defaultValue = some e → H.const e

variable {H}

theorem block_stmt {b : Block} (h : H.block b) {s : Stmt} (member : s ∈ b.stmts) : H.stmt s := by
  obtain ⟨stmts, tail⟩ := b
  refine ⟨fun e child => h.exprs e ?_, fun balanced e held => h.held balanced e ?_⟩
  · exact List.mem_append_left _ (mem_stmtsChildren member child)
  · exact mem_stmtsHeld member held

theorem block_tail {b : Block} (h : H.block b) {e : Expr} (tail : b.tail = some e) : H.expr e := by
  obtain ⟨stmts, _⟩ := b
  cases tail
  exact h.exprs e (List.mem_append_right _ (by simp))

end Hereditary

/-! ## Properties of all parts -/

/-- The patterns of a match. -/
def Expr.patterns : Expr → List Pattern
  | .match _ _ _ arms => arms.map MatchArm.pattern
  | _ => []

/-- What an expression or pattern is directly made of. -/
def parts : Expr ⊕ Pattern → List (Expr ⊕ Pattern)
  | .inl e => e.children.map .inl ++ e.patterns.map .inr
  | .inr (.constructor _ _ args) => args.map .inr
  | .inr (.literal _ e) => [.inl e]
  | .inr _ => []

/-- `inner` is a part of `outer`, at any depth, or `outer` itself. -/
def Within : Expr ⊕ Pattern → Expr ⊕ Pattern → Prop := Relation.ReflTransGen fun outer inner => inner ∈ parts outer

theorem Within.part {outer part inner : Expr ⊕ Pattern} (member : part ∈ parts outer) (within : Within part inner) :
    Within outer inner := Relation.ReflTransGen.head member within

/-- A property holds within an expression if it holds of it and within its parts. -/
theorem forall_within_iff {P : Expr ⊕ Pattern → Prop} {outer : Expr ⊕ Pattern} :
    (∀ x, Within outer x → P x) ↔ P outer ∧ ∀ part ∈ parts outer, ∀ x, Within part x → P x := by
  constructor
  · exact fun all => ⟨all outer .refl, fun part member x within => all x (within.part member)⟩
  · rintro ⟨here, inside⟩ x within
    rcases Relation.ReflTransGen.cases_head within with rfl | ⟨part, member, within⟩
    · exact here
    · exact inside part member x within

/-- Every part has the property; the literals `#loc` is made of must have it. -/
def Hereditary.everywhere (P : Expr ⊕ Pattern → Prop) (int : ∀ span value, P (.inl (.int span value)))
    (text : ∀ span span' text, P (.inl (.str span [.text span' text]))) : Hereditary where
  expr e := ∀ x, Within (.inl e) x → P x
  pattern p := ∀ x, Within (.inr p) x → P x
  child h member x within := h x (within.part (List.mem_append_left _ (List.mem_map_of_mem member)))
  arm h member x within := h x (within.part (List.mem_append_right _
    (List.mem_map_of_mem (List.mem_map_of_mem member))))
  arg h member x within := h x (within.part (List.mem_map_of_mem member))
  literal h x within := h x (within.part (List.mem_singleton_self _))
  int span value := forall_within_iff.mpr ⟨int span value, fun _ => nofun⟩
  text span span' value := forall_within_iff.mpr ⟨text span span' value, fun _ => nofun⟩
  balanced := False
  held := False.elim
  heldLiteral := False.elim
  arms_ne := False.elim

end Thera.Compiler
