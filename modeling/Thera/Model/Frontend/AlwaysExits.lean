import Thera.Model.Compiler.Ast

/-! # The checker's always-exits analysis

Whether an expression, block or statement is sure to leave the function, and the search for the `break`s
of a loop that it uses for `while true`. The loops of the source over arms and statements are functions
on the lists.
-/

namespace Thera.Frontend

open Thera.Compiler

/-! ## The break search -/

mutual

def exprHasBreak : Expr → Bool
  | .block _ b => blockHasBreak b
  | .if _ _ thenBlock elseBlock => blockHasBreak thenBlock || optBlockHasBreak elseBlock
  | .match _ _ _ arms => armsHaveBreak arms
  | _ => false

/-- A loop owns its breaks, so its body is not searched. -/
def stmtHasBreak : Stmt → Bool
  | .break _ => true
  | .if _ _ thenBlock elseBlock => blockHasBreak thenBlock || optBlockHasBreak elseBlock
  | .expr _ e => exprHasBreak e
  | _ => false

/-- Whether a block contains a `break` of the loop around it, where the search looks. -/
def blockHasBreak : Block → Bool
  | .mk stmts tail => stmtsHaveBreak stmts || optExprHasBreak tail

def armsHaveBreak : List MatchArm → Bool
  | [] => false
  | .mk _ _ body :: rest => exprHasBreak body || armsHaveBreak rest

def stmtsHaveBreak : List Stmt → Bool
  | [] => false
  | s :: rest => stmtHasBreak s || stmtsHaveBreak rest

def optBlockHasBreak : Option Block → Bool
  | none => false
  | some b => blockHasBreak b

def optExprHasBreak : Option Expr → Bool
  | none => false
  | some e => exprHasBreak e

end

/-! ## The analysis -/

mutual

def exprAlwaysExits : Expr → Bool
  | .return .. => true
  | .throw .. => true
  | .block _ b => blockAlwaysExits b
  | .if _ _ thenBlock (some elseBlock) => blockAlwaysExits thenBlock && blockAlwaysExits elseBlock
  | .match _ _ _ arms => armsAlwaysExit arms && decide (0 < arms.length)
  | _ => false

/-- The tail decides, or else the last statement. -/
def blockAlwaysExits : Block → Bool
  | .mk _ (some tail) => exprAlwaysExits tail
  | .mk stmts none => lastAlwaysExits stmts

def stmtAlwaysExits : Stmt → Bool
  | .return .. => true
  | .throw .. => true
  | .expr _ e => exprAlwaysExits e
  | .if _ _ thenBlock (some elseBlock) => blockAlwaysExits thenBlock && blockAlwaysExits elseBlock
  | .while _ (.bool _ b) body => b && !blockHasBreak body
  | _ => false

def armsAlwaysExit : List MatchArm → Bool
  | [] => true
  | .mk _ _ body :: rest => exprAlwaysExits body && armsAlwaysExit rest

def lastAlwaysExits : List Stmt → Bool
  | [] => false
  | [s] => stmtAlwaysExits s
  | _ :: next :: rest => lastAlwaysExits (next :: rest)

end

end Thera.Frontend
