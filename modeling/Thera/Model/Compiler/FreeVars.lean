import Thera.Model.Compiler.ModuleScope

/-! # Closure analysis

One structural walk over a body drives both analyses: which names a lambda uses without binding them,
and which mutable locals of a function some lambda captures. The walk keeps the names bound so far; a
visitor supplies what differs.
-/

namespace Thera.Compiler

structure TreeVisitor (σ : Type) where
  /-- An identifier that is not bound where it stands. -/
  freeRef : String → σ → σ
  /-- A `mut` declaration. -/
  mutLocal : String → σ → σ
  /-- A lambda, and whether its body is part of the walk. -/
  enterLambda : List LambdaParam → Expr → σ → Bool × σ

mutual

def patternBindings : Pattern → List String
  | .ident _ name => [name]
  | .constructor _ _ args => patternsBindings args
  | .wildcard _ | .literal .. => []

def patternsBindings : List Pattern → List String
  | [] => []
  | pattern :: rest => patternBindings pattern ++ patternsBindings rest

end

section

variable {σ : Type} (v : TreeVisitor σ)

mutual

def walkExpr (e : Expr) (bound : List String) (st : σ) : σ :=
  match e with
  | .ident _ name => if name ∈ bound then st else v.freeRef name st
  | .int .. | .float .. | .bool .. | .unit _ | .loc _ | .error _ => st
  | .str _ parts => walkParts parts bound st
  | .listLit _ items => walkExprs items bound st
  | .mapLit _ entries => walkEntries entries bound st
  | .struct _ _ _ fields => walkFields fields bound st
  | .call _ callee _ _ args => walkArgs args bound (walkExpr callee bound st)
  | .field _ object _ => walkExpr object bound st
  | .index _ object index => walkExpr index bound (walkExpr object bound st)
  | .binary _ left _ right => walkExpr right bound (walkExpr left bound st)
  | .unary _ _ operand => walkExpr operand bound st
  | .propagate _ inner => walkExpr inner bound st
  | .range _ start stop => walkExpr stop bound (walkExpr start bound st)
  | .match _ _ subject arms => walkArms arms bound (walkExpr subject bound st)
  | .lambda _ params body =>
      let (descend, st) := v.enterLambda params body st
      if descend then walkExpr body (params.map LambdaParam.name ++ bound) st else st
  | .block _ block => walkBlock block bound st
  | .if _ condition thenBlock elseBlock =>
      walkOptBlock elseBlock bound (walkBlock thenBlock bound (walkExpr condition bound st))
  | .return _ value => walkOptExpr value bound st
  | .throw _ value => walkExpr value bound st

def walkExprs (es : List Expr) (bound : List String) (st : σ) : σ :=
  match es with
  | [] => st
  | e :: rest => walkExprs rest bound (walkExpr e bound st)

def walkOptExpr (e : Option Expr) (bound : List String) (st : σ) : σ :=
  match e with
  | none => st
  | some e => walkExpr e bound st

def walkParts (parts : List StringPart) (bound : List String) (st : σ) : σ :=
  match parts with
  | [] => st
  | .text .. :: rest => walkParts rest bound st
  | .interp _ e :: rest => walkParts rest bound (walkExpr e bound st)

def walkEntries (entries : List MapEntry) (bound : List String) (st : σ) : σ :=
  match entries with
  | [] => st
  | .mk key value :: rest => walkEntries rest bound (walkExpr value bound (walkExpr key bound st))

def walkFields (fields : List FieldInit) (bound : List String) (st : σ) : σ :=
  match fields with
  | [] => st
  | .mk _ _ value :: rest => walkFields rest bound (walkExpr value bound st)

def walkArgs (args : List CallArg) (bound : List String) (st : σ) : σ :=
  match args with
  | [] => st
  | .mk _ _ value :: rest => walkArgs rest bound (walkExpr value bound st)

def walkArms (arms : List MatchArm) (bound : List String) (st : σ) : σ :=
  match arms with
  | [] => st
  | .mk _ pattern body :: rest => walkArms rest bound (walkExpr body (patternBindings pattern ++ bound) st)

def walkBlock (b : Block) (bound : List String) (st : σ) : σ :=
  match b with
  | .mk stmts tail =>
      let (bound, st) := walkStmts stmts bound st
      walkOptExpr tail bound st

def walkOptBlock (b : Option Block) (bound : List String) (st : σ) : σ :=
  match b with
  | none => st
  | some b => walkBlock b bound st

/-- A `let` binds its name for the statements after it. -/
def walkStmts (stmts : List Stmt) (bound : List String) (st : σ) : List String × σ :=
  match stmts with
  | [] => (bound, st)
  | s :: rest =>
      let (bound, st) := walkStmt s bound st
      walkStmts rest bound st

def walkStmt (s : Stmt) (bound : List String) (st : σ) : List String × σ :=
  match s with
  | .let _ isMut name _ value =>
      let st := walkExpr value bound st
      (name :: bound, if isMut then v.mutLocal name st else st)
  | .assign _ target _ value => (bound, walkExpr value bound (walkExpr target bound st))
  | .expr _ e => (bound, walkExpr e bound st)
  | .return _ value => (bound, walkOptExpr value bound st)
  | .throw _ value => (bound, walkExpr value bound st)
  | .if _ condition thenBlock elseBlock =>
      (bound, walkOptBlock elseBlock bound (walkBlock thenBlock bound (walkExpr condition bound st)))
  | .while _ condition body => (bound, walkBlock body bound (walkExpr condition bound st))
  | .for _ pattern iterable body =>
      (bound, walkBlock body (patternBindings pattern ++ bound) (walkExpr iterable bound st))
  | .break _ | .continue _ => (bound, st)

end

end

/-- Collects each unbound identifier once, in the order of first reference. -/
def freeVars : TreeVisitor (List String) where
  freeRef name free := addTo free name
  mutLocal _ free := free
  enterLambda _ _ free := (true, free)

/-- A function's own `mut` locals and its outermost lambdas. -/
structure BoxScan where
  muts : List String
  lambdas : List (List LambdaParam × Expr)

def boxScan : TreeVisitor BoxScan where
  freeRef _ scan := scan
  mutLocal name scan := { scan with muts := addTo scan.muts name }
  enterLambda params body scan := (false, { scan with lambdas := scan.lambdas ++ [(params, body)] })

/-- What a lambda refers to and does not bind itself, in the order of first reference. -/
def freeVariables (params : List LambdaParam) (body : Expr) : List String :=
  walkExpr freeVars body (params.map LambdaParam.name) []

/-- The mutable locals of a body that a lambda in it captures; these live in cells. -/
def boxedMutLocals (body : Block) : List String :=
  let scan := walkBlock boxScan body [] ⟨[], []⟩
  let captured := scan.lambdas.flatMap fun (params, body) => freeVariables params body
  scan.muts.filter (· ∈ captured)

/-- The unit a lambda becomes: the captures lead its parameters, and it returns the lambda's body. -/
def liftLambda (span : Span) (params : List LambdaParam) (body : Expr) (captures : List String) : FnDecl where
  span := span
  decorators := []
  isNative := false
  name := "<lambda>"
  typeParams := []
  params := captures.map (fun c => ⟨span, some c, false, c, none, none⟩) ++
    params.map (fun p => ⟨p.span, some p.name, false, p.name, p.typeAnn, none⟩)
  returnType := none
  body := some (.mk [.return span (some body)] none)

/-! ## The order of global initializers -/

/-- A global's owner-qualified identity. -/
def globalKey (g : GlobalInit) : String := typeKey (fileKey g.file) g.name

/-- The globals an initializer names directly, as keys. -/
def globalInitDeps (library : Library) (scope : ModuleScope) (g : GlobalInit) : List String :=
  (walkExpr freeVars g.value [] []).filterMap fun name =>
    (scope.resolveGlobalOwner library g.file name).map fun owner => typeKey owner name

/-- The nodes being visited and those done, with the order and the errors so far. -/
structure InitOrder where
  visiting : List String
  done : List String
  ordered : List GlobalInit
  errors : List Diagnostic

/-- Visit a global after the globals its initializer names; a back edge is a cycle. -/
def visitGlobalInit (library : Library) (scope : ModuleScope) (byKey : Table String GlobalInit) :
    ℕ → GlobalInit → InitOrder → Option InitOrder
  | 0, _, _ => none
  | fuel + 1, g, order =>
      let key := globalKey g
      if key ∈ order.visiting then
        let message := s!"module-level `let` initializer cycle through `{g.name}`"
        some { order with errors := order.errors ++ [.at message g.span] }
      else if key ∈ order.done then some order
      else do
        let order ← (globalInitDeps library scope g).foldlM (fun order dep =>
          match byKey.get dep with
          | some g => visitGlobalInit library scope byKey fuel g order
          | none => some order) { order with visiting := key :: order.visiting }
        return { order with
          visiting := order.visiting.erase key, done := key :: order.done, ordered := order.ordered ++ [g] }

/-- Each initializer after the globals it names, otherwise in registration order. -/
def orderGlobalInits (library : Library) (scope : ModuleScope) (errors : List Diagnostic) (fuel : ℕ) :
    Option (List GlobalInit × List Diagnostic) := do
  let byKey := scope.globalInits.foldl (fun table g => Table.set table (globalKey g) g) []
  let order ← scope.globalInits.foldlM (fun order g => visitGlobalInit library scope byKey fuel g order)
    ⟨[], [], [], errors⟩
  return (order.ordered, order.errors)

end Thera.Compiler
