import Thera.Model.Bytecode.Serialize

/-! # The abstract syntax tree

Expressions, statements and patterns as the parser leaves them, with the spans the later phases report
or compile into `#loc`. A node with several fields carries them itself instead of a payload struct. Of a
declaration only what code generation reads is kept.
-/

namespace Thera.Compiler

open Thera.Bytecode (F64)

/-- Where a node was written; an empty source marks a span as absent. -/
structure Span where
  source : String
  file : String
  line : ℕ
  column : ℕ
  deriving DecidableEq

/-- The span from the start of one to the end of another. -/
def Span.cover (self other : Span) : Span := if self.source = "" then other else self

/-- A written type. -/
inductive TypeRef where
  | named (span : Span) (name : String) (args : List TypeRef) (qualifier : Option String)
  | function (span : Span) (params : List TypeRef) (result : TypeRef)

/-- How a `match` came to be. -/
inductive MatchOrigin where
  | source
  | ifLet
  | letElse
  deriving DecidableEq

structure LambdaParam where
  span : Span
  name : String
  typeAnn : Option TypeRef

mutual

inductive Expr where
  | int (span : Span) (value : ℤ)
  | float (span : Span) (value : F64)
  | bool (span : Span) (value : Bool)
  | unit (span : Span)
  | str (span : Span) (parts : List StringPart)
  | listLit (span : Span) (items : List Expr)
  | mapLit (span : Span) (entries : List MapEntry)
  | struct (span : Span) (typeName : String) (qualifier : Option String) (fields : List FieldInit)
  | ident (span : Span) (name : String)
  | call (span : Span) (callee : Expr) (typeArgs recvTypeArgs : List TypeRef) (args : List CallArg)
  | field (span : Span) (object : Expr) (member : String)
  | index (span : Span) (object index : Expr)
  | binary (span : Span) (left : Expr) (op : String) (right : Expr)
  | unary (span : Span) (op : String) (operand : Expr)
  | propagate (span : Span) (inner : Expr)
  | range (span : Span) (start stop : Expr)
  | «match» (span : Span) (origin : MatchOrigin) (subject : Expr) (arms : List MatchArm)
  | lambda (span : Span) (params : List LambdaParam) (body : Expr)
  | block (span : Span) (block : Block)
  | «if» (span : Span) (condition : Expr) (thenBlock : Block) (elseBlock : Option Block)
  | «return» (span : Span) (value : Option Expr)
  | throw (span : Span) (value : Expr)
  /-- The `#loc` metaconstant. -/
  | loc (span : Span)
  /-- A hole the parser recovered over. -/
  | error (span : Span)

/-- A segment of a string literal. -/
inductive StringPart where
  | text (span : Span) (text : String)
  | interp (span : Span) (value : Expr)

inductive MapEntry where
  | mk (key value : Expr)

inductive FieldInit where
  | mk (name : String) (nameSpan : Span) (value : Expr)

inductive CallArg where
  | mk (span : Span) (label : Option String) (value : Expr)

inductive MatchArm where
  | mk (span : Span) (pattern : Pattern) (body : Expr)

inductive Pattern where
  | wildcard (span : Span)
  | ident (span : Span) (name : String)
  | constructor (span : Span) (name : String) (args : List Pattern)
  | literal (span : Span) (value : Expr)

inductive Stmt where
  | «let» (span : Span) (isMut : Bool) (name : String) (typeAnn : Option TypeRef) (value : Expr)
  | «return» (span : Span) (value : Option Expr)
  | throw (span : Span) (value : Expr)
  | expr (span : Span) (value : Expr)
  /-- The compound operator of `x += y` is kept beside the written right-hand side. -/
  | assign (span : Span) (target : Expr) (op : Option String) (value : Expr)
  | «if» (span : Span) (condition : Expr) (thenBlock : Block) (elseBlock : Option Block)
  | «for» (span : Span) (pattern : Pattern) (iterable : Expr) (body : Block)
  | while (span : Span) (condition : Expr) (body : Block)
  | «break» (span : Span)
  | «continue» (span : Span)

inductive Block where
  | mk (stmts : List Stmt) (tail : Option Expr)

end

namespace MapEntry
def key : MapEntry → Expr | mk key _ => key
def value : MapEntry → Expr | mk _ value => value
end MapEntry

namespace FieldInit
def name : FieldInit → String | mk name _ _ => name
def value : FieldInit → Expr | mk _ _ value => value
end FieldInit

namespace CallArg
def label : CallArg → Option String | mk _ label _ => label
def value : CallArg → Expr | mk _ _ value => value
end CallArg

namespace MatchArm
def pattern : MatchArm → Pattern | mk _ pattern _ => pattern
def body : MatchArm → Expr | mk _ _ body => body
end MatchArm

namespace Block
def stmts : Block → List Stmt | mk stmts _ => stmts
def tail : Block → Option Expr | mk _ tail => tail
end Block

/-- `expr_span`. -/
def Expr.span : Expr → Span
  | int s _ | float s _ | bool s _ | unit s | str s _ | listLit s _ | mapLit s _ | struct s .. | ident s _
  | call s .. | field s .. | index s .. | binary s .. | unary s .. | propagate s _ | range s .. | «match» s ..
  | lambda s .. | block s _ | «if» s .. | «return» s _ | throw s _ | loc s | error s => s

/-- The value an assignment stores: the right-hand side, or `target op value` for a compound one. -/
def assignValue (target : Expr) (op : Option String) (value : Expr) : Expr :=
  match op with
  | some op => .binary (target.span.cover value.span) target op value
  | none => value

structure Param where
  span : Span
  /-- The external label; `none` is `_`. -/
  label : Option String
  isSelf : Bool
  name : String
  typeAnn : Option TypeRef
  defaultValue : Option Expr

structure BoundRef where
  qualifier : Option String
  name : String

structure TypeParam where
  name : String
  bounds : List BoundRef

/-- A decorator such as `@extern('symbol')`. -/
structure Decorator where
  name : String
  args : List Expr

structure FnDecl where
  span : Span
  decorators : List Decorator
  isNative : Bool
  name : String
  typeParams : List TypeParam
  params : List Param
  returnType : Option TypeRef
  body : Option Block

/-- A struct declaration; a `native type` has no layout of its own. -/
structure TypeDecl where
  isNative : Bool
  name : String
  fields : List String

structure EnumVariant where
  name : String
  /-- Positional payload types. -/
  fields : List TypeRef

structure EnumDecl where
  name : String
  variants : List EnumVariant

structure ConstDecl where
  name : String
  value : Expr

/-- A module-level `let`. -/
structure LetDecl where
  name : String
  nameSpan : Span
  value : Expr

structure InterfaceDecl where
  name : String
  superInterfaces : List BoundRef
  methods : List FnDecl

structure ImplDecl where
  interfaceName : Option String
  interfaceNamespace : Option String
  typeName : String
  methods : List FnDecl

inductive Decl where
  | fn (decl : FnDecl)
  | type (decl : TypeDecl)
  | enum (decl : EnumDecl)
  | const (decl : ConstDecl)
  | «let» (decl : LetDecl)
  | interface (decl : InterfaceDecl)
  | impl (decl : ImplDecl)
  | «import»

structure Program where
  filePath : Option String
  decls : List Decl

/-- Whether a parameter list has a `self`: an instance method, not a static one. -/
def hasSelfParam (params : List Param) : Bool := params.any Param.isSelf

end Thera.Compiler
