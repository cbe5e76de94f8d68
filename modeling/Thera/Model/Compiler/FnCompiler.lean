import Thera.Model.Compiler.FreeVars

/-! # The per-function compiler state

The mutable record code generation grows while it walks one function body, and the small steps every
emission is made of. A step is a state transformer that may run out of fuel.

Three fields record what the source leaves implicit, for statements about it, and nothing reads them:
how each slot was bound, which slots a cell is stored into, and every access to a local.
-/

namespace Thera.Compiler

/-- The three jumps the backpatcher emits. -/
inductive Jk where
  | jump
  | ifTrue
  | ifFalse
  deriving DecidableEq

/-- A placeholder jump: where it is, and the label it goes to. -/
structure Fixup where
  pos : ℕ
  label : ℕ
  kind : Jk

/-- The targets of `continue` and `break` in a loop body. -/
structure LoopCtx where
  continueLabel : ℕ
  breakLabel : ℕ

/-- What binds a slot; a pattern variable names the temporary that holds its value. -/
inductive Binder where
  | parameter
  | capture
  | «let»
  | loop
  | temporary
  deriving DecidableEq

/-- A compiled read, write or capture of a local. -/
structure Access where
  name : String
  slot : ℕ
  binder : Option Binder
  /-- The code takes what the slot holds for a cell. -/
  throughCell : Bool
  /-- A cell was stored in the slot. -/
  holdsCell : Bool
  deriving DecidableEq

structure FnCompiler where
  scope : ModuleScope
  code : List Instr
  slots : String → Option ℕ
  typeScope : TypeScope
  typeParamBounds : String → Option (List TypeId)
  constsInProgress : List String
  boxedLocals : List String
  localCount : ℕ
  paramCount : ℕ
  returnsResult : Bool
  /-- The function returns `Result<Void, _>`: a unit return is wrapped as `Ok(void)`. -/
  resultVoid : Bool
  labels : List (Option ℕ)
  fixups : List Fixup
  /-- The enclosing loops, innermost last. -/
  loops : List LoopCtx
  ctx : InferCtx
  file : Option String
  /-- The call a parameter default is expanded at; `#loc` reports it. -/
  locSpan : Option Span
  errors : List Diagnostic
  binders : List Binder
  cells : List ℕ
  accesses : List Access

def newFnCompiler (scope : ModuleScope) (errors : List Diagnostic) : FnCompiler where
  scope := scope
  code := []
  slots := fun _ => none
  typeScope := fun _ => none
  typeParamBounds := fun _ => none
  constsInProgress := []
  boxedLocals := []
  localCount := 0
  paramCount := 0
  returnsResult := false
  resultVoid := false
  labels := []
  fixups := []
  loops := []
  ctx := newCtx none
  file := none
  locSpan := none
  errors := errors
  binders := []
  cells := []
  accesses := []

namespace FnCompiler

variable (c : FnCompiler)

def emit (instr : Instr) : FnCompiler := { c with code := c.code ++ [instr] }

def error (message : String) (span : Span) : FnCompiler := { c with errors := c.errors ++ [.at message span] }

def newLabel : FnCompiler := { c with labels := c.labels ++ [none] }

def bind (label : ℕ) : FnCompiler := { c with labels := c.labels.set label (some c.code.length) }

/-- Emit a placeholder, to be replaced when the labels are known. -/
def emitJump (kind : Jk) (label : ℕ) : FnCompiler :=
  { c.emit (.jump 0) with fixups := c.fixups ++ [⟨c.code.length, label, kind⟩] }

def freshSlot (binder : Binder) : FnCompiler :=
  { c with localCount := c.localCount + 1, binders := c.binders ++ [binder] }

def setSlot (name : String) (slot : ℕ) : FnCompiler :=
  { c with slots := Function.update c.slots name (some slot) }

def declareLocal (name : String) (binder : Binder) : FnCompiler := (c.freshSlot binder).setSlot name c.localCount

def setTypes (types : TypeScope) : FnCompiler := { c with typeScope := types }

def setType (name : String) (ty : Ty) : FnCompiler := c.setTypes (Function.update c.typeScope name (some ty))

def withScope (scope : ModuleScope) : FnCompiler := { c with scope := scope }

def startConst (key : String) : FnCompiler := { c with constsInProgress := key :: c.constsInProgress }

def finishConst (key : String) : FnCompiler := { c with constsInProgress := c.constsInProgress.filter (· ≠ key) }

/-- Leave a lexical scope: the names of `saved` are visible again. Slots are never reused. -/
def exitScope (saved : FnCompiler) : FnCompiler := { c with slots := saved.slots, typeScope := saved.typeScope }

def pushLoop (loop : LoopCtx) : FnCompiler := { c with loops := c.loops ++ [loop] }

def popLoop : FnCompiler := { c with loops := c.loops.dropLast }

/-- The top-level context of a file, for a constant or a parameter default compiled in the middle of
another unit: no locals, no type parameters, no `self`. -/
def enterFileContext (file : Option String) : FnCompiler :=
  { c with
    file := file
    ctx := newCtx file
    slots := fun _ => none
    typeScope := fun _ => none
    typeParamBounds := fun _ => none
    locSpan := none }

def restoreFileContext (saved : FnCompiler) : FnCompiler :=
  { c with
    file := saved.file
    ctx := saved.ctx
    slots := saved.slots
    typeScope := saved.typeScope
    typeParamBounds := saved.typeParamBounds
    locSpan := saved.locSpan }

/-- Note an access to the local `name` in `slot`. -/
def access (name : String) (slot : ℕ) : FnCompiler :=
  { c with
    accesses := c.accesses ++
      [⟨name, slot, c.binders[slot]?, decide (name ∈ c.boxedLocals), decide (slot ∈ c.cells)⟩] }

/-- Note that a cell is stored in `slot`. -/
def holdCell (slot : ℕ) : FnCompiler := { c with cells := slot :: c.cells }

/-! ## Backpatching -/

def Jk.instr (kind : Jk) (target : ℕ) : Instr :=
  match kind with
  | .jump => .jump target
  | .ifTrue => .jumpIfTrue target
  | .ifFalse => .jumpIfFalse target

/-- Where a label stands. -/
def target (label : ℕ) : Option ℕ := c.labels[label]?.join

/-- Replace the placeholders by jumps to their labels; an unbound one is reported and taken for 0. -/
def resolveJumps : FnCompiler :=
  c.fixups.foldl (fun c fixup =>
    match c.target fixup.label with
    | some target => { c with code := c.code.set fixup.pos (Jk.instr fixup.kind target) }
    | none =>
        let c := c.error s!"internal: unbound jump label {fixup.label}" noSpan
        { c with code := c.code.set fixup.pos (Jk.instr fixup.kind 0) }) c

def endsInReturn : Bool := c.code.getLast? = some (.simple .return)

/-- Whether a label stands at the end of the stream, so that code placed there is reachable. -/
def jumpTargetsEnd : Bool := c.labels.any fun label => label = some c.code.length

/-! ## Queries -/

section

variable (library : Library)

def infer (e : Expr) (expected : Option Ty) : Ty := library.inferExpr e c.typeScope c.ctx expected

/-- The static type name of an expression. -/
def typeOf (e : Expr) : Option String := nameOfType (c.infer library e none)

def typeIdOf (e : Expr) : Option TypeId := typeIdOfType (c.infer library e none)

/-- Whether an expression's type is the core type `name`. -/
def isCore (e : Expr) (name : String) : Bool := (c.typeIdOf library e).any fun id => library.isCoreId id name

/-- Whether the expected type is the core type `name`. -/
def expectsCore (expected : Option Ty) (name : String) : Bool :=
  (expected.bind typeIdOfType).any fun id => library.isCoreId id name

def isNamespace (name : String) : Bool := (c.slots name).isNone && library.isNamespace c.file name

def isDouble (e : Expr) : Bool := c.typeOf library e = some "Double"

/-- The core interface of that name, never a user's. -/
def coreIfaceKey (name : String) : TypeId := ⟨library.coreOwner name, name⟩

def isIterator (e : Expr) : Bool :=
  (c.typeIdOf library e).any fun id =>
    library.isCoreId id "Iterator" ||
      (c.scope.interfaceImpls.get id).any fun info => coreIfaceKey library "Iterator" ∈ info.interfaces

/-- The type a static receiver `Type` or `ns.Type` names; an interface has no static form. -/
def receiverTypeId (name : String) (ns : Option String) : Option TypeId := do
  let id : TypeId := ⟨library.resolveTypeOwner c.file name ns, name⟩
  let element ← library.typeDef id
  if element.kind = .interface then none else some id

/-- A local always shadows a type. -/
def staticTypeId : Expr → Option TypeId
  | .ident _ name => if (c.slots name).isNone then c.receiverTypeId library name none else none
  | .field _ (.ident _ ns) member =>
      if c.isNamespace library ns then c.receiverTypeId library member (some ns) else none
  | _ => none

/-- The enum and tag of `Enum.Variant`. -/
def enumVariant (object : Expr) (name : String) : Option (EnumInfo × ℕ) := do
  let id ← c.staticTypeId library object
  let info ← c.scope.resolveEnum id.owner id.name
  return (info, ← tagOf info name)

/-- The enum and tag of a variant named bare where its enum is expected. -/
def bareVariant (name : String) (expected : Option Ty) : Option (EnumInfo × ℕ) := do
  let (element, _) ← library.resolveBareVariant name expected c.typeScope c.ctx
  let info ← c.scope.resolveEnum element.ownerFile element.name
  return (info, ← tagOf info name)

/-- A primitive receiver is keyed by the core declaration of its type. -/
def primitiveReceiverId (receiver : Expr) : Option TypeId :=
  match c.infer library receiver none with
  | .primitive p => (nameOfType (.primitive p)).map fun name => ⟨library.coreOwner name, name⟩
  | _ => none

/-- The unit of a method: of the type a static receiver names, else of the receiver's type. -/
def resolveMethod (receiver : Expr) (name : String) : Option ℕ := do
  let id ← (c.staticTypeId library receiver).or
    ((c.typeIdOf library receiver).or (c.primitiveReceiverId library receiver))
  c.scope.methodTable.getIn id name

/-- The unit of an interface method of a type that implements the interface. -/
def interfaceMethod (ty : Option TypeId) (iface : TypeId) (method : String) : Option ℕ := do
  let id ← ty
  let info ← c.scope.interfaceImpls.get id
  if iface ∈ info.interfaces then c.scope.methodTable.getIn id method else none

/-- The interfaces a value of type `t` dispatches through: the one it is, or its parameter's bounds. -/
def dispatchInterfaces : Ty → Option (List TypeId)
  | .interface id _ => if c.scope.interfaceMethods.has id then some [id] else none
  | .typeParameter name => do
      let ifaces := (← c.typeParamBounds name).filter c.scope.interfaceMethods.has
      if ifaces = [] then none else some ifaces
  | _ => none

/-- The first of some interfaces that declares a method. -/
def declaringInterface (ifaces : List TypeId) (method : String) : Option TypeId :=
  ifaces.find? fun iface => (c.scope.interfaceMethods.get iface).any fun methods => method ∈ methods

def dispatchesVia (t : Ty) (method : String) : Bool :=
  ((c.dispatchInterfaces t).bind fun ifaces => c.declaringInterface ifaces method).isSome

end

end FnCompiler

/-! ## Steps -/

/-- A step of code generation; no result means that the fuel ran out. -/
abbrev Emit := StateT FnCompiler Option

def emit (instr : Instr) : Emit Unit := modify (·.emit instr)

def error (message : String) (span : Span) : Emit Unit := modify (·.error message span)

/-- A fresh label, as yet unbound. -/
def newLabel : Emit ℕ := do
  let c ← get
  set c.newLabel
  return c.labels.length

/-- The source's `bind`: the label stands here. -/
def bindLabel (label : ℕ) : Emit Unit := modify (·.bind label)

def emitJump (kind : Jk) (label : ℕ) : Emit Unit := modify (·.emitJump kind label)

def freshSlot (binder : Binder) : Emit ℕ := do
  let c ← get
  set (c.freshSlot binder)
  return c.localCount

def declareLocal (name : String) (binder : Binder) : Emit ℕ := do
  let c ← get
  set (c.declareLocal name binder)
  return c.localCount

/-- Run `body` in its own lexical scope. -/
def inScope {α : Type} (body : Emit α) : Emit α := do
  let saved ← get
  let result ← body
  modify (·.exitScope saved)
  return result

/-- Run `body` in the top-level context of a file, with the given `#loc` site. -/
def inFile (file : Option String) (locSpan : Option Span) (body : Emit Unit) : Emit Unit := do
  let saved ← get
  set { saved.enterFileContext file with locSpan := locSpan }
  body
  modify (·.restoreFileContext saved)

/-- Run `body` inside a loop. -/
def inLoop (loop : LoopCtx) (body : Emit Unit) : Emit Unit := do
  modify (·.pushLoop loop)
  body
  modify (·.popLoop)

end Thera.Compiler
