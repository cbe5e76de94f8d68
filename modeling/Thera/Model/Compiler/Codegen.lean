import Thera.Model.Compiler.FnCompiler

/-! # The bytecode emitter

One definition per emission function of the source. Those that recurse into sub-expressions and blocks
take the recursion as an argument, because it is not structural: a constant and a parameter default are
compiled where they are used, and a compound assignment compiles an expression nobody wrote. The knot is
tied by fuel at the end.
-/

namespace Thera.Compiler

/-- The recursive entry points of the emitter. -/
structure Walker where
  exprExpecting : Expr → Option Ty → Emit Unit
  block : Block → Emit Unit

/-- Emit an expression nothing is expected of. -/
def Walker.expr (w : Walker) (e : Expr) : Emit Unit := w.exprExpecting e none

/-- Emit a statement block in its own lexical scope. -/
def Walker.scopedBlock (w : Walker) (b : Block) : Emit Unit := inScope (w.block b)

/-- The most arguments one `CallNative` of a string literal carries. -/
def maxConcatArgc : ℕ := 255

/-- A match with at least this many non-final cases dispatches on a hoisted tag. -/
def matchDispatchMinCases : ℕ := 6

section

variable (library : Library) (w : Walker)

/-! ## Names -/

/-- A function named in value position: a closure without captures over its unit. -/
def loadFunctionValue (name : String) (span : Span) : Emit Unit := do
  let c ← get
  match c.scope.resolveFunction library c.file name with
  | some index => emit (.closureNew index 0)
  | none => error s!"undefined name: {name}" span

def emitGlobal (owner name : String) : Emit Unit := do
  let c ← get
  match c.scope.globalInFile owner name with
  | some slot => emit (.globalGet slot)
  | none => pure ()

/-- Inline a constant: its initializer compiles in the context of the file that declares it. -/
def emitConst (owner name : String) (span : Span) : Emit Unit := do
  let key := typeKey owner name
  let c ← get
  if key ∈ c.constsInProgress then error s!"cyclic constant: {name}" span
  else
    set (c.startConst key)
    match c.scope.constInFile owner name with
    | some e => inFile (fileOfKey owner) none (w.expr e)
    | none => pure ()
    modify (·.finishConst key)

/-- Push a local that stands in `slot`; a boxed one holds a cell. -/
def loadSlot (name : String) (slot : ℕ) : Emit Unit := do
  let c ← get
  modify (·.access name slot)
  emit (.load slot)
  if name ∈ c.boxedLocals then emit (.fieldGet 0)

/-- Push the value of a name: a local, a constant, a global, else a function. -/
def loadLocalValue (name : String) (span : Span) : Emit Unit := do
  let c ← get
  match c.slots name with
  | some slot => loadSlot name slot
  | none =>
      match c.scope.resolveConstOwner library c.file name with
      | some owner => emitConst w owner name span
      | none =>
          match c.scope.resolveGlobalOwner library c.file name with
          | some owner => emitGlobal owner name
          | none => loadFunctionValue library name span

/-! ## Fields and indexing -/

def structOf (object : Expr) (span : Span) : Emit (Option StructInfo) := do
  let c ← get
  match (c.typeIdOf library object).bind fun id => c.scope.resolveStruct id.owner id.name with
  | some info => return some info
  | none =>
      error "field access on non-struct value" span
      return none

def fieldIndex (info : StructInfo) (field : String) (span : Span) : Emit ℕ := do
  match fieldIndexOf info field with
  | some idx => return idx
  | none =>
      error s!"no such field: {field}" span
      return 0

/-- An error about a value whose type may have no name. -/
def errorOnType (object : Expr) (named : String → String) (unnamed : String) (span : Span) : Emit Unit := do
  let c ← get
  match c.typeOf library object with
  | some t => error (named t) span
  | none => error unnamed span

def emitIndexGet (object : Expr) (span : Span) : Emit Unit := do
  let c ← get
  if c.isCore library object "List" then emit (.simple .listGet)
  else if c.isCore library object "Map" then emit (.callNative "map_index" 2)
  else errorOnType library object (fun t => s!"indexing on {t} is not supported") "indexing on unknown type" span

/-! ## Statements -/

/-- The stored value of an assignment to a local goes into its cell, if the name is boxed. -/
def assignLocal (name : String) (slot : ℕ) (value : Expr) (expected : Option Ty) : Emit Unit := do
  let c ← get
  modify (·.access name slot)
  if name ∈ c.boxedLocals then
    emit (.load slot)
    w.exprExpecting value expected
    emit (.fieldSet 0)
  else
    w.exprExpecting value expected
    emit (.store slot)

/-- The target's type is what its value is expected to be. -/
def assign (target value : Expr) (span : Span) : Emit Unit := do
  let c ← get
  let expected := some (c.infer library target none)
  match target with
  | .ident _ name =>
      match c.slots name with
      | some slot => assignLocal w name slot value expected
      | none => error s!"assignment to unknown local: {name}" span
  | .field _ object member =>
      match ← structOf library object span with
      | some info =>
          w.expr object
          w.exprExpecting value expected
          emit (.fieldSet (← fieldIndex info member span))
      | none => pure ()
  | .index _ object index =>
      w.expr object
      w.expr index
      w.exprExpecting value expected
      let c ← get
      if c.isCore library object "List" then emit (.simple .listSet)
      else if c.isCore library object "Map" then
        emit (.callNative "map_set" 3)
        emit (.simple .pop)
      else
        errorOnType library object (fun t => s!"indexed assignment on {t} is not supported")
          "indexed assignment on unknown type" span
  | _ => error "unsupported assignment target" span

/-- A `return`, with the implicit `Ok` of a function that returns `Result`. -/
def emitReturn (value : Option Expr) : Emit Unit := do
  match value with
  | none =>
      emit (.simple .constUnit)
      if (← get).resultVoid then emit (.enumNew tyResult tagOk 1)
  | some v =>
      let c ← get
      let expected := library.returnValueExpected v c.typeScope c.ctx
      w.exprExpecting v expected
      let c ← get
      let isResult := (typeIdOfType (c.infer library v expected)).any fun id => library.isCoreId id "Result"
      if c.returnsResult && !isResult then emit (.enumNew tyResult tagOk 1)
  emit (.simple .return)

/-- `throw e` returns `Err(e)`. -/
def emitThrow (value : Expr) : Emit Unit := do
  w.exprExpecting value (library.throwValueExpected (← get).ctx)
  emit (.enumNew tyResult tagErr 1)
  emit (.simple .return)

/-- The slot of a loop variable, or of the nameless element. -/
def declareLoopVar (varName : Option String) (ty : Ty) : Emit ℕ := do
  match varName with
  | some name =>
      modify (·.setType name ty)
      declareLocal name .loop
  | none => freshSlot .temporary

def bindLoopVar (varName : Option String) (iter : Expr) : Emit ℕ := do
  let c ← get
  declareLoopVar varName (library.forElementType iter (c.infer library iter none) c.ctx)

/-- Add one to the counter in `slot`. -/
def emitIncrement (slot : ℕ) : Emit Unit := do
  emit (.load slot)
  emit (.constInt 1)
  emit (.simple .addI64)
  emit (.store slot)

/-- `continue` goes to the increment: at the head it would skip it. -/
def rangeFor (varName : Option String) (start stop : Expr) (body : Block) : Emit Unit := do
  w.expr start
  let counter ← declareLoopVar varName (.primitive .int)
  emit (.store counter)
  w.expr stop
  let limit ← freshSlot .temporary
  emit (.store limit)
  let head ← newLabel
  let exit ← newLabel
  let cont ← newLabel
  bindLabel head
  emit (.load counter)
  emit (.load limit)
  emit (.simple .ltI64)
  emitJump .ifFalse exit
  inLoop ⟨cont, exit⟩ (w.block body)
  bindLabel cont
  emitIncrement counter
  emitJump .jump head
  bindLabel exit

def listFor (varName : Option String) (listExpr : Expr) (body : Block) : Emit Unit := do
  w.expr listExpr
  let list ← freshSlot .temporary
  emit (.store list)
  let i ← freshSlot .temporary
  emit (.constInt 0)
  emit (.store i)
  let head ← newLabel
  let exit ← newLabel
  let cont ← newLabel
  bindLabel head
  emit (.load i)
  emit (.load list)
  emit (.simple .listLen)
  emit (.simple .ltI64)
  emitJump .ifFalse exit
  let elem ← bindLoopVar library varName listExpr
  emit (.load list)
  emit (.load i)
  emit (.simple .listGet)
  emit (.store elem)
  inLoop ⟨cont, exit⟩ (w.block body)
  bindLabel cont
  emitIncrement i
  emitJump .jump head
  bindLabel exit

/-- The call of `next` at the head advances, so `continue` goes there. -/
def iteratorFor (varName : Option String) (iterExpr : Expr) (body : Block) : Emit Unit := do
  w.expr iterExpr
  let it ← freshSlot .temporary
  emit (.store it)
  let head ← newLabel
  let exit ← newLabel
  bindLabel head
  emit (.load it)
  emit (.callVirtual "next" 1)
  let opt ← freshSlot .temporary
  emit (.store opt)
  emit (.load opt)
  emit (.simple .enumTag)
  emit (.constInt tagNone)
  emit (.simple .eqI64)
  emitJump .ifTrue exit
  let elem ← bindLoopVar library varName iterExpr
  emit (.load opt)
  emit (.enumGet 0)
  emit (.store elem)
  inLoop ⟨head, exit⟩ (w.block body)
  emitJump .jump head
  bindLabel exit

/-- The variable a loop binds; only a name or `_` is supported. -/
def forVariable (pattern : Pattern) (iterable : Expr) : Emit (Option String) := do
  match pattern with
  | .ident _ name => return some name
  | .wildcard _ => return none
  | _ =>
      error "unsupported for-loop pattern" iterable.span
      return none

def forStmt (pattern : Pattern) (iterable : Expr) (body : Block) : Emit Unit := do
  let varName ← forVariable pattern iterable
  match iterable with
  | .range _ start stop => rangeFor w varName start stop body
  | _ =>
      let c ← get
      if c.isCore library iterable "List" then listFor library w varName iterable body
      else if c.isIterator library iterable then iteratorFor library w varName iterable body
      else
        errorOnType library iterable
          (fun t => s!"cannot iterate {t} (only ranges, lists, and Iterators are supported)")
          "cannot iterate this value" iterable.span

/-- The initializer is emitted first, so it does not see the name. A boxed name gets a cell. -/
def letStmt (name : String) (typeAnn : Option TypeRef) (value : Expr) (stmts : List Stmt) (index : ℕ) :
    Emit Unit := do
  let c ← get
  let annotated := typeAnn.map fun ref => library.resolveTypeRef ref c.file c.ctx.typeParams c.ctx.selfType
  w.exprExpecting value annotated
  if name = "_" then emit (.simple .pop)
  else
    let c ← get
    let ty := annotated.getD
      (library.refineBindingType name (c.infer library value none) stmts (index + 1) c.typeScope c.ctx)
    if name ∈ c.boxedLocals then
      let (cell, scope) := c.scope.cellTypeIndex
      set (c.withScope scope)
      emit (.structNew cell)
    let slot ← declareLocal name .let
    if name ∈ c.boxedLocals then modify (·.holdCell slot)
    modify (·.setType name ty)
    emit (.store slot)

/-- Jump out of, or to the next round of, the innermost loop. -/
def leaveLoop (target : LoopCtx → ℕ) (word : String) (span : Span) : Emit Unit := do
  match (← get).loops.getLast? with
  | some loop => emitJump .jump (target loop)
  | none => error s!"internal: `{word}` outside of a loop" span

def ifStmt (condition : Expr) (thenBlock : Block) (elseBlock : Option Block) : Emit Unit := do
  w.expr condition
  match elseBlock with
  | none =>
      let exit ← newLabel
      emitJump .ifFalse exit
      w.scopedBlock thenBlock
      bindLabel exit
  | some elseBlock =>
      let elseLabel ← newLabel
      let exit ← newLabel
      emitJump .ifFalse elseLabel
      w.scopedBlock thenBlock
      emitJump .jump exit
      bindLabel elseLabel
      w.scopedBlock elseBlock
      bindLabel exit

/-- `continue` tests the condition again. -/
def whileStmt (condition : Expr) (body : Block) : Emit Unit := do
  let head ← newLabel
  let exit ← newLabel
  bindLabel head
  w.expr condition
  emitJump .ifFalse exit
  inLoop ⟨head, exit⟩ (w.scopedBlock body)
  emitJump .jump head
  bindLabel exit

def stmt (s : Stmt) (stmts : List Stmt) (index : ℕ) : Emit Unit :=
  match s with
  | .let _ _ name typeAnn value => letStmt library w name typeAnn value stmts index
  | .assign span target op value => assign library w target (assignValue target op value) span
  | .if _ condition thenBlock elseBlock => ifStmt w condition thenBlock elseBlock
  | .while _ condition body => whileStmt w condition body
  | .for _ pattern iterable body => inScope (forStmt library w pattern iterable body)
  | .return _ value => emitReturn library w value
  | .throw _ value => emitThrow library w value
  | .break span => leaveLoop LoopCtx.breakLabel "break" span
  | .continue span => leaveLoop LoopCtx.continueLabel "continue" span
  | .expr _ e => do
      w.expr e
      emit (.simple .pop)

def block (b : Block) : Emit Unit := b.stmts.zipIdx.forM fun (s, index) => stmt library w s b.stmts index

/-! ## Control flow in expressions -/

/-- A block in value position: the statements, then the tail or unit. -/
def emitBlockValue (b : Block) (expected : Option Ty) : Emit Unit := inScope do
  w.block b
  match b.tail with
  | some tail => w.exprExpecting tail expected
  | none => emit (.simple .constUnit)

def ifExpr (condition : Expr) (thenBlock : Block) (elseBlock : Option Block) (expected : Option Ty) :
    Emit Unit := do
  w.expr condition
  let elseLabel ← newLabel
  let exit ← newLabel
  emitJump .ifFalse elseLabel
  emitBlockValue w thenBlock expected
  emitJump .jump exit
  bindLabel elseLabel
  match elseBlock with
  | some elseBlock => emitBlockValue w elseBlock expected
  | none => emit (.simple .constUnit)
  bindLabel exit

/-- `e?`: the failing tag of `Result` and of `Option` is 1, and the payload is field 0. -/
def propagateExpr (inner : Expr) : Emit Unit := do
  w.expr inner
  emit (.simple .dup)
  emit (.simple .enumTag)
  emit (.constInt tagErr)
  emit (.simple .eqI64)
  let ok ← newLabel
  emitJump .ifFalse ok
  emit (.simple .return)
  bindLabel ok
  emit (.enumGet 0)

/-! ## Lambdas -/

/-- What a lambda captures: the free names that are locals here. -/
def captures (c : FnCompiler) (params : List LambdaParam) (body : Expr) : List String :=
  (freeVariables params body).filter fun name => (c.slots name).isSome

/-- The types the lifted unit's parameters have: captures keep theirs, the lambda's own are inferred. -/
def stashTypes (c : FnCompiler) (captured : List String) (params : List LambdaParam) (types : List Ty) :
    TypeScope :=
  let kept : TypeScope := captured.foldl (fun scope name =>
    Function.update scope name (some ((c.typeScope name).getD .unknown))) fun _ => none
  params.zipIdx.foldl (fun scope (p, i) => Function.update scope p.name (some (types[i]?.getD .unknown))) kept

/-- The parameter and return types of a function type. -/
def signatureOf : Ty → List Ty × Ty
  | .function params result => (params, result)
  | _ => ([], .unknown)

/-- Push a captured variable as it stands in its slot, so that a cell is shared. -/
def emitCapture (name : String) : Emit Unit := do
  match (← get).slots name with
  | some slot =>
      modify (·.access name slot)
      emit (.load slot)
  | none => failure

/-- Lift the body to a unit whose leading parameters are the captures, and bundle a closure. -/
def lambdaExpr (span : Span) (params : List LambdaParam) (body : Expr) (expected : Option Ty) : Emit Unit := do
  let c ← get
  let captured := captures c params body
  let signature := signatureOf (c.infer library (.lambda span params body) expected)
  let info : LambdaInfo :=
    { captures := captured.map fun name => (name, (c.slots name).any (· ∈ c.cells))
      boxed := captured.filter (· ∈ c.boxedLocals)
      paramTypes := stashTypes c captured params signature.1
      returnType := signature.2
      bounds := c.typeParamBounds }
  set (c.withScope (c.scope.addLambda (liftLambda span params body captured) info c.file))
  captured.forM emitCapture
  emit (.closureNew c.scope.units.length captured.length)

/-! ## Match -/

/-- Whether a pattern matches everything, so that it needs no test. -/
def isIrrefutable : Pattern → Bool
  | .wildcard _ | .ident .. => true
  | .constructor .. | .literal .. => false

/-- The tag of a variant of the enum a type names. -/
def variantTag (enumType : Option TypeId) (name : String) (span : Span) : Emit ℕ := do
  let c ← get
  match (enumType.bind fun id => c.scope.resolveEnum id.owner id.name).bind fun info => tagOf info name with
  | some tag => return tag
  | none =>
      error s!"unknown variant `{name}`" span
      return 0

/-- Jump to `fail` unless the value's tag, hoisted or not, is the variant's. -/
def emitTagTest (valueSlot : ℕ) (valueTy : Ty) (name : String) (span : Span) (fail : ℕ)
    (tagSlot : Option ℕ) : Emit Unit := do
  match tagSlot with
  | some slot => emit (.load slot)
  | none =>
      emit (.load valueSlot)
      emit (.simple .enumTag)
  let tag ← variantTag (typeIdOfType valueTy) name span
  emit (.constInt tag)
  emit (.simple .eqI64)
  emitJump .ifFalse fail

mutual

/-- Match the value in `valueSlot` and bind the variables. Without a `fail` label the pattern is taken to
match and only its bindings are emitted. -/
def emitPattern (pattern : Pattern) (valueSlot : ℕ) (valueTy : Ty) (fail tagSlot : Option ℕ) : Emit Unit :=
  match pattern with
  | .wildcard _ => pure ()
  | .ident _ name => modify (·.setSlot name valueSlot)
  | .literal _ literal =>
      match fail with
      | some fail => do
          emit (.load valueSlot)
          w.expr literal
          emit (.callNative "eq" 2)
          emitJump .ifFalse fail
      | none => pure ()
  | .constructor span name args => do
      match fail with
      | some fail => emitTagTest valueSlot valueTy name span fail tagSlot
      | none => pure ()
      emitPatternArgs args 0 valueSlot (library.variantFieldTypes valueTy name) fail

/-- Match the payload fields from position `i` on, each in a slot of its own. -/
def emitPatternArgs (args : List Pattern) (i valueSlot : ℕ) (fieldTypes : List Ty) (fail : Option ℕ) :
    Emit Unit :=
  match args with
  | [] => pure ()
  | .wildcard _ :: rest => emitPatternArgs rest (i + 1) valueSlot fieldTypes fail
  | arg :: rest => do
      let fieldSlot ← freshSlot .temporary
      emit (.load valueSlot)
      emit (.enumGet i)
      emit (.store fieldSlot)
      emitPattern arg fieldSlot (fieldTypes[i]?.getD .unknown) fail none
      emitPatternArgs rest (i + 1) valueSlot fieldTypes fail

end

/-- An arm's body yields a value, or leaves the function. -/
def armBody (body : Expr) (exit : ℕ) (jumpToEnd : Bool) (expected : Option Ty) : Emit Unit := do
  match body with
  | .return _ value => emitReturn library w value
  | .throw _ value => emitThrow library w value
  | _ =>
      w.exprExpecting body expected
      if jumpToEnd then emitJump .jump exit

/-- What the arms of one match share. -/
structure MatchCtx where
  subject : ℕ
  subjectTy : Ty
  tagSlot : ℕ
  exit : ℕ
  expected : Option Ty

/-- Give an arm's pattern variables their types. -/
def bindPatternTypes (pattern : Pattern) (subjectTy : Ty) : Emit Unit :=
  modify fun c => c.setTypes (library.bindMatchPattern pattern subjectTy c.typeScope)

/-- An arm that is taken to match: its bindings, then its body. -/
def emitLeaf (arm : MatchArm) (jumpToEnd : Bool) (ctx : MatchCtx) : Emit Unit := inScope do
  bindPatternTypes library arm.pattern ctx.subjectTy
  emitPattern library w arm.pattern ctx.subject ctx.subjectTy none none
  armBody library w arm.body ctx.exit jumpToEnd ctx.expected

/-- The linear chain. The final arm, like an irrefutable one, is taken to match and ends it. -/
def matchChain (ctx : MatchCtx) (tagSlot : Option ℕ) : List MatchArm → Emit Unit
  | [] => pure ()
  | arm :: rest =>
      if rest.isEmpty || isIrrefutable arm.pattern then emitLeaf library w arm false ctx
      else do
        inScope do
          bindPatternTypes library arm.pattern ctx.subjectTy
          let next ← newLabel
          emitPattern library w arm.pattern ctx.subject ctx.subjectTy (some next) tagSlot
          armBody library w arm.body ctx.exit true ctx.expected
          bindLabel next
        matchChain ctx tagSlot rest

/-- The non-final arms by tag, if the tag alone decides each of them. -/
def planCases (info : EnumInfo) : List MatchArm → Table ℕ MatchArm → Option (Table ℕ MatchArm)
  | [], cases | [_], cases => some cases
  | arm :: rest, cases =>
      match arm.pattern with
      | .constructor _ name args =>
          if args.all isIrrefutable then do
            let tag ← tagOf info name
            if cases.has tag then none else planCases info rest (cases.set tag arm)
          else none
      | _ => none

/-- Plan a binary search over an enum's tags; the final arm is the default. -/
def planDispatch (info : EnumInfo) (arms : List MatchArm) : Option (Table ℕ MatchArm × MatchArm) := do
  if arms.length - 1 < matchDispatchMinCases then none
  else return (← planCases info arms [], ← arms.getLast?)

/-- The least key that is not among `used`. -/
def leastUnused (keys used : List ℕ) : Option ℕ :=
  keys.foldl (fun best k =>
    if k ∈ used then best
    else match best with
      | none => some k
      | some b => if k < b then some k else some b) none

/-- The case tags in ascending order, by selection. -/
def sortedKeys (keys : List ℕ) : List ℕ :=
  keys.foldl (fun sorted _ => sorted ++ (leastUnused keys sorted).toList) []

/-- Compare the hoisted tag with `tag` and jump. -/
def emitTagJump (ctx : MatchCtx) (tag : ℕ) (op : Op) (kind : Jk) (label : ℕ) : Emit Unit := do
  emit (.load ctx.tagSlot)
  emit (.constInt tag)
  emit (.simple op)
  emitJump kind label

/-- A balanced search over `tags[lo..hi]`; a subrange that is not there goes to the default. -/
def emitBisect (ctx : MatchCtx) (tags : List ℕ) (cases : Table ℕ MatchArm) (default : ℕ) (lo hi : ℕ) :
    Emit Unit := do
  let mid := (lo + hi) / 2
  match tags[mid]?, tags[mid]?.bind cases.get with
  | some tag, some arm =>
      if lo < mid ∨ mid < hi then
        let left ← if lo < mid then newLabel else pure default
        let right ← if mid < hi then newLabel else pure default
        emitTagJump ctx tag .ltI64 .ifTrue left
        emitTagJump ctx tag .gtI64 .ifTrue right
        emitLeaf library w arm true ctx
        if lo < mid then
          bindLabel left
          emitBisect ctx tags cases default lo (mid - 1)
        if mid < hi then
          bindLabel right
          emitBisect ctx tags cases default (mid + 1) hi
      else
        emitTagJump ctx tag .eqI64 .ifFalse default
        emitLeaf library w arm true ctx
  | _, _ => failure
termination_by hi - lo

def emitDispatch (ctx : MatchCtx) (cases : Table ℕ MatchArm) (defaultArm : MatchArm) : Emit Unit := do
  let tags := sortedKeys cases.keys
  let default ← newLabel
  emitBisect library w ctx tags cases default 0 (tags.length - 1)
  bindLabel default
  emitLeaf library w defaultArm false ctx

/-- The non-final arms that test a tag at the top. -/
def topLevelTagTests (arms : List MatchArm) : ℕ :=
  arms.dropLast.countP fun arm => match arm.pattern with
    | .constructor .. => true
    | _ => false

/-- Load and keep the subject's tag. -/
def hoistTag (subject : ℕ) : Emit ℕ := do
  emit (.load subject)
  emit (.simple .enumTag)
  let slot ← freshSlot .temporary
  emit (.store slot)
  return slot

def matchExpr (subject : Expr) (arms : List MatchArm) (expected : Option Ty) : Emit Unit := do
  let c ← get
  let subjectTy := c.infer library subject none
  w.expr subject
  let slot ← freshSlot .temporary
  emit (.store slot)
  let exit ← newLabel
  let c ← get
  let info := (typeIdOfType subjectTy).bind fun id => c.scope.resolveEnum id.owner id.name
  match info.bind fun info => planDispatch info arms with
  | some (cases, defaultArm) =>
      let tagSlot ← hoistTag slot
      emitDispatch library w ⟨slot, subjectTy, tagSlot, exit, expected⟩ cases defaultArm
  | none =>
      if info.isSome && decide (matchDispatchMinCases ≤ topLevelTagTests arms) then
        let tagSlot ← hoistTag slot
        matchChain library w ⟨slot, subjectTy, tagSlot, exit, expected⟩ (some tagSlot) arms
      else matchChain library w ⟨slot, subjectTy, 0, exit, expected⟩ none arms
  bindLabel exit

end

end Thera.Compiler
