import Thera.Model.Compiler.Codegen

/-! # Operators, literals and calls

The emission functions for operators, strings, structs and the kinds of call. Which kind a call
`recv.method(...)` is, inference says; the emitter only lowers it.
-/

namespace Thera.Compiler

/-! ## Operator tables -/

def isArithmetic (op : String) : Bool := op ∈ ["+", "-", "*", "/", "%"]

def isComparisonOp (op : String) : Bool := op ∈ ["==", "!=", "<", "<=", ">", ">="]

def isBitwise (op : String) : Bool := op ∈ ["&", "|", "^", "<<", ">>", ">>>"]

def arithOp (op : String) (isDouble : Bool) : Op :=
  if op = "+" then if isDouble then .addF64 else .addI64
  else if op = "-" then if isDouble then .subF64 else .subI64
  else if op = "*" then if isDouble then .mulF64 else .mulI64
  else if op = "/" then if isDouble then .divF64 else .divI64
  else .modI64

def cmpOp (op : String) (isDouble : Bool) : Op :=
  if op = "==" then if isDouble then .eqF64 else .eqI64
  else if op = "!=" then if isDouble then .neF64 else .neI64
  else if op = "<" then if isDouble then .ltF64 else .ltI64
  else if op = "<=" then if isDouble then .leF64 else .leI64
  else if op = ">" then if isDouble then .gtF64 else .gtI64
  else if isDouble then .geF64 else .geI64

def bitwiseOp (op : String) : Op :=
  if op = "&" then .andI64
  else if op = "|" then .orI64
  else if op = "^" then .xorI64
  else if op = "<<" then .shlI64
  else if op = ">>" then .shrI64
  else .uShrI64

/-- The console natives, whose argument is rendered before the call. -/
def isPrintNative (name : String) : Bool := name ∈ ["println", "print", "eprintln", "eprint"]

/-- Where an argument comes from: the call, or a default of the callee's file expanded at the call. -/
inductive ArgSite where
  | caller
  | default (declFile : Option String) (call : Span)

/-- One argument in parameter order. -/
structure OrderedArg where
  value : Expr
  site : ArgSite

/-- What an omitted parameter contributes. -/
def defaultArg (default : Option Expr) (declFile : Option String) (call : Span) : Option OrderedArg :=
  default.map fun e => ⟨e, .default declFile call⟩

/-- Match parameters with the labelled arguments and, in order, the positional ones. -/
def matchParams (named : Table String Expr) (declFile : Option String) (span : Span) :
    List Param → List Expr → List (Param × Option OrderedArg)
  | [], _ => []
  | p :: rest, positional =>
      let fallback := (p, defaultArg p.defaultValue declFile span) :: matchParams named declFile span rest positional
      if p.isSelf then matchParams named declFile span rest positional
      else match p.label with
        | none =>
            match positional with
            | v :: positional => (p, some ⟨v, .caller⟩) :: matchParams named declFile span rest positional
            | [] => fallback
        | some label =>
            match named.get label, positional with
            | some v, _ => (p, some ⟨v, .caller⟩) :: matchParams named declFile span rest positional
            | none, v :: remaining =>
                if label = p.name then (p, some ⟨v, .caller⟩) :: matchParams named declFile span rest remaining
                else fallback
            | none, [] => fallback

/-- The argument values in parameter order, with defaults filled in. -/
def resolveArgs (params : List Param) (args : List CallArg) (span : Span) (declFile : Option String) :
    Emit (List OrderedArg) := do
  let positional := args.filterMap fun a => if a.label.isNone then some a.value else none
  let named := args.foldl (fun named a => match a.label with
    | some label => Table.set named label a.value
    | none => named) []
  let matched := matchParams named declFile span params positional
  matched.forM fun (p, arg) =>
    if arg.isNone then error s!"missing argument for parameter `{p.name}`" span else pure ()
  return matched.filterMap Prod.snd

/-- The field's initializer in a struct literal. -/
def findFieldInit (fields : List FieldInit) (name : String) : Option Expr :=
  (fields.find? fun f => f.name = name).map FieldInit.value

section

variable (library : Library) (w : Walker)

/-! ## Strings -/

/-- Render the value on the stack: by its native `Display`, by dispatch, or by its own method. A type
without one is dispatched all the same; the runtime falls back to its debug form. -/
def emitDisplay (t : Ty) : Emit Unit := do
  let c ← get
  match (nameOfType t).bind c.scope.nativeDisplaySymbols.get with
  | some symbol => emit (.callNative symbol 1)
  | none =>
      if c.dispatchesVia t "to_string" then emit (.callVirtual "to_string" 1)
      else match c.interfaceMethod (typeIdOfType t) (FnCompiler.coreIfaceKey library "Display") "to_string" with
        | some idx => emit (.call idx 1)
        | none => emit (.callVirtual "to_string" 1)

def emitAsString (value : Expr) : Emit Unit := do
  let t := (← get).infer library value none
  w.expr value
  if nameOfType t = some "String" then pure () else emitDisplay library t

def stringPiece (part : StringPart) : Emit Unit :=
  match part with
  | .text _ text => emit (.constStr text)
  | .interp _ e => emitAsString library w e

/-- Concatenate the pieces with the `argc` strings on the stack, of which the running result is the first.
A full chunk is concatenated before the next piece. -/
def stringPieces : List StringPart → ℕ → Emit Unit
  | [], argc => if 1 < argc then emit (.callNative "str_concat" argc) else pure ()
  | part :: rest, argc => do
      if argc < maxConcatArgc then
        stringPiece library w part
        stringPieces rest (argc + 1)
      else
        emit (.callNative "str_concat" argc)
        stringPiece library w part
        stringPieces rest 2

def stringExpr (parts : List StringPart) : Emit Unit := do
  match parts with
  | [] => emit (.constStr "")
  | part :: rest =>
      stringPiece library w part
      stringPieces library w rest 1

/-! ## Operators -/

def unaryExpr (op : String) (operand : Expr) (span : Span) : Emit Unit := do
  w.expr operand
  if op = "-" then emit (.simple (if (← get).isDouble library operand then .negF64 else .negI64))
  else if op = "!" then emit (.simple .not)
  else if op = "~" then emit (.simple .bnotI64)
  else error s!"unsupported unary operator: {op}" span

/-- `&&` and `||` branch around their right operand. -/
def logicalExpr (left : Expr) (op : String) (right : Expr) : Emit Unit := do
  let isAnd : Bool := op = "&&"
  let shortCircuit ← newLabel
  let exit ← newLabel
  w.expr left
  emitJump (if isAnd then .ifFalse else .ifTrue) shortCircuit
  w.expr right
  emitJump .jump exit
  bindLabel shortCircuit
  emit (.constBool !isAnd)
  bindLabel exit

/-- Both operands, then the instruction. -/
def emitOperands (left right : Expr) (instr : Instr) : Emit Unit := do
  w.expr left
  w.expr right
  emit instr

/-- How `==` on a type compares, unless by a typed opcode: by dispatch, by its `Eq`, or structurally. -/
def equalityCall (c : FnCompiler) (t : Ty) (isPrimitive : Bool) : Option Instr :=
  if c.dispatchesVia t "eq" then some (.callVirtual "eq" 2)
  else match c.interfaceMethod (typeIdOfType t) (FnCompiler.coreIfaceKey library "Eq") "eq" with
    | some idx => some (.call idx 2)
    | none => if !isPrimitive || nameOfType t = some "Bool" then some (.callNative "eq" 2) else none

/-- An operator with an opcode for each primitive. -/
def emitTypedOp (op : String) (isDouble : Bool) (span : Span) : Emit Unit :=
  if isArithmetic op then
    if op = "%" ∧ isDouble then error "`%` is not defined for Double" span
    else emit (.simple (arithOp op isDouble))
  else if isComparisonOp op then emit (.simple (cmpOp op isDouble))
  else if isBitwise op then
    if isDouble then error s!"bitwise operator `{op}` requires Int operands" span
    else emit (.simple (bitwiseOp op))
  else error s!"unsupported operator: {op}" span

def binaryExpr (left : Expr) (op : String) (right : Expr) (span : Span) : Emit Unit := do
  if op = "&&" ∨ op = "||" then logicalExpr w left op right
  else
    let c ← get
    let leftType := c.infer library left none
    let operandType := nameOfType leftType
    let isPrimitive := operandType = some "Int" ∨ operandType = some "Double" ∨ operandType = some "Bool"
    let equality := if op = "==" ∨ op = "!=" then equalityCall library c leftType (decide isPrimitive) else none
    match equality with
    | some instr =>
        emitOperands w left right instr
        if op = "!=" then emit (.simple .not)
    | none =>
        if op = "+" ∧ operandType = some "String" then emitOperands w left right (.callNative "str_concat" 2)
        else if !isPrimitive then
          let shown := operandType.getD "unknown type"
          error s!"operator `{op}` on {shown} not yet supported" span
        else
          w.expr left
          w.expr right
          emitTypedOp op (decide (operandType = some "Double")) span

/-! ## Structs and fields -/

def structExpr (span : Span) (typeName : String) (ns : Option String) (fields : List FieldInit) :
    Emit Unit := do
  let c ← get
  let owner := library.resolveTypeOwner c.file typeName ns
  match c.scope.resolveStruct owner typeName with
  | some info =>
      info.fieldNames.forM fun fieldName =>
        match findFieldInit fields fieldName with
        | some value => w.exprExpecting value ((library.typeDef ⟨owner, typeName⟩).bind fun t => t.fields fieldName)
        | none => error s!"missing field `{fieldName}` in {typeName} literal" span
      emit (.structNew info.index)
  | none => error s!"unknown struct type: {typeName}" span

/-- `#loc` as a `SourceLoc`; inside an expanded default it is the call's place. -/
def emitSourceLoc (span : Span) : Emit Unit := do
  let c ← get
  let site := c.locSpan.getD span
  let file := if site.file ≠ "" then site.file else c.file.getD ""
  structExpr library w site "SourceLoc" none
    [.mk "file" site (.str site [.text site file]), .mk "line" site (.int site site.line),
      .mk "column" site (.int site site.column)]

/-- A constant, global or function named through a namespace; whether it was one. -/
def emitNamespaceMember (object : Expr) (field : String) (span : Span) : Emit Bool := do
  match object with
  | .ident _ ns =>
      let c ← get
      if c.isNamespace library ns then
        match library.memberOwner c.file ns field with
        | some owner =>
            if (c.scope.constInFile owner field).isSome then
              emitConst w owner field span
              return true
            else if (c.scope.globalInFile owner field).isSome then
              emitGlobal owner field
              return true
            else match c.scope.functionInFile owner field with
              | some idx =>
                  emit (.closureNew idx 0)
                  return true
              | none => return false
        | none => return false
      else return false
  | _ => return false

def fieldExpr (object : Expr) (field : String) (span : Span) : Emit Unit := do
  if ← emitNamespaceMember library w object field span then return
  let c ← get
  match c.enumVariant library object field with
  | some (info, tag) =>
      if fieldCountOf info field ≠ 0 then error s!"enum variant `{field}` takes arguments" span
      else emit (.enumNew info.ty tag 0)
  | none =>
      match ← structOf library object span with
      | some info =>
          w.expr object
          emit (.fieldGet (← fieldIndex info field span))
      | none => pure ()

/-! ## Arguments -/

/-- The written arguments in call order. -/
def emitArgsExpecting (callee : Expr) (args : List CallArg) (expected : Option Ty) : Emit Unit := do
  let c ← get
  let types := library.expectedArgTypes callee args c.typeScope c.ctx expected
  args.zipIdx.forM fun (a, i) => w.exprExpecting a.value (types.bind fun types => types[i]?)

/-- A default compiles in its own file's context, but its `#loc` is the call. -/
def emitDefaultArg (value : Expr) (declFile : Option String) (call : Span) (expected : Option Ty) : Emit Unit :=
  inFile declFile (some call) (w.exprExpecting value expected)

/-- The arguments in parameter order, each with its parameter's type. -/
def emitOrderedArgs (callee : Expr) (args : List CallArg) (ordered : List OrderedArg) : Emit Unit := do
  let c ← get
  let types := library.expectedParamTypes callee args c.typeScope c.ctx none
  ordered.zipIdx.forM fun (arg, i) =>
    let expected := types.bind fun types => types[i]?
    match arg.site with
    | .caller => w.exprExpecting arg.value expected
    | .default declFile call => emitDefaultArg w arg.value declFile call expected

/-- Resolve and emit the arguments of a unit; their number. -/
def emitUnitArgs (callee : Expr) (args : List CallArg) (span : Span) (unit : ℕ) : Emit ℕ := do
  match (← get).scope.units[unit]? with
  | some unit =>
      let ordered ← resolveArgs unit.decl.params args span unit.file
      emitOrderedArgs library w callee args ordered
      return ordered.length
  | none => failure

/-! ## The kinds of method call

Each says whether it emitted the call. -/

def emitEnumCtor (callee : Expr) (args : List CallArg) (obj : Expr) (field : String) (expected : Option Ty) :
    Emit Bool := do
  match (← get).enumVariant library obj field with
  | some (info, tag) =>
      emitArgsExpecting library w callee args expected
      emit (.enumNew info.ty tag args.length)
      return true
  | none => return false

/-- `e.name()`: a chain over the tags, whose last variant needs no test. -/
def enumNameChain (tagSlot exit : ℕ) : List EnumVariant → ℕ → Emit Unit
  | [], _ => pure ()
  | [variant], _ => emit (.constStr variant.name)
  | variant :: rest, i => do
      let next ← newLabel
      emit (.load tagSlot)
      emit (.constInt i)
      emit (.simple .eqI64)
      emitJump .ifFalse next
      emit (.constStr variant.name)
      emitJump .jump exit
      bindLabel next
      enumNameChain tagSlot exit rest (i + 1)

def enumName (receiver : Expr) (info : EnumInfo) : Emit Unit := do
  w.expr receiver
  emit (.simple .enumTag)
  let tag ← freshSlot .temporary
  emit (.store tag)
  let exit ← newLabel
  enumNameChain tag exit info.variants 0
  bindLabel exit

def emitEnumNameCall (obj : Expr) : Emit Bool := do
  let c ← get
  match (c.typeIdOf library obj).bind fun id => c.scope.resolveEnum id.owner id.name with
  | some info =>
      enumName w obj info
      return true
  | none => return false

def emitNamespaceCall (callee : Expr) (args : List CallArg) (span : Span) (obj : Expr) (field : String) :
    Emit Bool := do
  match obj with
  | .ident _ ns =>
      let c ← get
      match if c.isNamespace library ns then library.memberOwner c.file ns field else none with
      | some owner =>
          match c.scope.nativeInFile owner field with
          | some symbol =>
              emitArgsExpecting library w callee args none
              emit (.callNative symbol args.length)
              return true
          | none =>
              match c.scope.functionInFile owner field with
              | some idx =>
                  let argc ← emitUnitArgs library w callee args span idx
                  emit (.call idx argc)
                  return true
              | none => return false
      | none => return false
  | _ => return false

def emitStaticMethodCall (callee : Expr) (args : List CallArg) (span : Span) (obj : Expr) (field : String) :
    Emit Bool := do
  let c ← get
  match (c.staticTypeId library obj).bind fun id => c.scope.nativeStaticMethods.getIn id.name field with
  | some symbol =>
      emitArgsExpecting library w callee args none
      emit (.callNative symbol args.length)
      return true
  | none =>
      match c.resolveMethod library obj field with
      | some idx =>
          let argc ← emitUnitArgs library w callee args span idx
          emit (.call idx argc)
          return true
      | none => return false

/-- The receiver is the first argument. The length of a list has an opcode of its own. -/
def emitInstanceMethodCall (callee : Expr) (args : List CallArg) (span : Span) (obj : Expr) (field : String) :
    Emit Bool := do
  let c ← get
  match (c.typeOf library obj).bind fun t => c.scope.nativeInstanceMethods.getIn t field with
  | some symbol =>
      w.expr obj
      emitArgsExpecting library w callee args none
      if symbol = "list_len" then emit (.simple .listLen) else emit (.callNative symbol (args.length + 1))
      return true
  | none =>
      match c.resolveMethod library obj field with
      | some idx =>
          w.expr obj
          let argc ← emitUnitArgs library w callee args span idx
          emit (.call idx (argc + 1))
          return true
      | none => return false

/-- The signature a virtual call is governed by: the universal selectors have none, any other must be
declared by an interface the receiver dispatches through. -/
def virtualSignature (c : FnCompiler) (obj : Expr) (field : String) : Option (Option IfaceMethodSig) :=
  if field = "to_string" ∨ field = "debug" then some none
  else do
    let ifaces ← c.dispatchInterfaces (c.infer library obj none)
    let iface ← c.declaringInterface ifaces field
    return c.scope.interfaceMethodSigs.getIn iface field

def emitVirtualCall (callee : Expr) (args : List CallArg) (span : Span) (obj : Expr) (field : String) :
    Emit Bool := do
  match virtualSignature library (← get) obj field with
  | none => return false
  | some sig =>
      w.expr obj
      match sig with
      | some sig =>
          let ordered ← resolveArgs sig.params args span sig.file
          emitOrderedArgs library w callee args ordered
          emit (.callVirtual field (ordered.length + 1))
      | none =>
          emitArgsExpecting library w callee args none
          emit (.callVirtual field (args.length + 1))
      return true

/-- A function-valued field called like a method. -/
def emitFieldCall (callee : Expr) (args : List CallArg) (obj : Expr) (field : String) : Emit Bool := do
  let c ← get
  match ((c.typeIdOf library obj).bind fun id => c.scope.resolveStruct id.owner id.name).bind
      fun info => fieldIndexOf info field with
  | some idx =>
      w.expr obj
      emit (.fieldGet idx)
      emitArgsExpecting library w callee args none
      emit (.callIndirect args.length)
      return true
  | none => return false

def methodCall (callee : Expr) (args : List CallArg) (span : Span) (obj : Expr) (field : String)
    (expected : Option Ty) : Emit Unit := do
  let c ← get
  let emitted ← match library.inferCalleeKind obj field args.length c.typeScope c.ctx with
    | .enumCtor => emitEnumCtor library w callee args obj field expected
    | .enumName => emitEnumNameCall library w obj
    | .namespace => emitNamespaceCall library w callee args span obj field
    | .staticMethod => emitStaticMethodCall library w callee args span obj field
    | .instanceMethod => emitInstanceMethodCall library w callee args span obj field
    | .virtual => emitVirtualCall library w callee args span obj field
    | .fieldCall => emitFieldCall library w callee args obj field
    | .unresolved => pure false
  if emitted then return
  let shown := ((← get).typeOf library obj).getD "unknown type"
  error s!"no method \"{field}\" on {shown}" span

/-- A call of a bare name: a local, a function, a native, else a variant. -/
def nameCall (callee : Expr) (args : List CallArg) (span : Span) (name : String) (expected : Option Ty) :
    Emit Unit := do
  let c ← get
  if (c.slots name).isSome then
    loadLocalValue library w name span
    emitArgsExpecting library w callee args none
    emit (.callIndirect args.length)
  else match c.scope.resolveFunction library c.file name with
    | some idx =>
        let argc ← emitUnitArgs library w callee args span idx
        emit (.call idx argc)
    | none =>
        match c.scope.resolveNative library c.file name with
        | some symbol =>
            match isPrintNative symbol, args with
            | true, [arg] =>
                emitAsString library w arg.value
                emit (.callNative symbol 1)
            | _, _ =>
                emitArgsExpecting library w callee args none
                emit (.callNative symbol args.length)
        | none =>
            match c.bareVariant library name expected with
            | some (info, tag) =>
                emitArgsExpecting library w callee args expected
                emit (.enumNew info.ty tag args.length)
            | none => error s!"unknown function: {name}" span

def callExpr (span : Span) (callee : Expr) (args : List CallArg) (expected : Option Ty) : Emit Unit :=
  match callee with
  | .field _ obj member => methodCall library w callee args span obj member expected
  | .ident _ name => nameCall library w callee args span name expected
  | _ => error "unsupported call target" span

/-! ## Expressions -/

/-- The elements of a list; `[]` where a map is expected is the empty map. -/
def listExpr (items : List Expr) (expected : Option Ty) : Emit Unit := do
  if items.isEmpty && FnCompiler.expectsCore library expected "Map" then emit (.callNative "map_new" 0)
  else
    items.forM w.expr
    emit (.listNew items.length)

def mapExpr (entries : List MapEntry) : Emit Unit := do
  entries.forM fun entry => do
    w.expr entry.key
    w.expr entry.value
  emit (.callNative "map_new" (entries.length * 2))

/-- A bare payload-free variant where its enum is expected constructs; a binding wins. -/
def identExpr (name : String) (span : Span) (expected : Option Ty) : Emit Unit := do
  match (← get).bareVariant library name expected with
  | some (info, tag) => emit (.enumNew info.ty tag 0)
  | none => loadLocalValue library w name span

def exprExpecting (e : Expr) (expected : Option Ty) : Emit Unit :=
  match e with
  | .int _ v => emit (.constInt v)
  | .float _ v => emit (.constDouble v)
  | .bool _ v => emit (.constBool v)
  | .unit _ => emit (.simple .constUnit)
  | .str _ parts => stringExpr library w parts
  | .ident span name => identExpr library w name span expected
  | .unary span op operand => unaryExpr library w op operand span
  | .binary span left op right => binaryExpr library w left op right span
  | .listLit _ items => listExpr library w items expected
  | .mapLit _ entries => mapExpr w entries
  | .index span object index => do
      w.expr object
      w.expr index
      emitIndexGet library object span
  | .field span object member => fieldExpr library w object member span
  | .struct span typeName ns fields => structExpr library w span typeName ns fields
  | .call span callee _ _ args => callExpr library w span callee args expected
  | .propagate _ inner => propagateExpr w inner
  | .match _ _ subject arms => matchExpr library w subject arms expected
  | .block _ b => emitBlockValue w b expected
  | .if _ condition thenBlock elseBlock => ifExpr w condition thenBlock elseBlock expected
  | .return _ value => emitReturn library w value
  | .throw _ value => emitThrow library w value
  | .lambda span params body => lambdaExpr library span params body expected
  | .range span _ _ => error "a range is only valid as a for-loop iterable" span
  | .loc span => emitSourceLoc library w span
  | .error span => error "internal: unresolved parse error reached codegen" span

end

/-- The emitter with its recursion tied, for `fuel` nested calls. -/
def walker (library : Library) : ℕ → Walker
  | 0 => ⟨fun _ _ => failure, fun _ => failure⟩
  | fuel + 1 => ⟨exprExpecting library (walker library fuel), block library (walker library fuel)⟩

end Thera.Compiler
