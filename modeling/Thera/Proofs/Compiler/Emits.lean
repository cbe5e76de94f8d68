import Thera.Model.Compiler.StackEffect
import Thera.Proofs.Compiler.Syntax
import Thera.ToMathlib.Growing

/-! # What emission can do to a compiler

`Emits H p q` says that the point `q` is reached from `p` by the emitter's steps, each with what is known
where it is taken: the operands an instruction may have and those it finds on the stack, the labels a jump
may name, the slots a name may get. Every invariant of emission is read off this relation and not off the
emission functions.
-/

namespace Thera.Compiler

/-- The parameters of a declaration besides `self`. -/
def arity (params : List Param) : ℕ := params.countP fun p => !p.isSelf

/-- The values some written call passes, its receiver or qualifier counted. -/
def Passes (H : Hereditary) (argc : ℕ) : Prop :=
  ∃ (span : Span) (callee : Expr) (typeArgs recvTypeArgs : List TypeRef) (args : List CallArg),
    H.expr (.call span callee typeArgs recvTypeArgs args) ∧
      (argc ≤ args.length ∨ (∃ sp object member, callee = .field sp object member) ∧ argc = args.length + 1)

/-- The instructions the emitter may append to `c`, with where their operands come from. -/
inductive Site (H : Hereditary) (c : FnCompiler) : Instr → Prop
  | simple (op : Op) : Site H c (.simple op)
  | constInt (v : ℤ) : Site H c (.constInt v)
  | constDouble (v : Bytecode.F64) : Site H c (.constDouble v)
  | constBool (v : Bool) : Site H c (.constBool v)
  | constStr (v : String) : Site H c (.constStr v)
  | load (bound : slot < c.localCount) : Site H c (.load slot)
  | store (bound : slot < c.localCount) : Site H c (.store slot)
  | globalGet (found : c.scope.globalInFile owner name = some slot) : Site H c (.globalGet slot)
  | globalSet (member : init ∈ c.scope.globalInits) : Site H c (.globalSet init.slot)
  | callFunction (found : c.scope.functionInFile owner name = some func)
      (there : c.scope.units[func]? = some unit) (le : argc ≤ arity unit.decl.params) :
      Site H c (.call func argc)
  | callMethod {id : TypeId} (found : c.scope.methodTable.getIn id name = some func)
      (there : c.scope.units[func]? = some unit) (le : argc ≤ arity unit.decl.params + 1) :
      Site H c (.call func argc)
  | callOperator {id : TypeId} (found : c.scope.methodTable.getIn id name = some func) (le : argc ≤ 2) :
      Site H c (.call func argc)
  | callNative (le : argc ≤ maxConcatArgc ∨ Passes H argc) : Site H c (.callNative name argc)
  | mapNew (written : H.expr (.mapLit span entries)) : Site H c (.callNative "map_new" (entries.length * 2))
  | wellKnown (ty_le : ty ≤ 1) (tag_le : tag ≤ 1) : Site H c (.enumNew ty tag 1)
  | enumNew (found : c.scope.resolveEnum owner name = some info) (named : tagOf info variant = some tag)
      (le : count = 0 ∨ Passes H count) : Site H c (.enumNew info.ty tag count)
  | payload : Site H c (.enumGet 0)
  | enumGet (written : H.pattern (.constructor span name args)) (bound : i < args.length) :
      Site H c (.enumGet i)
  | cell (known : c.scope.cellType = some i) : Site H c (.structNew i)
  | structNew (found : c.scope.resolveStruct owner name = some info) : Site H c (.structNew info.index)
  | cellGet : Site H c (.fieldGet 0)
  | cellSet : Site H c (.fieldSet 0)
  | fieldGet (found : c.scope.resolveStruct owner name = some info) (bound : i < info.fieldNames.length) :
      Site H c (.fieldGet i)
  | fieldSet (found : c.scope.resolveStruct owner name = some info) (bound : i < info.fieldNames.length) :
      Site H c (.fieldSet i)
  | listNew (written : H.expr (.listLit span items)) : Site H c (.listNew items.length)
  | functionValue (found : c.scope.functionInFile owner name = some func) : Site H c (.closureNew func 0)
  | closureNew (written : H.expr (.lambda span params body)) (bound : func < c.scope.units.length)
      (le : count ≤ (freeVariables params body).length) : Site H c (.closureNew func count)
  | callIndirect (le : Passes H argc) : Site H c (.callIndirect argc)
  | callVirtual (le : argc ≤ 2 ∨ Passes H argc) : Site H c (.callVirtual selector argc)
  | callInterface (found : c.scope.interfaceMethodSigs.getIn iface selector = some sig)
      (le : argc ≤ arity sig.params + 1) : Site H c (.callVirtual selector argc)

/-- What compiling in a scope relies on: what the scope can make the emitter compile has the property, and
for balanced code that layouts, variants and the arguments of `len` are as declared. -/
structure ModuleScope.Ready (H : Hereditary) (library : Library) (scope : ModuleScope) : Prop where
  consts : ∀ {owner name : String} {e : Expr}, scope.constInFile owner name = some e → H.const e
  params : ∀ unit ∈ scope.units, H.params unit.decl.params
  bodies : ∀ unit ∈ scope.units, ∀ body, unit.decl.body = some body → H.block body
  sigs : ∀ {iface : TypeId} {m : String} {sig : IfaceMethodSig},
    scope.interfaceMethodSigs.getIn iface m = some sig → H.params sig.params
  layouts : ∀ {owner name : String} {info : StructInfo}, scope.resolveStruct owner name = some info →
    scope.types[info.index]?.map TypeDef.fieldCount = some info.fieldNames.length
  cell : ∀ {i : ℕ}, scope.cellType = some i → scope.types[i]?.map TypeDef.fieldCount = some 1
  variants : H.balanced → ∀ {owner name : String} {info : EnumInfo},
    scope.resolveEnum owner name = some info → info.variants ≠ []
  lengths : H.balanced → ∀ {span span' : Span} {object : Expr} {member : String} {typeArgs recvTypeArgs : List TypeRef}
    {args : List CallArg}, H.expr (.call span (.field span' object member) typeArgs recvTypeArgs args) →
    ∀ (types : TypeScope) (ctx : InferCtx) (t : String), nameOfType (library.inferExpr object types ctx none) = some t →
      scope.nativeInstanceMethods.getIn t member = some "list_len" → args = []

/-- The names in scope have slots, every slot has a binder, and the loops have labels. -/
structure FnCompiler.Ready (H : Hereditary) (library : Library) (c : FnCompiler) : Prop where
  slots : ∀ {name : String} {slot : ℕ}, c.slots name = some slot → slot < c.localCount
  binders : c.binders.length = c.localCount
  loops : ∀ loop ∈ c.loops, loop.continueLabel < c.labels.length ∧ loop.breakLabel < c.labels.length
  scope : c.scope.Ready H library

/-- A compiler in the middle of an emission, with the number of operands on the stack where it stands and
where each label stands. -/
structure Point where
  c : FnCompiler
  depth : ℕ
  heights : ℕ → ℕ

/-- Behind a jump, a return or an error nothing is known of the stack, so the depth may be any. -/
inductive Emits (H : Hereditary) : Point → Point → Prop
  | refl : Emits H p p
  | trans (first : Emits H p q) (second : Emits H q r) : Emits H p r
  | instr {i : Instr} (first : Emits H p ⟨t, d + i.pops t.scope.types, Λ⟩) (site : Site H t i) :
      Emits H p ⟨t.emit i, d + i.pushes, Λ⟩
  | return (first : Emits H p ⟨t, d + 1, Λ⟩) : Emits H p ⟨t.emit (.simple .return), e, Λ⟩
  | jump (first : Emits H p ⟨t, d, Λ⟩) (known : label < t.labels.length) (height : Λ label = d) :
      Emits H p ⟨t.emitJump .jump label, e, Λ⟩
  | branch (first : Emits H p ⟨t, d + 1, Λ⟩) (conditional : kind ≠ .jump) (known : label < t.labels.length)
      (height : Λ label = d) : Emits H p ⟨t.emitJump kind label, d, Λ⟩
  /-- A `break` or `continue` goes to a label of the innermost loop. -/
  | leave (first : Emits H p ⟨t, d, Λ⟩) (innermost : t.loops.getLast? = some loop)
      (target : label = loop.continueLabel ∨ label = loop.breakLabel) (known : label < t.labels.length)
      (height : H.balanced → Λ label = d) : Emits H p ⟨t.emitJump .jump label, e, Λ⟩
  | label (height : ℕ) (first : Emits H p ⟨t, d, Λ⟩) :
      Emits H p ⟨t.newLabel, d, Function.update Λ t.labels.length height⟩
  /-- Only the emission that made a label binds it. -/
  | bind (first : Emits H p ⟨t, d, Λ⟩) (own : p.c.labels.length ≤ label) (height : Λ label = d) :
      Emits H p ⟨t.bind label, d, Λ⟩
  | error (first : Emits H p ⟨t, d, Λ⟩) : Emits H p ⟨t.error message span, e, Λ⟩
  /-- Only balanced code keeps count. -/
  | recount (first : Emits H p ⟨t, d, Λ⟩) (same : H.balanced → d = e) : Emits H p ⟨t, e, Λ⟩
  | temporary (first : Emits H p ⟨t, d, Λ⟩) : Emits H p ⟨t.freshSlot .temporary, d, Λ⟩
  | loopVar (first : Emits H p ⟨t, d, Λ⟩) : Emits H p ⟨t.declareLocal name .loop, d, Λ⟩
  | letVar (first : Emits H p ⟨t, d, Λ⟩) (plain : name ∉ t.boxedLocals) :
      Emits H p ⟨t.declareLocal name .let, d, Λ⟩
  | cellVar (first : Emits H p ⟨t, d, Λ⟩) (boxed : name ∈ t.boxedLocals) :
      Emits H p ⟨(t.declareLocal name .let).holdCell t.localCount, d, Λ⟩
  | patternVar (first : Emits H p ⟨t, d, Λ⟩) (temporary : t.binders[slot]? = some .temporary) :
      Emits H p ⟨t.setSlot name slot, d, Λ⟩
  | types (first : Emits H p ⟨t, d, Λ⟩) : Emits H p ⟨t.setTypes types, d, Λ⟩
  | cellType (first : Emits H p ⟨t, d, Λ⟩) : Emits H p ⟨t.withScope t.scope.cellTypeIndex.2, d, Λ⟩
  | lift {captured : List String} {info : LambdaInfo} (first : Emits H p ⟨t, d, Λ⟩) (written : H.expr (.lambda span params body))
      (boxed : info.boxed = captured.filter (· ∈ t.boxedLocals))
      (cells : info.captures = captured.map fun name => (name, (t.slots name).any (· ∈ t.cells))) :
      Emits H p ⟨t.withScope (t.scope.addLambda (liftLambda span params body captured) info t.file), d, Λ⟩
  | access (first : Emits H p ⟨t, d, Λ⟩) (here : t.slots name = some slot) :
      Emits H p ⟨t.access name slot, d, Λ⟩
  | startConst (first : Emits H p ⟨t, d, Λ⟩) : Emits H p ⟨t.startConst key, d, Λ⟩
  | finishConst (first : Emits H p ⟨t, d, Λ⟩) : Emits H p ⟨t.finishConst key, d, Λ⟩
  | scope (first : Emits H p ⟨t, d, Λ⟩) (inner : Emits H ⟨t, d, Λ⟩ ⟨u, d', Λ'⟩) :
      Emits H p ⟨u.exitScope t, d', Λ'⟩
  | file (first : Emits H p ⟨t, d, Λ⟩)
      (inner : Emits H ⟨{ t.enterFileContext file with locSpan := locSpan }, d, Λ⟩ ⟨u, d', Λ'⟩) :
      Emits H p ⟨u.restoreFileContext t, d', Λ'⟩
  | loop {loop : LoopCtx} (first : Emits H p ⟨t, d, Λ⟩)
      (known : loop.continueLabel < t.labels.length ∧ loop.breakLabel < t.labels.length)
      (inner : Emits H ⟨t.pushLoop loop, d, Λ⟩ ⟨u, d', Λ'⟩) : Emits H p ⟨u.popLoop, d', Λ'⟩

/-! ## What stays and what only grows -/

/-- While bodies are compiled, a scope only gains lifted units and the cell's layout. -/
structure ModuleScope.Grows (a b : ModuleScope) : Prop where
  units : a.units <+: b.units
  types : a.types <+: b.types
  cellType : ∀ {i : ℕ}, a.cellType = some i → b.cellType = some i
  tables : b = { a with units := b.units, types := b.types, cellType := b.cellType, lambdas := b.lambdas }

namespace ModuleScope.Grows

theorem refl (a : ModuleScope) : a.Grows a := ⟨List.prefix_rfl, List.prefix_rfl, id, rfl⟩

theorem trans {a b d : ModuleScope} (first : a.Grows b) (second : b.Grows d) : a.Grows d where
  units := first.units.trans second.units
  types := first.types.trans second.types
  cellType known := second.cellType (first.cellType known)
  tables := by
    rw [second.tables, first.tables]

/-- Two scopes on the way to one have the same tables. -/
theorem tables_eq {a b d : ModuleScope} (first : a.Grows d) (second : b.Grows d) :
    b = { a with units := b.units, types := b.types, cellType := b.cellType, lambdas := b.lambdas } := by
  have same := first.tables.symm.trans second.tables
  simp only [ModuleScope.mk.injEq] at same
  cases a
  cases b
  simp_all

theorem addLambda (a : ModuleScope) (decl : FnDecl) (info : LambdaInfo) (file : Option String) :
    a.Grows (a.addLambda decl info file) :=
  ⟨List.prefix_append _ _, List.prefix_rfl, id, rfl⟩

theorem cellTypeIndex (a : ModuleScope) : a.Grows a.cellTypeIndex.2 := by
  unfold ModuleScope.cellTypeIndex
  cases known : a.cellType with
  | some i => exact refl a
  | none => exact ⟨List.prefix_rfl, List.prefix_append _ _, fun some => by simp [known] at some, rfl⟩

end ModuleScope.Grows

/-- An emission appends code, labels, slots and errors, and leaves alone what was there. -/
structure Frame (s s' : FnCompiler) : Prop where
  code : s.code <+: s'.code
  labels : s.labels <+: s'.labels
  fixups : s.fixups <+: s'.fixups
  localCount : s.localCount ≤ s'.localCount
  binders : s.binders <+: s'.binders
  errors : s.errors <+: s'.errors
  accesses : s.accesses <+: s'.accesses
  loops : s'.loops = s.loops
  boxedLocals : s'.boxedLocals = s.boxedLocals
  paramCount : s'.paramCount = s.paramCount
  context : s'.file = s.file ∧ s'.ctx = s.ctx ∧ s'.typeParamBounds = s.typeParamBounds ∧ s'.locSpan = s.locSpan
  scope : s.scope.Grows s'.scope

namespace Frame

theorem refl (s : FnCompiler) : Frame s s where
  code := List.prefix_rfl
  labels := List.prefix_rfl
  fixups := List.prefix_rfl
  localCount := Nat.le_refl _
  binders := List.prefix_rfl
  errors := List.prefix_rfl
  accesses := List.prefix_rfl
  loops := rfl
  boxedLocals := rfl
  paramCount := rfl
  context := ⟨rfl, rfl, rfl, rfl⟩
  scope := .refl _

theorem trans {s t u : FnCompiler} (first : Frame s t) (second : Frame t u) : Frame s u where
  code := first.code.trans second.code
  labels := first.labels.trans second.labels
  fixups := first.fixups.trans second.fixups
  localCount := Nat.le_trans first.localCount second.localCount
  binders := first.binders.trans second.binders
  errors := first.errors.trans second.errors
  accesses := first.accesses.trans second.accesses
  loops := second.loops.trans first.loops
  boxedLocals := second.boxedLocals.trans first.boxedLocals
  paramCount := second.paramCount.trans first.paramCount
  context := by
    obtain ⟨f, c, b, l⟩ := first.context
    obtain ⟨f', c', b', l'⟩ := second.context
    exact ⟨f'.trans f, c'.trans c, b'.trans b, l'.trans l⟩
  scope := first.scope.trans second.scope

end Frame

/-- Binding a label beyond those of `labels` keeps them in front. -/
private theorem prefix_set {labels labels' : List (Option ℕ)} (h : labels <+: labels') {label : ℕ}
    (beyond : labels.length ≤ label) (pos : Option ℕ) : labels <+: labels'.set label pos := by
  obtain ⟨rest, rfl⟩ := h
  rw [List.set_append_right _ _ beyond]
  exact List.prefix_append _ _

theorem Emits.frame {H : Hereditary} {p q : Point} (emits : Emits H p q) : Frame p.c q.c := by
  induction emits with
  | refl => exact .refl _
  | trans _ _ ih ih' => exact ih.trans ih'
  | instr _ _ ih | «return» _ ih => exact ih.trans { Frame.refl _ with code := List.prefix_append _ _ }
  | jump _ _ _ ih | branch _ _ _ _ ih | leave _ _ _ _ _ ih =>
    exact ih.trans { Frame.refl _ with code := List.prefix_append _ _, fixups := List.prefix_append _ _ }
  | label _ _ ih => exact ih.trans { Frame.refl _ with labels := List.prefix_append _ _ }
  | bind _ own _ ih => exact { ih with labels := prefix_set ih.labels own _ }
  | error _ ih => exact ih.trans { Frame.refl _ with errors := List.prefix_append _ _ }
  | recount _ _ ih => exact ih
  | temporary _ ih | loopVar _ ih | letVar _ _ ih | cellVar _ _ ih =>
    exact ih.trans { Frame.refl _ with localCount := Nat.le_succ _, binders := List.prefix_append _ _ }
  | patternVar _ _ ih | types _ ih | startConst _ ih | finishConst _ ih => exact ih.trans { Frame.refl _ with }
  | cellType _ ih => exact ih.trans { Frame.refl _ with scope := .cellTypeIndex _ }
  | lift _ _ _ _ ih => exact ih.trans { Frame.refl _ with scope := .addLambda _ _ _ _ }
  | access _ _ ih => exact ih.trans { Frame.refl _ with accesses := List.prefix_append _ _ }
  | scope _ _ ih inner => exact ih.trans { inner with }
  | file _ _ ih inner => exact ih.trans { inner with context := ⟨rfl, rfl, rfl, rfl⟩ }
  | loop _ _ _ ih inner =>
    refine ih.trans { inner with loops := ?_ }
    change List.dropLast _ = _
    rw [inner.loops]
    exact List.dropLast_concat

/-- An emission leaves alone where the labels before it stand. -/
theorem Emits.heights {H : Hereditary} {p q : Point} (emits : Emits H p q) {label : ℕ}
    (old : label < p.c.labels.length) : q.heights label = p.heights label := by
  induction emits with
  | refl => rfl
  | trans first _ ih ih' => exact (ih' (Nat.lt_of_lt_of_le old first.frame.labels.length_le)).trans (ih old)
  | label _ first ih =>
    have le := first.frame.labels.length_le
    exact (Function.update_of_ne (Nat.ne_of_lt (Nat.lt_of_lt_of_le old le)) _ _).trans (ih old)
  | scope first _ ih ih' | file first _ ih ih' | loop first _ _ ih ih' =>
    exact (ih' (Nat.lt_of_lt_of_le old first.frame.labels.length_le)).trans (ih old)
  | instr _ _ ih | «return» _ ih | jump _ _ _ ih | branch _ _ _ _ ih | leave _ _ _ _ _ ih | bind _ _ _ ih | error _ ih
  | recount _ _ ih | temporary _ ih | loopVar _ ih | letVar _ _ ih | cellVar _ _ ih | patternVar _ _ ih | types _ ih
  | cellType _ ih | lift _ _ _ _ ih | access _ _ ih | startConst _ ih | finishConst _ ih => exact ih old

namespace ModuleScope.Ready

variable {H : Hereditary} {library : Library} {scope : ModuleScope}

/-- A lifted lambda has no defaults, and its body is the lambda's. -/
theorem addLambda (ready : scope.Ready H library) {span : Span} {params : List LambdaParam} {body : Expr}
    (written : H.expr (.lambda span params body)) (captured : List String) (info : LambdaInfo)
    (file : Option String) : (scope.addLambda (liftLambda span params body captured) info file).Ready H library where
  consts := ready.consts
  sigs := ready.sigs
  layouts := ready.layouts
  cell := ready.cell
  variants := ready.variants
  lengths := ready.lengths
  params unit member := by
    rcases List.mem_append.mp member with old | new
    · exact ready.params unit old
    · obtain rfl := List.mem_singleton.mp new
      intro p parameter e default
      rcases List.mem_append.mp parameter with capture | own
      · obtain ⟨_, _, rfl⟩ := List.mem_map.mp capture
        cases default
      · obtain ⟨_, _, rfl⟩ := List.mem_map.mp own
        cases default
  bodies unit member := by
    rcases List.mem_append.mp member with old | new
    · exact ready.bodies unit old
    · obtain rfl := List.mem_singleton.mp new
      rintro _ ⟨⟩
      refine ⟨fun e child => ?_, fun _ e held => ?_⟩
      · obtain rfl : e = body := by simpa [Block.children, stmtsChildren, Stmt.children] using child
        exact H.child written (by simp [Expr.children])
      · simp [Block.held, stmtsHeld, Stmt.held] at held

theorem cellTypeIndex (ready : scope.Ready H library) : scope.cellTypeIndex.2.Ready H library := by
  unfold ModuleScope.cellTypeIndex
  split
  · exact ready
  · refine ⟨ready.consts, ready.params, ready.bodies, ready.sigs, fun found => ?_, fun known => ?_, ready.variants,
      ready.lengths⟩
    · have old := ready.layouts found
      obtain ⟨layout, there, _⟩ := Option.map_eq_some_iff.mp old
      rw [List.getElem?_append_left (List.getElem?_eq_some_iff.mp there).1]
      exact old
    · cases known
      simp

end ModuleScope.Ready

namespace FnCompiler.Ready

variable {H : Hereditary} {library : Library} {c : FnCompiler}

/-- Another slot, named or not. -/
theorem declare (ready : c.Ready H library) {c' : FnCompiler} {binder : Binder}
    (slots : ∀ {name : String} {slot : ℕ}, c'.slots name = some slot → c.slots name = some slot ∨ slot = c.localCount)
    (localCount : c'.localCount = c.localCount + 1) (binders : c'.binders = c.binders ++ [binder])
    (loops : c'.loops = c.loops) (labels : c'.labels = c.labels) (scope : c'.scope = c.scope) : c'.Ready H library where
  slots here := by
    rcases slots here with old | rfl
    · exact localCount ▸ Nat.lt_succ_of_lt (ready.slots old)
    · exact localCount ▸ Nat.lt_succ_self _
  binders := by rw [binders, localCount, List.length_append, ready.binders]; rfl
  loops := by rw [loops, labels]; exact ready.loops
  scope := scope ▸ ready.scope

/-- What a name stands for after one got a slot. -/
theorem slots_update {slots : String → Option ℕ} {name key : String} {new slot : ℕ}
    (here : Function.update slots name (some new) key = some slot) : slots key = some slot ∨ key = name ∧ slot = new := by
  rw [Function.update_apply] at here
  split at here
  next eq => exact .inr ⟨eq, (Option.some.inj here).symm⟩
  next => exact .inl here

/-- The top level of a file has no locals. -/
theorem enterFile (ready : c.Ready H library) (file : Option String) (locSpan : Option Span) :
    FnCompiler.Ready H library { c.enterFileContext file with locSpan := locSpan } :=
  ⟨fun here => (by cases here), ready.binders, ready.loops, ready.scope⟩

theorem pushLoop (ready : c.Ready H library) {loop : LoopCtx}
    (known : loop.continueLabel < c.labels.length ∧ loop.breakLabel < c.labels.length) :
    (c.pushLoop loop).Ready H library := by
  refine ⟨ready.slots, ready.binders, fun other member => ?_, ready.scope⟩
  rcases List.mem_append.mp member with old | new
  · exact ready.loops other old
  · obtain rfl := List.mem_singleton.mp new
    exact known

end FnCompiler.Ready

theorem Emits.ready {H : Hereditary} {library : Library} {p q : Point} (emits : Emits H p q)
    (ready : p.c.Ready H library) : q.c.Ready H library := by
  induction emits with
  | refl => exact ready
  | trans _ _ ih ih' => exact ih' (ih ready)
  | recount _ _ ih => exact ih ready
  | instr _ _ ih | «return» _ ih | jump _ _ _ ih | branch _ _ _ _ ih | leave _ _ _ _ _ ih | error _ ih | types _ ih
  | access _ _ ih | startConst _ ih | finishConst _ ih =>
    exact ⟨(ih ready).slots, (ih ready).binders, (ih ready).loops, (ih ready).scope⟩
  | label _ _ ih =>
    refine ⟨(ih ready).slots, (ih ready).binders, fun loop member => ?_, (ih ready).scope⟩
    have old := (ih ready).loops loop member
    rw [FnCompiler.newLabel, List.length_append]
    exact ⟨Nat.lt_add_right _ old.1, Nat.lt_add_right _ old.2⟩
  | bind _ _ _ ih =>
    refine ⟨(ih ready).slots, (ih ready).binders, fun loop member => ?_, (ih ready).scope⟩
    rw [FnCompiler.bind, List.length_set]
    exact (ih ready).loops loop member
  | temporary _ ih => exact (ih ready).declare .inl rfl rfl rfl rfl rfl
  | loopVar _ ih | letVar _ _ ih | cellVar _ _ ih =>
    exact (ih ready).declare (fun here => (FnCompiler.Ready.slots_update here).imp_right And.right) rfl rfl rfl rfl rfl
  | patternVar _ temporary ih =>
    refine ⟨fun here => ?_, (ih ready).binders, (ih ready).loops, (ih ready).scope⟩
    rcases FnCompiler.Ready.slots_update here with old | ⟨-, rfl⟩
    · exact (ih ready).slots old
    · exact (ih ready).binders ▸ (List.getElem?_eq_some_iff.mp temporary).1
  | cellType _ ih => exact ⟨(ih ready).slots, (ih ready).binders, (ih ready).loops, (ih ready).scope.cellTypeIndex⟩
  | lift _ written _ _ ih =>
    exact ⟨(ih ready).slots, (ih ready).binders, (ih ready).loops, (ih ready).scope.addLambda written _ _ _⟩
  | scope _ inner ih ih' =>
    have after := ih' (ih ready)
    exact ⟨fun here => Nat.lt_of_lt_of_le ((ih ready).slots here) inner.frame.localCount, after.binders, after.loops,
      after.scope⟩
  | file _ inner ih ih' =>
    have after := ih' ((ih ready).enterFile _ _)
    exact ⟨fun here => Nat.lt_of_lt_of_le ((ih ready).slots here) inner.frame.localCount, after.binders, after.loops,
      after.scope⟩
  | loop _ known inner ih ih' =>
    have after := ih' ((ih ready).pushLoop known)
    exact ⟨after.slots, after.binders, fun loop member => after.loops loop (List.dropLast_subset _ member), after.scope⟩

end Thera.Compiler
