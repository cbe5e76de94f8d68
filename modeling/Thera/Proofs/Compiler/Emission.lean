import Thera.Proofs.Compiler.Emits
import Thera.Proofs.Compiler.Tables
import Thera.ToMathlib.PartialState

/-! # The emission functions only take the emitter's steps

One lemma per emission function, each under the assumption that the recursive calls do: an expression
leaves one operand more than it found, a statement as many as it found.
-/

namespace Thera.Compiler

open PartialState

section

variable {s : FnCompiler} {Q : Unit → FnCompiler → Prop}

@[simp] theorem ensures_emit {i : Instr} : Ensures (emit i) s Q ↔ Q () (s.emit i) := ensures_modify _ s Q

@[simp] theorem ensures_error {message : String} {span : Span} :
    Ensures (error message span) s Q ↔ Q () (s.error message span) := ensures_modify _ s Q

@[simp] theorem ensures_bindLabel {label : ℕ} : Ensures (bindLabel label) s Q ↔ Q () (s.bind label) :=
  ensures_modify _ s Q

@[simp] theorem ensures_emitJump {kind : Jk} {label : ℕ} :
    Ensures (emitJump kind label) s Q ↔ Q () (s.emitJump kind label) := ensures_modify _ s Q

@[simp] theorem ensures_newLabel {Q : ℕ → FnCompiler → Prop} :
    Ensures newLabel s Q ↔ Q s.labels.length s.newLabel := by
  simp [newLabel]

@[simp] theorem ensures_freshSlot {binder : Binder} {Q : ℕ → FnCompiler → Prop} :
    Ensures (freshSlot binder) s Q ↔ Q s.localCount (s.freshSlot binder) := by
  simp [freshSlot]

@[simp] theorem ensures_declareLocal {name : String} {binder : Binder} {Q : ℕ → FnCompiler → Prop} :
    Ensures (declareLocal name binder) s Q ↔ Q s.localCount (s.declareLocal name binder) := by
  simp [declareLocal]

@[simp] theorem ensures_inScope {α : Type} {body : Emit α} {Q : α → FnCompiler → Prop} :
    Ensures (inScope body) s Q ↔ Ensures body s fun a t => Q a (t.exitScope s) := by
  simp [inScope]

@[simp] theorem ensures_inFile {file : Option String} {locSpan : Option Span} {body : Emit Unit} :
    Ensures (inFile file locSpan body) s Q ↔
      Ensures body { s.enterFileContext file with locSpan := locSpan } fun _ t => Q () (t.restoreFileContext s) := by
  simp [inFile]

@[simp] theorem ensures_inLoop {loop : LoopCtx} {body : Emit Unit} :
    Ensures (inLoop loop body) s Q ↔ Ensures body (s.pushLoop loop) fun _ t => Q () t.popLoop := by
  simp [inLoop]

end

/-! ## Labels of the steps -/

section

variable (c : FnCompiler)

@[simp] theorem FnCompiler.newLabel_labels_length : c.newLabel.labels.length = c.labels.length + 1 := by
  simp [FnCompiler.newLabel]

@[simp] theorem FnCompiler.bind_labels_length (label : ℕ) : (c.bind label).labels.length = c.labels.length := by
  simp [FnCompiler.bind]

/-- Compilers with equally many labels: only `newLabel` makes one. -/
class SameLabels (c s : FnCompiler) : Prop where
  eq : c.labels.length = s.labels.length

namespace SameLabels

variable {c} {s : FnCompiler}

instance refl : SameLabels c c := ⟨rfl⟩

instance emit [same : SameLabels c s] (i : Instr) : SameLabels (c.emit i) s := ⟨same.eq⟩

instance emitJump [same : SameLabels c s] (kind : Jk) (label : ℕ) : SameLabels (c.emitJump kind label) s := ⟨same.eq⟩

instance bind [same : SameLabels c s] (label : ℕ) : SameLabels (c.bind label) s :=
  ⟨(c.bind_labels_length label).trans same.eq⟩

instance freshSlot [same : SameLabels c s] (binder : Binder) : SameLabels (c.freshSlot binder) s := ⟨same.eq⟩

instance pushLoop [same : SameLabels c s] (loop : LoopCtx) : SameLabels (c.pushLoop loop) s := ⟨same.eq⟩

instance popLoop [same : SameLabels c s] : SameLabels c.popLoop s := ⟨same.eq⟩

instance exitScope [same : SameLabels c s] (saved : FnCompiler) : SameLabels (c.exitScope saved) s := ⟨same.eq⟩

end SameLabels

end

/-! ## Where a jump may stand -/

/-- The labels of the innermost loop are at the depth of the point. -/
def Point.Free (p : Point) : Prop :=
  ∀ loop, p.c.loops.getLast? = some loop →
    p.heights loop.continueLabel = p.depth ∧ p.heights loop.breakLabel = p.depth

/-- The jumps of an expression compiled here find the stack as their loop expects it. -/
def Clear (H : Hereditary) (p : Point) (e : Expr) : Prop := H.balanced → p.Free ∨ ¬ Loose e

def ClearBlock (H : Hereditary) (p : Point) (b : Block) : Prop := H.balanced → p.Free ∨ b.Quiet

def ClearStmt (H : Hereditary) (p : Point) (s : Stmt) : Prop := H.balanced → p.Free ∨ s.Quiet

section

variable {H : Hereditary} {library : Library} {s t u : FnCompiler} {d d' : ℕ} {Λ Λ' : ℕ → ℕ}

theorem Emits.free (emits : Emits H ⟨s, d, Λ⟩ ⟨t, d, Λ'⟩) (ready : s.Ready H library)
    (free : Point.Free ⟨s, d, Λ⟩) : Point.Free ⟨t, d, Λ'⟩ := by
  intro loop innermost
  have old : s.loops.getLast? = some loop := emits.frame.loops ▸ innermost
  have known := ready.loops loop (List.mem_of_getLast? old)
  exact ⟨(emits.heights known.1).trans (free loop old).1, (emits.heights known.2).trans (free loop old).2⟩

/-- The expression may be compiled here. -/
structure Suits (H : Hereditary) (p : Point) (e : Expr) : Prop where
  expr : H.expr e
  clear : Clear H p e

structure SuitsBlock (H : Hereditary) (p : Point) (b : Block) : Prop where
  block : H.block b
  clear : ClearBlock H p b

structure SuitsStmt (H : Hereditary) (p : Point) (s : Stmt) : Prop where
  stmt : H.stmt s
  clear : ClearStmt H p s

theorem Suits.part {p : Point} {e e' : Expr} (suits : Suits H p e) (child : e' ∈ e.children) (same : e' ∈ e.sameLoop) :
    Suits H p e' :=
  ⟨H.child suits.expr child, fun balanced => (suits.clear balanced).imp_right fun quiet loose => quiet (.inside same loose)⟩

theorem Suits.after {e : Expr} (suits : Suits H ⟨s, d, Λ⟩ e) (ready : s.Ready H library)
    (emits : Emits H ⟨s, d, Λ⟩ ⟨t, d, Λ'⟩) : Suits H ⟨t, d, Λ'⟩ e :=
  ⟨suits.expr, fun balanced => (suits.clear balanced).imp_left (emits.free ready)⟩

theorem SuitsBlock.after {b : Block} (suits : SuitsBlock H ⟨s, d, Λ⟩ b) (ready : s.Ready H library)
    (emits : Emits H ⟨s, d, Λ⟩ ⟨t, d, Λ'⟩) : SuitsBlock H ⟨t, d, Λ'⟩ b :=
  ⟨suits.block, fun balanced => (suits.clear balanced).imp_left (emits.free ready)⟩

theorem SuitsBlock.stmt {p : Point} {b : Block} (suits : SuitsBlock H p b) {st : Stmt} (member : st ∈ b.stmts) :
    SuitsStmt H p st :=
  ⟨Hereditary.block_stmt suits.block member, fun balanced => (suits.clear balanced).imp_right fun quiet => quiet.stmt member⟩

theorem SuitsBlock.tail {p : Point} {b : Block} (suits : SuitsBlock H p b) {e : Expr} (tail : b.tail = some e) :
    Suits H p e :=
  ⟨Hereditary.block_tail suits.block tail, fun balanced => (suits.clear balanced).imp_right fun quiet => quiet.tail tail⟩

theorem SuitsStmt.part {p : Point} {st : Stmt} {e : Expr} (suits : SuitsStmt H p st) (child : e ∈ st.children)
    (same : e ∈ st.sameLoop) : Suits H p e :=
  ⟨suits.stmt.exprs e child, fun balanced => (suits.clear balanced).imp_right fun quiet => quiet.exprs e same⟩

theorem SuitsStmt.after {st : Stmt} (suits : SuitsStmt H ⟨s, d, Λ⟩ st) (ready : s.Ready H library)
    (emits : Emits H ⟨s, d, Λ⟩ ⟨t, d, Λ'⟩) : SuitsStmt H ⟨t, d, Λ'⟩ st :=
  ⟨suits.stmt, fun balanced => (suits.clear balanced).imp_left (emits.free ready)⟩

/-- A block of a statement. -/
theorem Hereditary.stmt.body {st : Stmt} (h : H.stmt st) {b : Block} (children : b.children ⊆ st.children)
    (held : b.held ⊆ st.held) : H.block b :=
  ⟨fun e child => h.exprs e (children child), fun balanced e inside => h.held balanced e (held inside)⟩

theorem SuitsStmt.block {p : Point} {st : Stmt} (suits : SuitsStmt H p st) {b : Block} (children : b.children ⊆ st.children)
    (held : b.held ⊆ st.held) (stays : st.leaves = false → b.leaves = false) (inside : b.sameLoop ⊆ st.sameLoop) :
    SuitsBlock H p b :=
  ⟨suits.stmt.body children held, fun balanced => (suits.clear balanced).imp_right fun quiet =>
    ⟨stays quiet.stays, fun e member => quiet.exprs e (inside member)⟩⟩

/-- A jump stands where its loop expects the stack. -/
theorem SuitsStmt.free {p : Point} {st : Stmt} (suits : SuitsStmt H p st) (leaves : st.leaves = true) (balanced : H.balanced) :
    p.Free :=
  (suits.clear balanced).resolve_right fun quiet => Bool.false_ne_true (quiet.stays.symm.trans leaves)

/-- An operand that follows another has no jumps to clear. -/
theorem Hereditary.const.held {e e' : Expr} (h : H.expr e) (child : e' ∈ e.children) (held : e' ∈ e.held) : H.const e' :=
  ⟨H.child h child, fun balanced => H.held balanced h held⟩

theorem Suits.const {p : Point} {e : Expr} (h : H.const e) : Suits H p e := ⟨h.expr, fun balanced => .inr (h.quiet balanced)⟩

end

/-! ## Instructions by what they do to the stack -/

namespace Emits

variable {H : Hereditary} {p : Point} {t : FnCompiler} {d : ℕ} {Λ : ℕ → ℕ}

theorem load (first : Emits H p ⟨t, d, Λ⟩) {slot : ℕ} (bound : slot < t.localCount) :
    Emits H p ⟨t.emit (.load slot), d + 1, Λ⟩ := first.instr (i := .load slot) (.load bound)

theorem store (first : Emits H p ⟨t, d + 1, Λ⟩) {slot : ℕ} (bound : slot < t.localCount) :
    Emits H p ⟨t.emit (.store slot), d, Λ⟩ := first.instr (i := .store slot) (.store bound)

/-- An instruction that puts on one operand more than it takes off. -/
theorem push (first : Emits H p ⟨t, d, Λ⟩) {i : Instr} (site : Site H t i) (none : i.pops t.scope.types = 0)
    (one : i.pushes = 1) : Emits H p ⟨t.emit i, d + 1, Λ⟩ := by
  rw [← one]
  exact Emits.instr (by rwa [none]) site

theorem int (first : Emits H p ⟨t, d, Λ⟩) (v : ℤ) : Emits H p ⟨t.emit (.constInt v), d + 1, Λ⟩ :=
  first.push (.constInt v) rfl rfl

/-- An instruction that takes `n` operands for one. -/
theorem take {n : ℕ} (first : Emits H p ⟨t, d + n, Λ⟩) {i : Instr} (site : Site H t i) (pops : i.pops t.scope.types = n)
    (one : i.pushes = 1) : Emits H p ⟨t.emit i, d + 1, Λ⟩ := by
  subst pops
  rw [← one]
  exact Emits.instr first site

theorem unop (first : Emits H p ⟨t, d + 1, Λ⟩) (op : Op) (pops : op.pops = 1) (one : op.pushes = 1) :
    Emits H p ⟨t.emit (.simple op), d + 1, Λ⟩ := first.take (.simple op) pops one

theorem binop (first : Emits H p ⟨t, d + 2, Λ⟩) (op : Op) (pops : op.pops = 2) (one : op.pushes = 1) :
    Emits H p ⟨t.emit (.simple op), d + 1, Λ⟩ := first.take (.simple op) pops one

theorem unit (first : Emits H p ⟨t, d, Λ⟩) : Emits H p ⟨t.emit (.simple .constUnit), d + 1, Λ⟩ :=
  first.push (.simple _) rfl rfl

theorem pop (first : Emits H p ⟨t, d + 1, Λ⟩) : Emits H p ⟨t.emit (.simple .pop), d, Λ⟩ :=
  first.instr (i := .simple .pop) (.simple _)

/-- A slot is still there after another emission. -/
theorem slot_lt {s u : FnCompiler} {d' : ℕ} {Λ' : ℕ → ℕ} (emits : Emits H ⟨s, d, Λ⟩ ⟨u, d', Λ'⟩) {slot : ℕ}
    (bound : slot < s.localCount) : slot < u.localCount := Nat.lt_of_lt_of_le bound emits.frame.localCount

end Emits

/-! ## Labels made on the way -/

/-- A label made on the way from `p` to `q`, to stand where `height` operands are on the stack. -/
structure Fresh (p q : Point) (label height : ℕ) : Prop where
  own : p.c.labels.length ≤ label
  known : label < q.c.labels.length
  height : q.heights label = height

section

variable {H : Hereditary} {p : Point} {t u v : FnCompiler} {d d' height label : ℕ} {Λ Λ' : ℕ → ℕ}

/-- It is still there after another emission. -/
theorem Fresh.after (fresh : Fresh p ⟨t, d, Λ⟩ label height) {e : ℕ} (emits : Emits H ⟨u, d', Λ⟩ ⟨v, e, Λ'⟩)
    [same : SameLabels u t] : Fresh p ⟨v, e, Λ'⟩ label height := by
  have known : label < u.labels.length := same.eq ▸ fresh.known
  exact ⟨fresh.own, Nat.lt_of_lt_of_le known emits.frame.labels.length_le, (emits.heights known).trans fresh.height⟩

namespace Emits

theorem goto (first : Emits H p ⟨t, d, Λ⟩) {q : Point} {e : ℕ} (fresh : Fresh q ⟨u, d', Λ⟩ label d)
    [same : SameLabels t u] : Emits H p ⟨t.emitJump .jump label, e, Λ⟩ :=
  first.jump (same.eq ▸ fresh.known) fresh.height

theorem test (first : Emits H p ⟨t, d + 1, Λ⟩) (kind : Jk) (conditional : kind ≠ .jump) {q : Point} {e : ℕ}
    (fresh : Fresh q ⟨u, e, Λ⟩ label d) [same : SameLabels t u] : Emits H p ⟨t.emitJump kind label, d, Λ⟩ :=
  first.branch conditional (same.eq ▸ fresh.known) fresh.height

section

variable (first : Emits H p ⟨t, d, Λ⟩)

include first

theorem place {e : ℕ} (fresh : Fresh p ⟨u, e, Λ⟩ label d) :
    Emits H p ⟨t.bind label, d, Λ⟩ := first.bind fresh.own fresh.height

theorem label₁ (a : ℕ) :
    ∃ Λ', Emits H p ⟨t.newLabel, d, Λ'⟩ ∧ Fresh p ⟨t.newLabel, d, Λ'⟩ t.labels.length a :=
  ⟨_, first.label a, first.frame.labels.length_le, by simp, Function.update_self ..⟩

theorem label₂ (a b : ℕ) : ∃ Λ', Emits H p ⟨t.newLabel.newLabel, d, Λ'⟩ ∧
    Fresh p ⟨t.newLabel.newLabel, d, Λ'⟩ t.labels.length a ∧
    Fresh p ⟨t.newLabel.newLabel, d, Λ'⟩ t.newLabel.labels.length b := by
  obtain ⟨K, one, fresh⟩ := first.label₁ a
  have again : Emits H ⟨t.newLabel, d, K⟩ _ := .label b .refl
  exact ⟨_, one.label b, fresh.after again, one.frame.labels.length_le, by simp, Function.update_self ..⟩

theorem label₃ (a b c : ℕ) : ∃ Λ', Emits H p ⟨t.newLabel.newLabel.newLabel, d, Λ'⟩ ∧
    Fresh p ⟨t.newLabel.newLabel.newLabel, d, Λ'⟩ t.labels.length a ∧
    Fresh p ⟨t.newLabel.newLabel.newLabel, d, Λ'⟩ t.newLabel.labels.length b ∧
    Fresh p ⟨t.newLabel.newLabel.newLabel, d, Λ'⟩ t.newLabel.newLabel.labels.length c := by
  obtain ⟨K, two, fresh, fresh'⟩ := first.label₂ a b
  have again : Emits H ⟨t.newLabel.newLabel, d, K⟩ _ := .label c .refl
  exact ⟨_, two.label c, fresh.after again, fresh'.after again, two.frame.labels.length_le, by simp,
    Function.update_self ..⟩

end

end Emits

end


/-- Some emission leads from `p` to `t` with `d` operands on the stack. -/
def Leads (H : Hereditary) (p : Point) (d : ℕ) (t : FnCompiler) : Prop := ∃ Λ, Emits H p ⟨t, d, Λ⟩

theorem Emits.leads {H : Hereditary} {p : Point} {t : FnCompiler} {d : ℕ} {Λ : ℕ → ℕ} (emits : Emits H p ⟨t, d, Λ⟩) :
    Leads H p d t := ⟨Λ, emits⟩

/-- Run at `p`, the emission leaves `d` operands on the stack. -/
abbrev Runs (H : Hereditary) (m : Emit Unit) (p : Point) (d : ℕ) : Prop := Ensures m p.c fun _ => Leads H p d

/-- The recursive calls take the emitter's steps. -/
structure Walker.Sound (H : Hereditary) (library : Library) (w : Walker) : Prop where
  exprExpecting : ∀ {e : Expr} {expected : Option Ty} {s : FnCompiler} {d : ℕ} {Λ : ℕ → ℕ}, s.Ready H library → H.expr e →
    Clear H ⟨s, d, Λ⟩ e → Runs H (w.exprExpecting e expected) ⟨s, d, Λ⟩ (d + 1)
  block : ∀ {b : Block} {s : FnCompiler} {d : ℕ} {Λ : ℕ → ℕ}, s.Ready H library → H.block b →
    ClearBlock H ⟨s, d, Λ⟩ b → Runs H (w.block b) ⟨s, d, Λ⟩ d

section

variable {H : Hereditary} {library : Library} {w : Walker} {s t : FnCompiler} {d d' : ℕ} {Λ Λ' : ℕ → ℕ}

variable {expected : Option Ty} {Q : Unit → FnCompiler → Prop} {name : String} {span : Span} {slot : ℕ}
  {info : StructInfo} {value condition : Expr} {varName : Option String} {p : Point} {body : Block}
  {ctx : MatchCtx} {cases : Table ℕ MatchArm}

/-- An emission in the middle of another. -/
theorem Emits.run {m : Emit Unit} {e : ℕ} (first : Emits H p ⟨t, d, Λ⟩)
    (ran : Runs H m ⟨t, d, Λ⟩ e)
    (next : ∀ u Λ', Emits H ⟨t, d, Λ⟩ ⟨u, e, Λ'⟩ → Emits H p ⟨u, e, Λ'⟩ → Q () u) : Ensures m t Q := by
  refine ran.mono fun _ u emitted => ?_
  obtain ⟨Λ', second⟩ := emitted
  exact next u Λ' second (first.trans second)

/-- An emission at the end of another. -/
theorem Emits.last {m : Emit Unit} {e : ℕ} (first : Emits H p ⟨t, d, Λ⟩)
    (ran : Runs H m ⟨t, d, Λ⟩ e) : Ensures m t fun _ => Leads H p e :=
  first.run ran fun _ _ _ reached => reached.leads

/-- Behind an error the depth may be any. -/
theorem error_leads {message : String} {e : ℕ} : Runs H (error message span) ⟨s, d, Λ⟩ e :=
  ensures_error.mpr (Emits.refl (p := ⟨s, d, Λ⟩)).error.leads

/-- A recursive call in the middle of an emission. -/
theorem Walker.Sound.expr (sound : w.Sound H library) {e : Expr} (ready : s.Ready H library)
    (first : Emits H ⟨s, d, Λ⟩ ⟨t, d', Λ'⟩) (suits : Suits H ⟨t, d', Λ'⟩ e)
    (next : ∀ u Λ'', Emits H ⟨t, d', Λ'⟩ ⟨u, d' + 1, Λ''⟩ → Emits H ⟨s, d, Λ⟩ ⟨u, d' + 1, Λ''⟩ → Q () u) :
    Ensures (w.exprExpecting e expected) t Q :=
  first.run (sound.exprExpecting (first.ready ready) suits.expr suits.clear) next

/-- A block in a scope of its own, in the middle of an emission. -/
theorem Walker.Sound.scopedBlock (sound : w.Sound H library) {b : Block} (ready : s.Ready H library)
    (first : Emits H ⟨s, d, Λ⟩ ⟨t, d', Λ'⟩) (suits : SuitsBlock H ⟨t, d', Λ'⟩ b)
    (next : ∀ u Λ'', Emits H ⟨t, d', Λ'⟩ ⟨u, d', Λ''⟩ → Emits H ⟨s, d, Λ⟩ ⟨u, d', Λ''⟩ → Q () u) :
    Ensures (w.scopedBlock b) t Q := by
  rw [Walker.scopedBlock, ensures_inScope]
  exact first.run (sound.block (first.ready ready) suits.block suits.clear) fun u Λ'' inner _ =>
    next _ Λ'' (Emits.refl.scope inner) (first.scope inner)

/-! ## Names -/

/-- A bare name resolves to some file's row. -/
theorem ModuleScope.resolveBare_getIn {V : Type} {table : Table String (Table String V)} {file : Option String}
    {value : V} (found : ModuleScope.resolveBare library table file name = some value) :
    ∃ owner, table.getIn owner name = some value := by
  unfold ModuleScope.resolveBare at found
  split at found
  · cases found
    exact ⟨_, by assumption⟩
  · obtain ⟨owner, _, there⟩ := Option.bind_eq_some_iff.mp found
    exact ⟨owner, there⟩

/-- The owner a bare name resolves to has it. -/
theorem ModuleScope.resolveBareOwner_isSome {V : Type} {table : Table String (Table String V)} {file : Option String}
    {owner : String} (found : ModuleScope.resolveBareOwner library table file name = some owner) :
    (table.getIn owner name).isSome = true := by
  unfold ModuleScope.resolveBareOwner at found
  split at found
  next here =>
    cases found
    exact here
  next =>
    obtain ⟨owner', _, there⟩ := Option.bind_eq_some_iff.mp found
    split at there
    next here =>
      cases there
      exact here
    next => cases there

theorem loadFunctionValue_leads :
    Runs H (loadFunctionValue library name span) ⟨s, d, Λ⟩ (d + 1) := by
  simp only [loadFunctionValue, ensures_bind, ensures_get]
  split
  case h_1 index found =>
    obtain ⟨owner, there⟩ := ModuleScope.resolveBare_getIn found
    exact ensures_emit.mpr (Emits.refl.push (.functionValue there) rfl rfl).leads
  case h_2 => exact error_leads

theorem emitGlobal_leads {owner : String} (there : (s.scope.globalInFile owner name).isSome = true) :
    Runs H (emitGlobal owner name) ⟨s, d, Λ⟩ (d + 1) := by
  simp only [emitGlobal, ensures_bind, ensures_get]
  split
  case h_1 slot found => exact ensures_emit.mpr (Emits.refl.push (.globalGet found) rfl rfl).leads
  case h_2 missing => simp [missing] at there

theorem emitConst_leads (sound : w.Sound H library) (ready : s.Ready H library) {owner : String}
    (there : (s.scope.constInFile owner name).isSome = true) :
    Runs H (emitConst w owner name span) ⟨s, d, Λ⟩ (d + 1) := by
  simp only [emitConst, ensures_bind, ensures_get]
  split
  · exact error_leads
  · simp only [ensures_bind, ensures_set]
    split
    case h_1 e found =>
      simp only [ensures_bind, ensures_inFile, ensures_modify]
      have h := ready.scope.consts found
      refine (sound.exprExpecting (d := d) (Λ := Λ) ?_ h.expr (Suits.const h).clear).mono fun _ t emitted => ?_
      · exact ⟨fun here => (by cases here), ready.binders, ready.loops, ready.scope⟩
      · obtain ⟨_, inner⟩ := emitted
        exact (Emits.refl.startConst.file inner).finishConst.leads
    case h_2 missing => simp [missing] at there

theorem loadSlot_leads (ready : s.Ready H library) (here : s.slots name = some slot) :
    Runs H (loadSlot name slot) ⟨s, d, Λ⟩ (d + 1) := by
  simp only [loadSlot, ensures_bind, ensures_get, ensures_modify, ensures_emit]
  have loaded : Emits H ⟨s, d, Λ⟩ ⟨_, d + 1, Λ⟩ := (Emits.refl.access here).load (ready.slots here)
  split
  · exact ensures_emit.mpr (loaded.take .cellGet rfl rfl).leads
  · exact (ensures_pure ..).mpr loaded.leads

theorem loadLocalValue_leads (sound : w.Sound H library) (ready : s.Ready H library) :
    Runs H (loadLocalValue library w name span) ⟨s, d, Λ⟩ (d + 1) := by
  simp only [loadLocalValue, ensures_bind, ensures_get]
  split
  case h_1 slot here => exact loadSlot_leads ready here
  case h_2 =>
    split
    next owner found => exact emitConst_leads sound ready (ModuleScope.resolveBareOwner_isSome found)
    next =>
      split
      next owner found => exact emitGlobal_leads (ModuleScope.resolveBareOwner_isSome found)
      next => exact loadFunctionValue_leads

/-! ## Fields and indexing -/

/-- A struct the scope has a layout for. -/
def Laid (c : FnCompiler) (info : StructInfo) : Prop :=
  ∃ owner name, c.scope.resolveStruct owner name = some info

/-- Without a layout an error is reported. -/
theorem structOf_leads {object : Expr} :
    Ensures (structOf library object span) s fun info t => match info with
      | some info => Emits H ⟨s, d, Λ⟩ ⟨t, d, Λ⟩ ∧ Laid t info
      | none => ∀ d', Emits H ⟨s, d, Λ⟩ ⟨t, d', Λ⟩ := by
  simp only [structOf, ensures_bind, ensures_get]
  split
  case h_1 info found =>
    obtain ⟨id, _, there⟩ := Option.bind_eq_some_iff.mp found
    exact (ensures_pure ..).mpr ⟨.refl, _, _, there⟩
  case h_2 =>
    simp only [ensures_bind, ensures_error, ensures_pure]
    exact fun _ => Emits.refl.error

/-- The tables of a scope stay. -/
theorem Emits.lookup {β : Type} (emits : Emits H ⟨s, d, Λ⟩ ⟨t, d', Λ'⟩) (find : ModuleScope → β)
    (tables : ∀ (a : ModuleScope) units types cellType lambdas,
      find { a with units := units, types := types, cellType := cellType, lambdas := lambdas } = find a) :
    find t.scope = find s.scope := by
  have same : t.scope = _ := emits.frame.scope.tables
  rw [same, tables]

theorem Laid.mono (laid : Laid s info) (emits : Emits H ⟨s, d, Λ⟩ ⟨t, d', Λ'⟩) : Laid t info := by
  obtain ⟨owner, name, found⟩ := laid
  exact ⟨owner, name, (emits.lookup (·.resolveStruct owner name) fun _ _ _ _ _ => rfl).trans found⟩

theorem fieldIndexOf_lt {field : String} {i : ℕ} (found : fieldIndexOf info field = some i) :
    i < info.fieldNames.length := (List.findIdx?_eq_some_iff_findIdx_eq.mp found).1

/-- A known field is in range; an unknown one is an error. -/
theorem fieldIndex_leads {field : String} :
    Ensures (fieldIndex info field span) s fun i t =>
      Emits H ⟨s, d, Λ⟩ ⟨t, d, Λ⟩ ∧ (i = 0 ∨ i < info.fieldNames.length) := by
  simp only [fieldIndex]
  split
  case h_1 i found => exact (ensures_pure ..).mpr ⟨.refl, .inr (fieldIndexOf_lt found)⟩
  case h_2 =>
    simp only [ensures_bind, ensures_error, ensures_pure]
    exact ⟨Emits.refl.error, .inl trivial⟩

theorem Laid.site {i : ℕ} (laid : Laid s info) (bound : i = 0 ∨ i < info.fieldNames.length) :
    Site H s (.fieldGet i) ∧ Site H s (.fieldSet i) := by
  obtain ⟨_, _, found⟩ := laid
  rcases bound with rfl | bound
  · exact ⟨.cellGet, .cellSet⟩
  · exact ⟨.fieldGet found bound, .fieldSet found bound⟩

theorem errorOnType_leads {object : Expr} {named : String → String} {unnamed : String} :
    Ensures (errorOnType library object named unnamed span) s fun _ t => Emits H ⟨s, d, Λ⟩ ⟨t, d', Λ⟩ := by
  simp only [errorOnType, ensures_bind, ensures_get]
  split <;> exact ensures_error.mpr Emits.refl.error

theorem Site.native {argc : ℕ} (le : argc ≤ 255) : Site H s (.callNative name argc) :=
  .callNative (.inl le)

theorem emitIndexGet_leads {object : Expr} :
    Ensures (emitIndexGet library object span) s fun _ t => Emits H ⟨s, d + 2, Λ⟩ ⟨t, d + 1, Λ⟩ := by
  simp only [emitIndexGet, ensures_bind, ensures_get]
  split
  · exact ensures_emit.mpr (Emits.refl.binop .listGet rfl rfl)
  · split
    · exact ensures_emit.mpr (Emits.refl.take (n := 2) (.native (by decide)) rfl rfl)
    · exact errorOnType_leads

/-! ## Statements -/

section

variable (sound : w.Sound H library) (ready : s.Ready H library)

include sound ready

theorem assignLocal_leads (here : s.slots name = some slot) (h : H.const value) :
    Runs H (assignLocal w name slot value expected) ⟨s, d, Λ⟩ d := by
  simp only [assignLocal, ensures_bind, ensures_get, ensures_modify]
  have noted : Emits H ⟨s, d, Λ⟩ ⟨s.access name slot, d, Λ⟩ := Emits.refl.access here
  split
  · simp only [ensures_bind, ensures_emit]
    refine sound.expr ready (noted.load (ready.slots here)) (.const h) fun t _ _ written => ?_
    exact (written.instr (i := .fieldSet 0) .cellSet).leads
  · simp only [ensures_bind, ensures_emit]
    refine sound.expr ready noted (.const h) fun t _ inner written => ?_
    exact (written.store (inner.slot_lt (ready.slots here))).leads

theorem assign_leads {target : Expr} (suits : Suits H ⟨s, d, Λ⟩ target) (h : H.const value) :
    Runs H (assign library w target value span) ⟨s, d, Λ⟩ d := by
  simp only [assign, ensures_bind, ensures_get]
  split
  case h_1 name =>
    split
    case h_1 slot here => exact assignLocal_leads sound ready here h
    case h_2 => exact error_leads
  case h_2 object member =>
    rw [ensures_bind]
    refine (structOf_leads (H := H) (d := d) (Λ := Λ)).mono fun info t found => ?_
    cases info with
    | some info =>
      obtain ⟨found, laid⟩ := found
      simp only [ensures_bind, ensures_emit]
      have first : Suits H ⟨s, d, Λ⟩ object := suits.part List.mem_cons_self List.mem_cons_self
      refine sound.expr ready found (first.after ready found) fun u _ toU reached => ?_
      refine sound.expr ready reached (.const h) fun v K toV reached => ?_
      refine (fieldIndex_leads (H := H) (d := d + 2) (Λ := K)).mono fun i x emitted => ?_
      obtain ⟨toX, bound⟩ := emitted
      have laid := ((laid.mono toU).mono toV).mono toX
      exact ((reached.trans toX).instr (i := .fieldSet i) (laid.site bound).2).leads
    | none => exact (ensures_pure ..).mpr (found d).leads
  case h_3 object index =>
    simp only [ensures_bind, ensures_get]
    refine sound.expr ready .refl (suits.part List.mem_cons_self List.mem_cons_self) fun t _ _ reached => ?_
    have second : H.const index := .held suits.expr (by simp [Expr.children]) (by simp [Expr.held])
    refine sound.expr ready reached (.const second) fun u _ _ reached => ?_
    refine sound.expr ready reached (.const h) fun v _ _ reached => ?_
    split
    · exact ensures_emit.mpr (reached.instr (i := .simple .listSet) (.simple _)).leads
    · split
      · simp only [ensures_bind, ensures_emit]
        exact (reached.take (n := 3) (.native (by decide)) rfl rfl).pop.leads
      · exact errorOnType_leads.mono fun _ _ last => (reached.trans last).leads
  case h_4 => exact error_leads

end

theorem Site.result {tag : ℕ} (le : tag ≤ 1) : Site H s (.enumNew tyResult tag 1) := .wellKnown (by decide) le

/-- A return leaves whatever depth the code behind it is to have. -/
theorem emitReturn_leads (sound : w.Sound H library) (ready : s.Ready H library) {value : Option Expr}
    (suits : ∀ e, value = some e → Suits H ⟨s, d, Λ⟩ e) (d' : ℕ) :
    Runs H (emitReturn library w value) ⟨s, d, Λ⟩ d' := by
  simp only [emitReturn]
  split
  · simp only [ensures_bind, ensures_emit, ensures_get]
    split
    · simp only [ensures_bind, ensures_emit]
      exact (Emits.refl.unit.take (n := 1) (.result (by decide)) rfl rfl).return.leads
    · exact ensures_emit.mpr Emits.refl.unit.return.leads
  · rename_i e
    simp only [ensures_bind, ensures_get]
    refine sound.expr ready .refl (suits e rfl) fun t _ _ reached => ?_
    split
    · simp only [ensures_bind, ensures_emit]
      exact (reached.take (n := 1) (.result (by decide)) rfl rfl).return.leads
    · exact ensures_emit.mpr reached.return.leads

theorem emitThrow_leads (sound : w.Sound H library) (ready : s.Ready H library) (suits : Suits H ⟨s, d, Λ⟩ value) (d' : ℕ) :
    Runs H (emitThrow library w value) ⟨s, d, Λ⟩ d' := by
  simp only [emitThrow, ensures_bind, ensures_get, ensures_emit]
  refine sound.expr ready .refl suits fun t _ _ reached => ?_
  exact (reached.take (n := 1) (.result (by decide)) rfl rfl).return.leads

theorem declareLoopVar_leads {ty : Ty} :
    Ensures (declareLoopVar varName ty) s fun slot t => Emits H ⟨s, d, Λ⟩ ⟨t, d, Λ⟩ ∧ slot < t.localCount := by
  cases varName with
  | none => exact ensures_freshSlot.mpr ⟨Emits.refl.temporary, Nat.lt_succ_self _⟩
  | some name =>
    simp only [declareLoopVar, ensures_bind, ensures_modify, ensures_declareLocal]
    exact ⟨Emits.refl.types.loopVar, Nat.lt_succ_self _⟩

theorem bindLoopVar_leads {iter : Expr} :
    Ensures (bindLoopVar library varName iter) s fun slot t => Emits H ⟨s, d, Λ⟩ ⟨t, d, Λ⟩ ∧ slot < t.localCount := by
  simp only [bindLoopVar, ensures_bind, ensures_get]
  exact declareLoopVar_leads

theorem Emits.increment (first : Emits H p ⟨t, d, Λ⟩) (bound : slot < t.localCount) :
    Emits H p ⟨(((t.emit (.load slot)).emit (.constInt 1)).emit (.simple .addI64)).emit (.store slot), d, Λ⟩ :=
  (((first.load bound).int 1).binop .addI64 rfl rfl).store bound

section

variable (sound : w.Sound H library) (ready : s.Ready H library)

include sound ready

/-- The body of a loop, in the middle of an emission: the labels of the loop are where the body starts. -/
theorem Walker.Sound.loop {b : Block} (h : H.block b) (first : Emits H ⟨s, d, Λ⟩ ⟨t, d', Λ'⟩) {loop : LoopCtx}
    {u : FnCompiler} {e : ℕ}
    (labels : Fresh p ⟨u, e, Λ'⟩ loop.continueLabel d' ∧ Fresh p ⟨u, e, Λ'⟩ loop.breakLabel d')
    (next : ∀ u Λ'', Emits H ⟨t.pushLoop loop, d', Λ'⟩ ⟨u, d', Λ''⟩ → Emits H ⟨s, d, Λ⟩ ⟨u.popLoop, d', Λ''⟩ → Q () u)
    [same : SameLabels t u] : Ensures (w.block b) (t.pushLoop loop) Q := by
  have clear : ClearBlock H ⟨t.pushLoop loop, d', Λ'⟩ b := fun _ => .inl fun other innermost => by
    obtain rfl : loop = other := by simpa [FnCompiler.pushLoop] using innermost
    exact ⟨labels.1.height, labels.2.height⟩
  have known : loop.continueLabel < t.labels.length ∧ loop.breakLabel < t.labels.length :=
    ⟨same.eq ▸ labels.1.known, same.eq ▸ labels.2.known⟩
  exact Emits.refl.run (sound.block ((first.ready ready).pushLoop known) h clear) fun u Λ'' inner _ =>
    next u Λ'' inner (first.loop known inner)

theorem rangeFor_leads {start stop : Expr} (suits : Suits H ⟨s, d, Λ⟩ start ∧ Suits H ⟨s, d, Λ⟩ stop) (hbody : H.block body) :
    Runs H (rangeFor w varName start stop body) ⟨s, d, Λ⟩ d := by
  simp only [rangeFor, emitIncrement, ensures_bind, ensures_emit, ensures_freshSlot, ensures_newLabel,
    ensures_bindLabel, ensures_emitJump, ensures_inLoop]
  refine sound.expr ready .refl suits.1 fun s₁ K _ reached => ?_
  refine (declareLoopVar_leads (H := H) (d := d + 1) (Λ := K)).mono fun counter s₂ emitted => ?_
  obtain ⟨declared, counter_lt⟩ := emitted
  have stored := (reached.trans declared).store counter_lt
  refine sound.expr ready stored (suits.2.after ready stored) fun s₃ K toStop reached => ?_
  have counter_lt := Nat.lt_succ_of_lt (toStop.slot_lt counter_lt)
  -- the head compares the counter with the limit, which is evaluated once
  have limited := reached.temporary.store (Nat.lt_succ_self _)
  obtain ⟨K, labelled, head, exit, cont⟩ := limited.label₃ d d d
  have counted := ((labelled.place head).load counter_lt).load (Nat.lt_succ_self _)
  have tested := (counted.binop .ltI64 rfl rfl).test .ifFalse (by decide) exit
  refine sound.loop ready hbody tested ⟨cont, exit⟩ fun s₄ K' inner reached => ?_
  have stepped := (reached.place (cont.after inner)).increment (inner.slot_lt counter_lt)
  exact ((stepped.goto (head.after inner)).place (exit.after inner)).leads

theorem listFor_leads {list : Expr} (suits : Suits H ⟨s, d, Λ⟩ list) (hbody : H.block body) :
    Runs H (listFor library w varName list body) ⟨s, d, Λ⟩ d := by
  simp only [listFor, emitIncrement, ensures_bind, ensures_emit, ensures_freshSlot, ensures_newLabel,
    ensures_bindLabel, ensures_emitJump, ensures_inLoop]
  refine sound.expr ready .refl suits fun s₁ _ _ reached => ?_
  have list_lt : s₁.localCount < s₁.localCount + 2 := by omega
  have index_lt : ((s₁.freshSlot .temporary).emit (.store s₁.localCount)).localCount < s₁.localCount + 2 :=
    Nat.lt_succ_self _
  have stored := ((reached.temporary.store (Nat.lt_succ_self _)).temporary.int 0).store index_lt
  obtain ⟨K, labelled, head, exit, cont⟩ := stored.label₃ d d d
  have measured := (((labelled.place head).load index_lt).load list_lt).unop .listLen rfl rfl
  have tested := (measured.binop .ltI64 rfl rfl).test .ifFalse (by decide) exit
  refine (bindLoopVar_leads (H := H) (d := d) (Λ := K)).mono fun elem s₂ emitted => ?_
  obtain ⟨declared, elem_lt⟩ := emitted
  have fetched := ((tested.trans declared).load (declared.slot_lt list_lt)).load (declared.slot_lt index_lt)
  have labels : Fresh _ ⟨s₂, d, K⟩ _ d ∧ Fresh _ ⟨s₂, d, K⟩ _ d := ⟨cont.after declared, exit.after declared⟩
  refine sound.loop ready hbody ((fetched.binop .listGet rfl rfl).store elem_lt) labels fun s₃ K' inner reached => ?_
  have index_lt := inner.slot_lt (declared.slot_lt index_lt)
  have stepped := (reached.place (labels.1.after inner)).increment index_lt
  exact ((stepped.goto ((head.after declared).after inner)).place (labels.2.after inner)).leads

theorem iteratorFor_leads {iter : Expr} (suits : Suits H ⟨s, d, Λ⟩ iter) (hbody : H.block body) :
    Runs H (iteratorFor library w varName iter body) ⟨s, d, Λ⟩ d := by
  simp only [iteratorFor, ensures_bind, ensures_emit, ensures_freshSlot, ensures_newLabel,
    ensures_bindLabel, ensures_emitJump, ensures_inLoop]
  refine sound.expr ready .refl suits fun s₁ _ _ reached => ?_
  have iter_lt : s₁.localCount < s₁.localCount + 1 := Nat.lt_succ_self _
  have option_lt : s₁.localCount + 1 < s₁.localCount + 2 := Nat.lt_succ_self _
  obtain ⟨K, labelled, head, exit⟩ := (reached.temporary.store iter_lt).label₂ d d
  have called := ((labelled.place head).load iter_lt).take (i := .callVirtual "next" 1) (n := 1)
    (.callVirtual (.inl (by decide))) rfl rfl
  have fetched := (called.temporary.store option_lt).load option_lt
  have tested := (((fetched.unop .enumTag rfl rfl).int tagNone).binop .eqI64 rfl rfl).test .ifTrue (by decide) exit
  refine (bindLoopVar_leads (H := H) (d := d) (Λ := K)).mono fun elem s₂ emitted => ?_
  obtain ⟨declared, elem_lt⟩ := emitted
  have payload := ((tested.trans declared).load (declared.slot_lt option_lt)).take (n := 1) .payload rfl rfl
  have labels : Fresh _ ⟨s₂, d, K⟩ _ d ∧ Fresh _ ⟨s₂, d, K⟩ _ d := ⟨head.after declared, exit.after declared⟩
  refine sound.loop ready hbody (payload.store elem_lt) labels fun s₃ _ inner reached => ?_
  exact ((reached.goto (labels.1.after inner)).place (labels.2.after inner)).leads

end

theorem forVariable_leads {pattern : Pattern} {iterable : Expr} :
    Ensures (forVariable pattern iterable) s fun _ t => Emits H ⟨s, d, Λ⟩ ⟨t, d, Λ⟩ := by
  simp only [forVariable]
  split
  · exact (ensures_pure ..).mpr .refl
  · exact (ensures_pure ..).mpr .refl
  · simp only [ensures_bind, ensures_error, ensures_pure]
    exact Emits.refl.error

theorem Leads.trans {e : ℕ} (first : Emits H ⟨s, d, Λ⟩ ⟨t, d', Λ'⟩) {u : FnCompiler} (last : Leads H ⟨t, d', Λ'⟩ e u) :
    Leads H ⟨s, d, Λ⟩ e u := last.imp fun _ second => first.trans second

theorem forStmt_leads (sound : w.Sound H library) (ready : s.Ready H library) {pattern : Pattern} {iterable : Expr}
    (suits : Suits H ⟨s, d, Λ⟩ iterable) (hbody : H.block body) :
    Runs H (forStmt library w pattern iterable body) ⟨s, d, Λ⟩ d := by
  simp only [forStmt, ensures_bind]
  refine (forVariable_leads (H := H) (d := d) (Λ := Λ)).mono fun varName t first => ?_
  have suits := suits.after ready first
  have ready := first.ready ready
  split
  case h_1 start stop _ =>
    have parts : Suits H ⟨t, d, Λ⟩ start ∧ Suits H ⟨t, d, Λ⟩ stop :=
      ⟨suits.part List.mem_cons_self List.mem_cons_self,
        suits.part (by simp [Expr.children]) (by simp [Expr.sameLoop, Expr.children])⟩
    exact first.last (rangeFor_leads sound ready parts hbody)
  case h_2 =>
    simp only [ensures_bind, ensures_get]
    split
    · exact first.last (listFor_leads sound ready suits hbody)
    · split
      · exact first.last (iteratorFor_leads sound ready suits hbody)
      · exact errorOnType_leads.mono fun _ _ last => (first.trans last).leads

theorem ModuleScope.cellTypeIndex_known (scope : ModuleScope) :
    scope.cellTypeIndex.2.cellType = some scope.cellTypeIndex.1 := by
  unfold ModuleScope.cellTypeIndex
  split
  · assumption
  · rfl

/-- A value becomes a cell that holds it. -/
theorem Emits.celled (first : Emits H p ⟨t, d + 1, Λ⟩) (ready : t.Ready H library) :
    Emits H p ⟨(t.withScope t.scope.cellTypeIndex.2).emit (.structNew t.scope.cellTypeIndex.1), d + 1, Λ⟩ := by
  refine first.cellType.take (n := 1) (.cell t.scope.cellTypeIndex_known) ?_ rfl
  have one := ready.scope.cellTypeIndex.cell t.scope.cellTypeIndex_known
  simp [Instr.pops, FnCompiler.withScope, one]

theorem letStmt_leads (sound : w.Sound H library) (ready : s.Ready H library) {typeAnn : Option TypeRef}
    {stmts : List Stmt} {index : ℕ} (suits : Suits H ⟨s, d, Λ⟩ value) :
    Runs H (letStmt library w name typeAnn value stmts index) ⟨s, d, Λ⟩ d := by
  simp only [letStmt, ensures_bind, ensures_get]
  refine sound.expr ready .refl suits fun t _ _ reached => ?_
  split
  · exact ensures_emit.mpr reached.pop.leads
  · simp only [ensures_bind, ensures_get]
    by_cases boxed : name ∈ t.boxedLocals
    · simp only [boxed, if_true, ensures_bind, ensures_set, ensures_emit, ensures_declareLocal, ensures_modify]
      have celled := reached.celled (reached.ready ready)
      exact ((celled.cellVar boxed).types.store (Nat.lt_succ_self _)).leads
    · simp only [boxed, if_false, ensures_bind, ensures_declareLocal, ensures_modify, ensures_emit]
      exact ((reached.letVar boxed).types.store (Nat.lt_succ_self _)).leads

theorem leaveLoop_leads (ready : s.Ready H library) {target : LoopCtx → ℕ} {word : String}
    (either : ∀ loop, target loop = loop.continueLabel ∨ target loop = loop.breakLabel)
    (free : H.balanced → Point.Free ⟨s, d, Λ⟩) :
    Runs H (leaveLoop target word span) ⟨s, d, Λ⟩ d := by
  simp only [leaveLoop, ensures_bind, ensures_get]
  split
  case h_1 loop innermost =>
    have known := ready.loops loop (List.mem_of_getLast? innermost)
    refine ensures_emitJump.mpr (Emits.refl.leave (d := d) innermost (either loop) ?_ fun balanced => ?_).leads
    · rcases either loop with eq | eq <;> rw [eq]
      · exact known.1
      · exact known.2
    · have heights := free balanced loop innermost
      rcases either loop with eq | eq <;> rw [eq]
      · exact heights.1
      · exact heights.2
  case h_2 => exact error_leads

section

variable (sound : w.Sound H library) (ready : s.Ready H library)

include sound ready

theorem ifStmt_leads {thenBlock : Block} {elseBlock : Option Block} (suits : Suits H ⟨s, d, Λ⟩ condition)
    (suitsThen : SuitsBlock H ⟨s, d, Λ⟩ thenBlock) (suitsElse : ∀ b, elseBlock = some b → SuitsBlock H ⟨s, d, Λ⟩ b) :
    Runs H (ifStmt w condition thenBlock elseBlock) ⟨s, d, Λ⟩ d := by
  simp only [ifStmt, ensures_bind]
  refine sound.expr ready .refl suits fun t _ _ reached => ?_
  split
  · simp only [ensures_bind, ensures_newLabel, ensures_emitJump, ensures_bindLabel]
    obtain ⟨K, labelled, exit⟩ := reached.label₁ d
    have tested := labelled.test .ifFalse (by decide) exit
    refine sound.scopedBlock ready tested (suitsThen.after ready tested) fun u _ inner after => ?_
    exact (after.place (exit.after inner)).leads
  · rename_i b
    simp only [ensures_bind, ensures_newLabel, ensures_emitJump, ensures_bindLabel]
    obtain ⟨K, labelled, other, exit⟩ := reached.label₂ d d
    have tested := labelled.test .ifFalse (by decide) other
    refine sound.scopedBlock ready tested (suitsThen.after ready tested) fun u _ inner after => ?_
    have branched := (after.goto (exit.after inner)).place (other.after inner)
    refine sound.scopedBlock ready branched ((suitsElse b rfl).after ready branched) fun v _ inner' after => ?_
    exact (after.place ((exit.after inner).after inner')).leads

theorem whileStmt_leads (suits : Suits H ⟨s, d, Λ⟩ condition) (hbody : H.block body) :
    Runs H (whileStmt w condition body) ⟨s, d, Λ⟩ d := by
  simp only [whileStmt, Walker.scopedBlock, ensures_bind, ensures_newLabel, ensures_bindLabel, ensures_emitJump,
    ensures_inLoop, ensures_inScope]
  obtain ⟨K, labelled, head, exit⟩ := (Emits.refl (H := H) (p := ⟨s, d, Λ⟩)).label₂ d d
  have started := labelled.place head
  refine sound.expr ready started (suits.after ready started) fun t _ inner reached => ?_
  have head := head.after inner
  have exit := exit.after inner
  have tested := reached.test .ifFalse (by decide) exit
  refine sound.loop ready hbody tested ⟨head, exit⟩ fun u _ inner _ => ?_
  have looped := tested.loop ⟨head.known, exit.known⟩ (Emits.refl.scope inner)
  exact ((looped.goto (head.after inner)).place (exit.after inner)).leads

theorem stmt_leads {st : Stmt} {stmts : List Stmt} {index : ℕ} (suits : SuitsStmt H ⟨s, d, Λ⟩ st) :
    Runs H (stmt library w st stmts index) ⟨s, d, Λ⟩ d := by
  cases st with
  | «let» => exact letStmt_leads sound ready (suits.part List.mem_cons_self List.mem_cons_self)
  | assign _ target op value =>
    refine assign_leads sound ready (suits.part List.mem_cons_self List.mem_cons_self) ⟨?_, fun balanced => ?_⟩
    · exact suits.stmt.exprs _ (by simp [Stmt.children])
    · exact suits.stmt.held balanced _ (by simp [Stmt.held])
  | «if» _ condition thenBlock elseBlock =>
    refine ifStmt_leads sound ready (suits.part List.mem_cons_self List.mem_cons_self) ?_ ?_
    · refine suits.block (by simp [Stmt.children]) (by simp [Stmt.held]) (fun stays => ?_) (by simp [Stmt.sameLoop])
      exact (Bool.or_eq_false_iff.mp stays).1
    · rintro b rfl
      refine suits.block (by simp [Stmt.children, optChildren]) (by simp [Stmt.held, optHeld]) (fun stays => ?_)
        (by simp [Stmt.sameLoop, optSameLoop])
      exact (Bool.or_eq_false_iff.mp stays).2
  | «while» =>
    exact whileStmt_leads sound ready (suits.part List.mem_cons_self List.mem_cons_self) (suits.stmt.body
      (List.subset_cons_self _ _) (List.Subset.refl _))
  | «for» =>
    rw [Runs, stmt, ensures_inScope]
    exact (forStmt_leads sound ready (suits.part List.mem_cons_self List.mem_cons_self) (suits.stmt.body
      (List.subset_cons_self _ _) (List.Subset.refl _))).mono
      fun _ _ inner => inner.imp fun _ inner => Emits.refl.scope inner
  | «return» _ value =>
    have inside {e : Expr} (eq : value = some e) : e ∈ value.toList := by simp [eq]
    exact emitReturn_leads sound ready (fun e eq => suits.part (inside eq) (inside eq)) d
  | throw => exact emitThrow_leads sound ready (suits.part List.mem_cons_self List.mem_cons_self) d
  | «break» => exact leaveLoop_leads ready (fun _ => .inr rfl) (suits.free rfl)
  | «continue» => exact leaveLoop_leads ready (fun _ => .inl rfl) (suits.free rfl)
  | expr =>
    simp only [stmt, ensures_bind, ensures_emit]
    exact sound.expr ready .refl (suits.part List.mem_cons_self List.mem_cons_self) fun _ _ _ reached => reached.pop.leads

theorem block_leads {b : Block} (suits : SuitsBlock H ⟨s, d, Λ⟩ b) :
    Runs H (block library w b) ⟨s, d, Λ⟩ d := by
  refine ensures_forM _ _ (fun st member t ⟨K, reached⟩ => ?_) s Emits.refl.leads
  have here := (suits.stmt (List.fst_mem_of_mem_zipIdx member)).after ready reached
  exact reached.last (stmt_leads sound (reached.ready ready) here)

/-! ## Control flow in expressions -/

theorem emitBlockValue_leads {b : Block} (suits : SuitsBlock H ⟨s, d, Λ⟩ b) :
    Runs H (emitBlockValue w b expected) ⟨s, d, Λ⟩ (d + 1) := by
  simp only [emitBlockValue, ensures_inScope, ensures_bind]
  refine Emits.refl.run (sound.block ready suits.block suits.clear) fun t K _ reached => ?_
  split
  case h_1 tail eq =>
    exact sound.expr ready reached ((suits.tail eq).after ready reached) fun _ _ _ inner => (Emits.refl.scope inner).leads
  case h_2 => exact ensures_emit.mpr (Emits.refl.scope reached.unit).leads

theorem ifExpr_leads {thenBlock : Block} {elseBlock : Option Block} (suits : Suits H ⟨s, d, Λ⟩ condition)
    (suitsThen : SuitsBlock H ⟨s, d, Λ⟩ thenBlock) (suitsElse : ∀ b, elseBlock = some b → SuitsBlock H ⟨s, d, Λ⟩ b) :
    Runs H (ifExpr w condition thenBlock elseBlock expected) ⟨s, d, Λ⟩ (d + 1) := by
  simp only [ifExpr, ensures_bind, ensures_newLabel, ensures_emitJump, ensures_bindLabel]
  refine sound.expr ready .refl suits fun t _ _ reached => ?_
  obtain ⟨K, labelled, other, exit⟩ := reached.label₂ d (d + 1)
  have tested := labelled.test .ifFalse (by decide) other
  refine tested.run (emitBlockValue_leads sound (tested.ready ready) (suitsThen.after ready tested))
    fun u _ inner reached => ?_
  have branched := (reached.goto (e := d) (exit.after inner)).place (other.after inner)
  split
  case h_1 b =>
    rw [ensures_bind]
    refine branched.run (emitBlockValue_leads sound (branched.ready ready) ((suitsElse b rfl).after ready branched))
      fun v _ inner' reached => ?_
    exact ensures_bindLabel.mpr (reached.place ((exit.after inner).after inner')).leads
  case h_2 =>
    simp only [ensures_bind, ensures_emit, ensures_bindLabel]
    exact (branched.unit.place (exit.after inner)).leads

theorem propagateExpr_leads {inner : Expr} (suits : Suits H ⟨s, d, Λ⟩ inner) :
    Runs H (propagateExpr w inner) ⟨s, d, Λ⟩ (d + 1) := by
  simp only [propagateExpr, ensures_bind, ensures_emit, ensures_newLabel, ensures_emitJump, ensures_bindLabel]
  refine sound.expr ready .refl suits fun t _ _ reached => ?_
  have doubled := reached.instr (i := .simple .dup) (.simple _)
  obtain ⟨_, labelled, ok⟩ := (((doubled.unop .enumTag rfl rfl).int tagErr).binop .eqI64 rfl rfl).label₁ (d + 1)
  exact (((labelled.test .ifFalse (by decide) ok).return.place ok).take (n := 1) .payload rfl rfl).leads

end

/-! ## Lambdas -/

theorem emitCapture_leads (ready : s.Ready H library) :
    Ensures (emitCapture name) s fun _ t => Emits H ⟨s, d, Λ⟩ ⟨t, d + 1, Λ⟩ ∧ t.scope = s.scope := by
  simp only [emitCapture, ensures_bind, ensures_get]
  split
  case h_1 slot here =>
    simp only [ensures_bind, ensures_modify, ensures_emit]
    exact ⟨(Emits.refl.access here).load (ready.slots here), rfl⟩
  case h_2 => exact ensures_failure _ _

theorem emitCaptures_leads (ready : s.Ready H library) (names : List String) :
    Ensures (names.forM emitCapture) s fun _ t => Emits H ⟨s, d, Λ⟩ ⟨t, d + names.length, Λ⟩ ∧ t.scope = s.scope := by
  induction names generalizing s d with
  | nil => exact (ensures_pure ..).mpr ⟨.refl, rfl⟩
  | cons name rest ih =>
    refine (ensures_bind ..).mpr ((emitCapture_leads (H := H) (d := d) (Λ := Λ) ready).mono fun _ t emitted => ?_)
    obtain ⟨first, same⟩ := emitted
    refine (ih (first.ready ready) (d := d + 1)).mono fun _ u others => ⟨?_, others.2.trans same⟩
    rw [List.length_cons, Nat.add_comm rest.length 1, ← Nat.add_assoc]
    exact first.trans others.1

theorem lambdaExpr_leads (ready : s.Ready H library) {params : List LambdaParam} {body : Expr}
    (h : H.expr (.lambda span params body)) :
    Runs H (lambdaExpr library span params body expected) ⟨s, d, Λ⟩ (d + 1) := by
  simp only [lambdaExpr, ensures_bind, ensures_get, ensures_set, ensures_emit]
  generalize lifted : s.withScope _ = t
  have reached : Emits H ⟨s, d, Λ⟩ ⟨t, d, Λ⟩ := lifted ▸ Emits.refl.lift h rfl rfl
  refine (emitCaptures_leads (H := H) (d := d) (Λ := Λ) (reached.ready ready) _).mono fun _ u emitted => ?_
  obtain ⟨inner, same⟩ := emitted
  refine ((reached.trans inner).take (.closureNew h ?_ (List.length_filter_le _ _)) rfl rfl).leads
  rw [same, ← lifted]
  simp [FnCompiler.withScope, ModuleScope.addLambda, ModuleScope.addUnit]

/-! ## Match -/

theorem variantTag_leads {enumType : Option TypeId} :
    Ensures (variantTag enumType name span) s fun _ t => Emits H ⟨s, d, Λ⟩ ⟨t, d, Λ⟩ := by
  simp only [variantTag, ensures_bind, ensures_get]
  split
  · exact (ensures_pure ..).mpr .refl
  · simp only [ensures_bind, ensures_error, ensures_pure]
    exact Emits.refl.error

theorem emitTagTest_leads {valueSlot fail : ℕ} {valueTy : Ty} {tagSlot : Option ℕ}
    (value_lt : valueSlot < s.localCount) (tag_lt : ∀ slot, tagSlot = some slot → slot < s.localCount)
    (fresh : Fresh p ⟨s, d, Λ⟩ fail d) :
    Ensures (emitTagTest valueSlot valueTy name span fail tagSlot) s fun _ t => Emits H ⟨s, d, Λ⟩ ⟨t, d, Λ⟩ := by
  have compared {t : FnCompiler} (tagged : Emits H ⟨s, d, Λ⟩ ⟨t, d + 1, Λ⟩) :
      Ensures (variantTag (typeIdOfType valueTy) name span) t fun tag u => Emits H ⟨s, d, Λ⟩
        ⟨((u.emit (.constInt tag)).emit (.simple .eqI64)).emitJump .ifFalse fail, d, Λ⟩ := by
    refine (variantTag_leads (H := H) (d := d + 1) (Λ := Λ)).mono fun tag u found => ?_
    exact (((tagged.trans found).int tag).binop .eqI64 rfl rfl).test .ifFalse (by decide) (fresh.after (tagged.trans found))
  simp only [emitTagTest]
  split
  case h_1 slot =>
    simp only [ensures_bind, ensures_emit, ensures_emitJump]
    exact compared (Emits.refl.load (tag_lt slot rfl))
  case h_2 =>
    simp only [ensures_bind, ensures_emit, ensures_emitJump]
    exact compared ((Emits.refl.load value_lt).unop .enumTag rfl rfl)

/-- A slot bound as a temporary is a slot. -/
theorem FnCompiler.Ready.temporary_lt (ready : s.Ready H library) (temporary : s.binders[slot]? = some .temporary) :
    slot < s.localCount :=
  ready.binders ▸ (List.getElem?_eq_some_iff.mp temporary).1

theorem Emits.binder_stays {u : FnCompiler} (emits : Emits H ⟨s, d, Λ⟩ ⟨u, d', Λ'⟩)
    (temporary : s.binders[slot]? = some .temporary) : u.binders[slot]? = some .temporary :=
  emits.frame.binders.getElem?_some temporary

mutual

theorem emitPattern_leads (sound : w.Sound H library) (pattern : Pattern) {p : Point} {s : FnCompiler} {d : ℕ} {Λ : ℕ → ℕ}
    {valueSlot : ℕ} {valueTy : Ty} {fail tagSlot : Option ℕ} (ready : s.Ready H library) (h : H.pattern pattern)
    (temporary : s.binders[valueSlot]? = some .temporary) (tag_lt : ∀ slot, tagSlot = some slot → slot < s.localCount)
    (fresh : ∀ label, fail = some label → Fresh p ⟨s, d, Λ⟩ label d) :
    Runs H (emitPattern library w pattern valueSlot valueTy fail tagSlot) ⟨s, d, Λ⟩ d := by
  match pattern with
  | .wildcard _ =>
    rw [emitPattern]
    exact (ensures_pure ..).mpr Emits.refl.leads
  | .ident _ name =>
    rw [emitPattern]
    exact (ensures_modify ..).mpr (Emits.refl.patternVar temporary).leads
  | .literal _ literal =>
    cases fail with
    | some label =>
      simp only [emitPattern, ensures_bind, ensures_emit, ensures_emitJump]
      have loaded : Emits H ⟨s, d, Λ⟩ ⟨_, d + 1, Λ⟩ := Emits.refl.load (ready.temporary_lt temporary)
      refine sound.expr ready loaded (.const ⟨H.literal h, (H.heldLiteral · h)⟩) fun t _ inner reached => ?_
      have compared := reached.take (i := .callNative "eq" 2) (n := 2) (.native (by decide)) rfl rfl
      exact (compared.test .ifFalse (by decide) ((fresh label rfl).after inner)).leads
    | none =>
      rw [emitPattern]
      exact (ensures_pure ..).mpr Emits.refl.leads
  | .constructor span name args =>
    have inArgs {t : FnCompiler} (first : Emits H ⟨s, d, Λ⟩ ⟨t, d, Λ⟩) :
        Ensures (emitPatternArgs library w args 0 valueSlot (library.variantFieldTypes valueTy name) fail) t
          fun _ => Leads H ⟨s, d, Λ⟩ d := by
      exact first.last (emitPatternArgs_leads sound args (first.ready ready) h rfl (first.binder_stays temporary)
        fun label eq => (fresh label eq).after first)
    cases fail with
    | some label =>
      simp only [emitPattern, ensures_bind]
      exact (emitTagTest_leads (ready.temporary_lt temporary) tag_lt (fresh label rfl)).mono fun _ t first => inArgs first
    | none =>
      rw [emitPattern]
      exact inArgs .refl

theorem emitPatternArgs_leads (sound : w.Sound H library) (args : List Pattern) {p : Point} {s : FnCompiler} {d : ℕ}
    {Λ : ℕ → ℕ} {span : Span} {name : String} {all : List Pattern} {i valueSlot : ℕ} {fieldTypes : List Ty}
    {fail : Option ℕ} (ready : s.Ready H library) (h : H.pattern (.constructor span name all)) (rest : all.drop i = args)
    (temporary : s.binders[valueSlot]? = some .temporary)
    (fresh : ∀ label, fail = some label → Fresh p ⟨s, d, Λ⟩ label d) :
    Runs H (emitPatternArgs library w args i valueSlot fieldTypes fail) ⟨s, d, Λ⟩ d := by
  match args with
  | [] =>
    rw [emitPatternArgs]
    exact (ensures_pure ..).mpr Emits.refl.leads
  | arg :: others =>
    have bound : i < all.length := by
      by_contra beyond
      rw [List.drop_eq_nil_of_le (Nat.le_of_not_lt beyond)] at rest
      cases rest
    have next : all.drop (i + 1) = others := by
      rw [← List.tail_drop, rest, List.tail_cons]
    have harg : H.pattern arg := H.arg h (List.mem_of_mem_drop (rest ▸ List.mem_cons_self))
    have bindArg : Runs H (do
        let fieldSlot ← freshSlot .temporary
        emit (.load valueSlot)
        emit (.enumGet i)
        emit (.store fieldSlot)
        emitPattern library w arg fieldSlot (fieldTypes[i]?.getD .unknown) fail none
        emitPatternArgs library w others (i + 1) valueSlot fieldTypes fail) ⟨s, d, Λ⟩ d := by
      simp only [ensures_bind, ensures_freshSlot, ensures_emit]
      have value_lt := Nat.lt_succ_of_lt (ready.temporary_lt temporary)
      have first : Emits H ⟨s, d, Λ⟩ ⟨_, d, Λ⟩ :=
        (((Emits.refl.temporary.load value_lt).take (n := 1) (.enumGet h bound) rfl rfl).store (Nat.lt_succ_self _))
      have fieldTemporary : (s.binders ++ [Binder.temporary])[s.localCount]? = some .temporary := by
        rw [← ready.binders, List.getElem?_concat_length]
      refine first.run (emitPattern_leads sound arg (first.ready ready) harg fieldTemporary (fun _ none => by cases none)
        fun label eq => (fresh label eq).after first) fun t _ _ reached => ?_
      exact reached.last (emitPatternArgs_leads sound others (reached.ready ready) h next (reached.binder_stays temporary)
        fun label eq => (fresh label eq).after reached)
    match arg with
    | .wildcard _ =>
      rw [emitPatternArgs]
      exact emitPatternArgs_leads sound others ready h next temporary fresh
    | .ident .. | .literal .. | .constructor .. =>
      rw [emitPatternArgs]
      · exact bindArg
      · nofun

end

/-- What is known of an arm where it is compiled. -/
structure ArmReady (H : Hereditary) (p : Point) (arm : MatchArm) : Prop where
  pattern : H.pattern arm.pattern
  body : Suits H p arm.body

theorem ArmReady.after {arm : MatchArm} (arm_ready : ArmReady H ⟨s, d, Λ⟩ arm) (ready : s.Ready H library)
    (emits : Emits H ⟨s, d, Λ⟩ ⟨t, d, Λ'⟩) : ArmReady H ⟨t, d, Λ'⟩ arm :=
  ⟨arm_ready.pattern, arm_ready.body.after ready emits⟩

/-- What the arms of a match find: the subject in its slot, and the exit one operand higher. -/
structure MatchReady (p q : Point) (ctx : MatchCtx) : Prop where
  subject : q.c.binders[ctx.subject]? = some .temporary
  tag_lt : ctx.tagSlot < q.c.localCount
  exit : Fresh p q ctx.exit (q.depth + 1)

theorem MatchReady.after (matching : MatchReady p ⟨s, d, Λ⟩ ctx) (emits : Emits H ⟨s, d, Λ⟩ ⟨t, d, Λ'⟩) :
    MatchReady p ⟨t, d, Λ'⟩ ctx :=
  ⟨emits.binder_stays matching.subject, emits.slot_lt matching.tag_lt, matching.exit.after emits⟩

/-- An arm that jumps to the exit leaves whatever depth the code behind it is to have. -/
theorem armBody_leads (sound : w.Sound H library) (ready : s.Ready H library) {body : Expr} {exit : ℕ} {jumps : Bool}
    (suits : Suits H ⟨s, d, Λ⟩ body) (fresh : Fresh p ⟨s, d, Λ⟩ exit (d + 1)) {e : ℕ} (stays : jumps = false → e = d + 1) :
    Runs H (armBody library w body exit jumps expected) ⟨s, d, Λ⟩ e := by
  have plain : Runs H (do
      w.exprExpecting body expected
      if jumps then emitJump .jump exit) ⟨s, d, Λ⟩ e := by
    rw [Runs, ensures_bind]
    refine sound.expr ready .refl suits fun t _ inner reached => ?_
    cases jumps with
    | true => exact ensures_emitJump.mpr (reached.goto (fresh.after inner)).leads
    | false =>
      rw [stays rfl]
      exact (ensures_pure ..).mpr reached.leads
  cases body with
  | «return» _ value =>
    have inside {v : Expr} (eq : value = some v) : v ∈ value.toList := by simp [eq]
    exact emitReturn_leads sound ready (fun v eq => suits.part (inside eq) (inside eq)) e
  | throw => exact emitThrow_leads sound ready (suits.part List.mem_cons_self List.mem_cons_self) e
  | _ => exact plain

theorem emitLeaf_leads (sound : w.Sound H library) (ready : s.Ready H library) {arm : MatchArm} {jumps : Bool}
    (arm_ready : ArmReady H ⟨s, d, Λ⟩ arm) (matching : MatchReady p ⟨s, d, Λ⟩ ctx) {e : ℕ}
    (stays : jumps = false → e = d + 1) :
    Runs H (emitLeaf library w arm jumps ctx) ⟨s, d, Λ⟩ e := by
  simp only [emitLeaf, bindPatternTypes, ensures_inScope, ensures_bind, ensures_modify]
  have typed : Emits H ⟨s, d, Λ⟩ ⟨s.setTypes (library.bindMatchPattern arm.pattern ctx.subjectTy s.typeScope), d, Λ⟩ :=
    Emits.refl.types
  refine typed.run (emitPattern_leads (p := p) sound arm.pattern (typed.ready ready) arm_ready.pattern matching.subject
    (fun _ none => by cases none) fun _ none => by cases none) fun t _ _ reached => ?_
  exact reached.run (armBody_leads sound (reached.ready ready) (arm_ready.body.after ready reached) (matching.exit.after reached) stays) fun _ _ _ reached => (Emits.refl.scope reached).leads

theorem matchChain_leads (sound : w.Sound H library) {tagSlot : Option ℕ} (arms : List MatchArm)
    (ready : s.Ready H library) (matching : MatchReady p ⟨s, d, Λ⟩ ctx)
    (tag_lt : ∀ slot, tagSlot = some slot → slot < s.localCount) (arms_ready : ∀ arm ∈ arms, ArmReady H ⟨s, d, Λ⟩ arm)
    (some_arm : H.balanced → arms ≠ []) :
    Runs H (matchChain library w ctx tagSlot arms) ⟨s, d, Λ⟩ (d + 1) := by
  induction arms generalizing s Λ with
  | nil =>
    exact (ensures_pure ..).mpr (Emits.refl.recount fun balanced => absurd rfl (some_arm balanced)).leads
  | cons arm rest ih =>
    have arm_ready := arms_ready arm List.mem_cons_self
    rw [matchChain]
    split
    · exact emitLeaf_leads sound ready arm_ready matching fun _ => rfl
    next refutable =>
      simp only [bindPatternTypes, ensures_bind, ensures_inScope, ensures_modify, ensures_newLabel, ensures_bindLabel]
      have typed : Emits H ⟨s, d, Λ⟩ ⟨s.setTypes (library.bindMatchPattern arm.pattern ctx.subjectTy s.typeScope), d, Λ⟩ :=
        Emits.refl.types
      obtain ⟨K, labelled, next⟩ := typed.label₁ d
      refine labelled.run (emitPattern_leads (p := ⟨s, d, Λ⟩) sound arm.pattern (labelled.ready ready) arm_ready.pattern
        (labelled.binder_stays matching.subject) (fun slot eq => labelled.slot_lt (tag_lt slot eq))
        fun label eq => ?_) fun t _ matched reached => ?_
      · cases eq
        exact next
      refine reached.run (armBody_leads sound (reached.ready ready) (arm_ready.body.after ready reached) (matching.exit.after reached) (e := d) (fun no => by cases no)) fun u _ taken reached => ?_
      have first := Emits.refl.scope (reached.place ((next.after matched).after taken))
      refine first.last (ih (first.ready ready) (matching.after first) (fun slot eq => first.slot_lt (tag_lt slot eq))
        (fun other member => (arms_ready other (List.mem_cons_of_mem _ member)).after ready first) fun _ => ?_)
      rintro rfl
      simp at refutable

theorem emitTagJump_leads {tag label : ℕ} {op : Op} {kind : Jk} (tag_lt : ctx.tagSlot < s.localCount)
    (fresh : Fresh p ⟨s, d, Λ⟩ label d) (conditional : kind ≠ .jump) (pops : op.pops = 2) (one : op.pushes = 1) :
    Ensures (emitTagJump ctx tag op kind label) s fun _ t => Emits H ⟨s, d, Λ⟩ ⟨t, d, Λ⟩ := by
  simp only [emitTagJump, ensures_bind, ensures_emit, ensures_emitJump]
  exact (((Emits.refl.load tag_lt).int tag).binop op pops one).test kind conditional fresh

/-- The search leaves by the exit or to the default, so the code behind it may have any depth. -/
theorem emitBisect_leads (sound : w.Sound H library) {q : Point} {tags : List ℕ} {default lo hi : ℕ} {s : FnCompiler}
    {Λ : ℕ → ℕ} (ready : s.Ready H library) (matching : MatchReady p ⟨s, d, Λ⟩ ctx)
    (fresh : Fresh q ⟨s, d, Λ⟩ default d)
    (arms_ready : ∀ tag arm, cases.get tag = some arm → ArmReady H ⟨s, d, Λ⟩ arm) (e : ℕ) :
    Runs H (emitBisect library w ctx tags cases default lo hi) ⟨s, d, Λ⟩ e := by
  rw [emitBisect]
  dsimp only
  split
  case h_2 => exact ensures_failure _ _
  case h_1 tag arm tagged chosen =>
    have arm_ready : ArmReady H ⟨s, d, Λ⟩ arm := by
      obtain ⟨tag, _, found⟩ := Option.bind_eq_some_iff.mp chosen
      exact arms_ready tag arm found
    split
    case isFalse =>
      rw [Runs, ensures_bind]
      refine (emitTagJump_leads (H := H) matching.tag_lt fresh (by decide) rfl rfl).mono fun _ t tested => ?_
      exact tested.last (emitLeaf_leads sound (tested.ready ready) (arm_ready.after ready tested) (matching.after tested)
        fun no => by cases no)
    case isTrue inner =>
      -- the comparisons and the leaf, then the halves that are there
      have rest {left right : ℕ} {t : FnCompiler} {K : ℕ → ℕ} (labelled : Emits H ⟨s, d, Λ⟩ ⟨t, d, K⟩)
          (leftFresh : ∃ q, Fresh q ⟨t, d, K⟩ left d) (rightFresh : ∃ q, Fresh q ⟨t, d, K⟩ right d)
          (ownLeft : lo < (lo + hi) / 2 → Fresh ⟨s, d, Λ⟩ ⟨t, d, K⟩ left d)
          (ownRight : (lo + hi) / 2 < hi → Fresh ⟨s, d, Λ⟩ ⟨t, d, K⟩ right d) :
          Ensures (do
            emitTagJump ctx tag .ltI64 .ifTrue left
            emitTagJump ctx tag .gtI64 .ifTrue right
            emitLeaf library w arm true ctx
            if lo < (lo + hi) / 2 then
              bindLabel left
              emitBisect library w ctx tags cases default lo ((lo + hi) / 2 - 1)
            if (lo + hi) / 2 < hi then
              bindLabel right
              emitBisect library w ctx tags cases default ((lo + hi) / 2 + 1) hi) t fun _ => Leads H ⟨s, d, Λ⟩ e := by
        simp only [ensures_bind]
        obtain ⟨_, leftFresh⟩ := leftFresh
        obtain ⟨_, rightFresh⟩ := rightFresh
        refine (emitTagJump_leads (H := H) (labelled.slot_lt matching.tag_lt) leftFresh (by decide) rfl rfl).mono
          fun _ s₃ below => ?_
        refine (emitTagJump_leads (H := H) ((labelled.trans below).slot_lt matching.tag_lt) (rightFresh.after below)
          (by decide) rfl rfl).mono fun _ s₄ above => ?_
        have compared := (labelled.trans below).trans above
        have half {lo' hi' : ℕ} (less : hi' - lo' < hi - lo) {u : FnCompiler} {K : ℕ → ℕ} (e : ℕ)
            (reached : Emits H ⟨s, d, Λ⟩ ⟨u, d, K⟩) :
            Runs H (emitBisect library w ctx tags cases default lo' hi') ⟨u, d, K⟩ e :=
          emitBisect_leads sound (reached.ready ready) (matching.after reached) (fresh.after reached)
            (fun tag arm found => (arms_ready tag arm found).after ready reached) e
        have rightHalf {u : FnCompiler} {K : ℕ → ℕ} (some_right : (lo + hi) / 2 < hi)
            (reached : Emits H ⟨s, d, Λ⟩ ⟨u, d, K⟩) (own : Fresh ⟨s, d, Λ⟩ ⟨u, d, K⟩ right d) :
            Ensures (do
              bindLabel right
              emitBisect library w ctx tags cases default ((lo + hi) / 2 + 1) hi) u fun _ => Leads H ⟨s, d, Λ⟩ e := by
          rw [ensures_bind, ensures_bindLabel]
          exact (reached.place own).last (half (by omega) e (reached.place own))
        refine compared.run (emitLeaf_leads (e := d) sound (compared.ready ready) (arm_ready.after ready compared)
          (matching.after compared) fun no => by cases no) fun s₅ _ leaf reached => ?_
        have toLeaf := below.trans (above.trans leaf)
        rw [ensures_ite]
        refine ⟨fun some_left => ?_, fun no_left => ?_⟩
        · rw [ensures_bind, ensures_bindLabel, ensures_bind]
          have placed := reached.place ((ownLeft some_left).after toLeaf)
          by_cases some_right : (lo + hi) / 2 < hi
          · refine placed.run (half (by omega) d placed) fun u _ searched reached => ?_
            rw [if_pos some_right]
            exact rightHalf some_right reached (((ownRight some_right).after toLeaf).after searched)
          · refine placed.run (half (by omega) e placed) fun u _ _ reached => ?_
            rw [if_neg some_right]
            exact (ensures_pure ..).mpr reached.leads
        · have some_right : (lo + hi) / 2 < hi := by omega
          rw [if_pos some_right]
          exact rightHalf some_right reached ((ownRight some_right).after toLeaf)
      rw [Runs, ensures_ite]
      refine ⟨fun some_left => ?_, fun no_left => ?_⟩
      · rw [ensures_bind, ensures_newLabel, ensures_ite]
        refine ⟨fun some_right => ?_, fun no_right => ?_⟩
        · rw [ensures_bind, ensures_newLabel]
          obtain ⟨K, labelled, left, right⟩ := (Emits.refl (H := H) (p := ⟨s, d, Λ⟩)).label₂ d d
          exact rest labelled ⟨_, left⟩ ⟨_, right⟩ (fun _ => left) fun _ => right
        · rw [ensures_bind, ensures_pure]
          obtain ⟨K, labelled, left⟩ := (Emits.refl (H := H) (p := ⟨s, d, Λ⟩)).label₁ d
          exact rest labelled ⟨_, left⟩ ⟨_, fresh.after labelled⟩ (fun _ => left) fun there => absurd there no_right
      · rw [ensures_bind, ensures_pure, ensures_ite]
        refine ⟨fun some_right => ?_, fun no_right => by omega⟩
        rw [ensures_bind, ensures_newLabel]
        obtain ⟨K, labelled, right⟩ := (Emits.refl (H := H) (p := ⟨s, d, Λ⟩)).label₁ d
        exact rest labelled ⟨_, fresh.after labelled⟩ ⟨_, right⟩ (fun there => absurd there no_left) fun _ => right
termination_by hi - lo

/-- The cases of a plan are arms of the match. -/
theorem planCases_mem {info : EnumInfo} {arms : List MatchArm} {planned : Table ℕ MatchArm}
    (plan : planCases info arms cases = some planned) {tag : ℕ} {arm : MatchArm} (found : planned.get tag = some arm) :
    arm ∈ arms ∨ cases.get tag = some arm := by
  induction arms generalizing cases with
  | nil =>
    rw [planCases] at plan
    cases plan
    exact .inr found
  | cons first rest ih =>
    cases rest with
    | nil =>
      rw [planCases] at plan
      cases plan
      exact .inr found
    | cons second rest =>
      rw [planCases] at plan
      · split at plan
        next span name args eq =>
          split at plan
          next =>
            obtain ⟨tag', _, plan⟩ := Option.bind_eq_some_iff.mp plan
            split at plan
            next => cases plan
            next =>
              rcases ih plan with inRest | set
              · exact .inl (List.mem_cons_of_mem _ inRest)
              · rcases Table.get_set_cases set with rfl | old
                · exact .inl List.mem_cons_self
                · exact .inr old
          next => cases plan
        next => cases plan
      · nofun

theorem planDispatch_mem {info : EnumInfo} {arms : List MatchArm} {defaultArm : MatchArm}
    (plan : planDispatch info arms = some (cases, defaultArm)) :
    (∀ tag arm, cases.get tag = some arm → arm ∈ arms) ∧ defaultArm ∈ arms := by
  unfold planDispatch at plan
  split at plan
  next => cases plan
  next =>
    obtain ⟨planned, plan, rest⟩ := Option.bind_eq_some_iff.mp plan
    obtain ⟨last, isLast, eq⟩ := Option.bind_eq_some_iff.mp rest
    cases eq
    refine ⟨fun tag arm found => ?_, List.mem_of_getLast? isLast⟩
    exact (planCases_mem plan found).resolve_right (by simp)

theorem emitDispatch_leads (sound : w.Sound H library) (ready : s.Ready H library) {defaultArm : MatchArm}
    (matching : MatchReady p ⟨s, d, Λ⟩ ctx)
    (arms_ready : ∀ tag arm, cases.get tag = some arm → ArmReady H ⟨s, d, Λ⟩ arm)
    (default_ready : ArmReady H ⟨s, d, Λ⟩ defaultArm) :
    Runs H (emitDispatch library w ctx cases defaultArm) ⟨s, d, Λ⟩ (d + 1) := by
  simp only [emitDispatch, ensures_bind, ensures_newLabel, ensures_bindLabel]
  obtain ⟨K, labelled, default⟩ := (Emits.refl (H := H) (p := ⟨s, d, Λ⟩)).label₁ d
  refine labelled.run (emitBisect_leads sound (labelled.ready ready) (matching.after labelled) default
    (fun tag arm found => (arms_ready tag arm found).after ready labelled) d) fun t _ searched reached => ?_
  have placed := reached.place (default.after searched)
  exact placed.last (emitLeaf_leads sound (placed.ready ready) (default_ready.after ready placed) (matching.after placed)
    fun _ => rfl)

theorem hoistTag_leads (bound : slot < s.localCount) :
    Ensures (hoistTag slot) s fun tagSlot t => Emits H ⟨s, d, Λ⟩ ⟨t, d, Λ⟩ ∧ tagSlot < t.localCount := by
  simp only [hoistTag, ensures_bind, ensures_emit, ensures_freshSlot, ensures_pure]
  exact ⟨((Emits.refl.load bound).unop .enumTag rfl rfl).temporary.store (Nat.lt_succ_self _), Nat.lt_succ_self _⟩

theorem matchExpr_leads (sound : w.Sound H library) (ready : s.Ready H library) {origin : MatchOrigin}
    {subject : Expr} {arms : List MatchArm} (suits : Suits H ⟨s, d, Λ⟩ (.match span origin subject arms)) :
    Runs H (matchExpr library w subject arms expected) ⟨s, d, Λ⟩ (d + 1) := by
  simp only [matchExpr, ensures_bind, ensures_get, ensures_freshSlot, ensures_emit, ensures_newLabel]
  refine sound.expr ready .refl (suits.part List.mem_cons_self List.mem_cons_self) fun s₁ _ _ reached => ?_
  have slot_lt : s₁.localCount < s₁.localCount + 1 := Nat.lt_succ_self _
  obtain ⟨K, labelled, exit⟩ := (reached.temporary.store slot_lt).label₁ (d + 1)
  have temporary : (s₁.binders ++ [Binder.temporary])[s₁.localCount]? = some .temporary := by
    rw [← (reached.ready ready).binders, List.getElem?_concat_length]
  have matching {t : FnCompiler} {ty : Ty} {tagSlot : ℕ}
      (emits : Emits H ⟨((s₁.freshSlot .temporary).emit (.store s₁.localCount)).newLabel, d, K⟩ ⟨t, d, K⟩)
      (tag_lt : tagSlot < t.localCount) : MatchReady ⟨s, d, Λ⟩ ⟨t, d, K⟩ ⟨s₁.localCount, ty, tagSlot, _, expected⟩ :=
    ⟨emits.binder_stays temporary, tag_lt, exit.after emits⟩
  have arms_ready {t : FnCompiler} {K : ℕ → ℕ} (reached : Emits H ⟨s, d, Λ⟩ ⟨t, d, K⟩) (arm : MatchArm)
      (member : arm ∈ arms) : ArmReady H ⟨t, d, K⟩ arm := by
    have child : arm.body ∈ Expr.children (.match span origin subject arms) :=
      List.mem_cons_of_mem _ (List.mem_map_of_mem member)
    exact ⟨H.arm suits.expr member, (suits.part child child).after ready reached⟩
  split
  case h_1 cases defaultArm planned =>
    simp only [ensures_bind, ensures_bindLabel]
    obtain ⟨info, _, plan⟩ := Option.bind_eq_some_iff.mp planned
    obtain ⟨inCases, isDefault⟩ := planDispatch_mem plan
    refine (hoistTag_leads (H := H) (d := d) (Λ := K) slot_lt).mono fun tagSlot t emitted => ?_
    obtain ⟨hoisted, tag_lt⟩ := emitted
    have reached := labelled.trans hoisted
    refine reached.run (emitDispatch_leads sound (reached.ready ready) (matching hoisted tag_lt)
      (fun tag arm found => arms_ready reached arm (inCases tag arm found)) (arms_ready reached _ isDefault))
      fun u _ dispatched reached => ?_
    exact (reached.place ((exit.after hoisted).after dispatched)).leads
  case h_2 =>
    split
    next =>
      simp only [ensures_bind, ensures_bindLabel]
      refine (hoistTag_leads (H := H) (d := d) (Λ := K) slot_lt).mono fun tagSlot t emitted => ?_
      obtain ⟨hoisted, tag_lt⟩ := emitted
      have reached := labelled.trans hoisted
      refine reached.run (matchChain_leads sound arms (reached.ready ready) (matching hoisted tag_lt) (fun slot eq => ?_)
        (arms_ready reached) (H.arms_ne · suits.expr)) fun u _ chained reached => ?_
      · cases eq
        exact tag_lt
      · exact (reached.place ((exit.after hoisted).after chained)).leads
    next =>
      simp only [ensures_bind, ensures_bindLabel]
      refine labelled.run (matchChain_leads sound arms (labelled.ready ready) (matching .refl (Nat.succ_pos _))
        (fun slot eq => by cases eq) (arms_ready labelled) (H.arms_ne · suits.expr)) fun u _ chained reached => ?_
      exact (reached.place (exit.after chained)).leads

end

end Thera.Compiler
