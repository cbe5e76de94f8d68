import Thera.Proofs.Compiler.Emission

/-! # Operators, literals and calls only take the emitter's steps

The remaining emission functions, and the recursion tied by induction on the fuel.
-/

namespace Thera.Compiler

open PartialState

section

variable {H : Hereditary} {library : Library} {w : Walker} {s t : FnCompiler} {d d' : ℕ} {Λ Λ' : ℕ → ℕ}

variable {e object callee : Expr} {expected : Option Ty} {span : Span} {name : String} {args : List CallArg}
  {declFile : Option String} {params : List Param}

/-- An expression without jumps compiles at any depth. -/
theorem Walker.Sound.const (sound : w.Sound H library) (ready : s.Ready H library) (h : H.const e) :
    Runs H (w.exprExpecting e expected) ⟨s, d, Λ⟩ (d + 1) :=
  sound.exprExpecting ready h.expr (Suits.const h).clear

/-- A loop whose rounds push one operand each. -/
theorem forM_pushes {β : Type} (xs : List β) (f : β → Emit Unit) (ready : s.Ready H library)
    (each : ∀ x ∈ xs, ∀ (t : FnCompiler) (d : ℕ) (Λ : ℕ → ℕ), t.Ready H library →
      Runs H (f x) ⟨t, d, Λ⟩ (d + 1)) :
    Runs H (xs.forM f) ⟨s, d, Λ⟩ (d + xs.length) := by
  induction xs generalizing s d Λ with
  | nil => exact (ensures_pure ..).mpr Emits.refl.leads
  | cons x rest ih =>
    refine (ensures_bind ..).mpr (Emits.refl.run (each x List.mem_cons_self s d Λ ready) fun t K first _ => ?_)
    rw [List.length_cons, Nat.add_comm rest.length 1, ← Nat.add_assoc]
    exact first.last (ih (first.ready ready) fun y member => each y (List.mem_cons_of_mem _ member))

/-! ## Strings -/

theorem FnCompiler.interfaceMethod_found {c : FnCompiler} {ty : Option TypeId} {iface : TypeId} {method : String} {idx : ℕ}
    (found : c.interfaceMethod ty iface method = some idx) : ∃ id, c.scope.methodTable.getIn id method = some idx := by
  unfold FnCompiler.interfaceMethod at found
  obtain ⟨id, _, found⟩ := Option.bind_eq_some_iff.mp found
  obtain ⟨info, _, found⟩ := Option.bind_eq_some_iff.mp found
  split at found
  · exact ⟨id, found⟩
  · cases found

theorem emitDisplay_leads {ty : Ty} :
    Ensures (emitDisplay library ty) s fun _ t => Emits H ⟨s, d + 1, Λ⟩ ⟨t, d + 1, Λ⟩ := by
  simp only [emitDisplay, ensures_bind, ensures_get]
  have virtual : Emits H ⟨s, d + 1, Λ⟩ ⟨s.emit (.callVirtual "to_string" 1), d + 1, Λ⟩ :=
    Emits.refl.take (n := 1) (.callVirtual (.inl (by decide))) rfl rfl
  split
  · exact ensures_emit.mpr (Emits.refl.take (n := 1) (.native (by decide)) rfl rfl)
  · split
    · exact ensures_emit.mpr virtual
    · split
      next idx found =>
        obtain ⟨id, there⟩ := FnCompiler.interfaceMethod_found found
        exact ensures_emit.mpr (Emits.refl.take (n := 1) (.callOperator there (by decide)) rfl rfl)
      next => exact ensures_emit.mpr virtual

section

variable (sound : w.Sound H library)

include sound

theorem emitAsString_leads (ready : s.Ready H library) {value : Expr} (suits : Suits H ⟨s, d, Λ⟩ value) :
    Runs H (emitAsString library w value) ⟨s, d, Λ⟩ (d + 1) := by
  simp only [emitAsString, ensures_bind, ensures_get]
  refine sound.expr ready .refl suits fun t _ _ reached => ?_
  split
  · exact (ensures_pure ..).mpr reached.leads
  · exact emitDisplay_leads.mono fun _ _ shown => (reached.trans shown).leads

theorem stringPiece_leads (ready : s.Ready H library) {part : StringPart}
    (suits : ∀ e, part.value? = some e → Suits H ⟨s, d, Λ⟩ e) :
    Runs H (stringPiece library w part) ⟨s, d, Λ⟩ (d + 1) := by
  cases part with
  | text _ text => exact ensures_emit.mpr (Emits.refl.push (.constStr text) rfl rfl).leads
  | interp _ e => exact emitAsString_leads sound ready (suits e rfl)

/-- The strings on the stack, at least one and never more than a native takes, become one. -/
theorem stringPieces_leads (parts : List StringPart) (ready : s.Ready H library)
    (h : ∀ part ∈ parts, ∀ e, part.value? = some e → H.const e) {argc : ℕ} (one_le : 1 ≤ argc) (le : argc ≤ 255) :
    Runs H (stringPieces library w parts argc) ⟨s, d + argc, Λ⟩ (d + 1) := by
  induction parts generalizing s d Λ argc with
  | nil =>
    rw [stringPieces]
    split
    next => exact ensures_emit.mpr (Emits.refl.take (.native le) rfl rfl).leads
    next few =>
      obtain rfl : argc = 1 := by omega
      exact (ensures_pure ..).mpr Emits.refl.leads
  | cons part rest ih =>
    have piece {t : FnCompiler} (k : ℕ) {K : ℕ → ℕ} (ready : t.Ready H library) :
        Runs H (stringPiece library w part) ⟨t, k, K⟩ (k + 1) :=
      stringPiece_leads sound ready fun e eq => .const (h part List.mem_cons_self e eq)
    have others := fun part member => h part (List.mem_cons_of_mem _ member)
    rw [stringPieces]
    split
    next room =>
      rw [Runs, ensures_bind]
      refine Emits.refl.run (piece (d + argc) (K := Λ) ready) fun t K first _ => ?_
      exact first.last (ih (first.ready ready) others (Nat.succ_pos _) room)
    next full =>
      simp only [ensures_bind, ensures_emit]
      have joined : Emits H ⟨s, d + argc, Λ⟩ ⟨s.emit (.callNative "str_concat" argc), d + 1, Λ⟩ :=
        Emits.refl.take (.native le) rfl rfl
      refine joined.run (piece (d + 1) (joined.ready ready)) fun t K _ reached => ?_
      exact reached.last (ih (reached.ready ready) others (by decide : 1 ≤ 2) (by decide))

theorem stringExpr_leads (ready : s.Ready H library) {parts : List StringPart} (suits : Suits H ⟨s, d, Λ⟩ (.str span parts)) :
    Runs H (stringExpr library w parts) ⟨s, d, Λ⟩ (d + 1) := by
  have part_mem {part : StringPart} {e : Expr} {parts : List StringPart} (member : part ∈ parts)
      (eq : part.value? = some e) : e ∈ parts.filterMap StringPart.value? :=
    List.mem_filterMap.mpr ⟨part, member, eq⟩
  have children : Expr.children (.str span parts) = parts.filterMap StringPart.value? := by
    rw [Expr.children]
    congr 1
  cases parts with
  | nil => exact ensures_emit.mpr (Emits.refl.push (.constStr "") rfl rfl).leads
  | cons part rest =>
    simp only [stringExpr, ensures_bind]
    have child {part' : StringPart} {e : Expr} (member : part' ∈ part :: rest) (eq : part'.value? = some e) :
        e ∈ Expr.children (.str span (part :: rest)) := children ▸ part_mem member eq
    refine Emits.refl.run (stringPiece_leads (d := d) (Λ := Λ) sound ready fun e eq => ?_) fun t K first _ => ?_
    · exact suits.part (child List.mem_cons_self eq) (child List.mem_cons_self eq)
    · refine first.last (stringPieces_leads sound rest (first.ready ready) (fun part' member e eq => ?_) (Nat.le_refl 1)
        (by decide))
      exact .held suits.expr (child (List.mem_cons_of_mem _ member) eq) (part_mem member eq)

/-! ## Operators -/

theorem unaryExpr_leads (ready : s.Ready H library) {op : String} {operand : Expr} (suits : Suits H ⟨s, d, Λ⟩ operand) :
    Runs H (unaryExpr library w op operand span) ⟨s, d, Λ⟩ (d + 1) := by
  simp only [unaryExpr, ensures_bind]
  refine sound.expr ready .refl suits fun t _ _ reached => ?_
  split
  · simp only [ensures_bind, ensures_get, ensures_emit]
    split
    · exact (reached.unop .negF64 rfl rfl).leads
    · exact (reached.unop .negI64 rfl rfl).leads
  · split
    · exact ensures_emit.mpr (reached.unop .not rfl rfl).leads
    · split
      · exact ensures_emit.mpr (reached.unop .bnotI64 rfl rfl).leads
      · exact ensures_error.mpr reached.error.leads

theorem logicalExpr_leads (ready : s.Ready H library) {left right : Expr} {op : String}
    (suits : Suits H ⟨s, d, Λ⟩ left ∧ Suits H ⟨s, d, Λ⟩ right) :
    Runs H (logicalExpr w left op right) ⟨s, d, Λ⟩ (d + 1) := by
  simp only [logicalExpr, ensures_bind, ensures_newLabel, ensures_emitJump, ensures_bindLabel, ensures_emit]
  obtain ⟨K, labelled, short, exit⟩ := (Emits.refl (H := H) (p := ⟨s, d, Λ⟩)).label₂ d (d + 1)
  refine sound.expr ready labelled (suits.1.after ready labelled) fun t _ inner reached => ?_
  have conditional : (if decide (op = "&&") = true then Jk.ifFalse else Jk.ifTrue) ≠ .jump := by
    split <;> decide
  have tested := reached.test _ conditional (short.after inner)
  refine sound.expr ready tested (suits.2.after ready tested) fun u _ inner' reached => ?_
  have short := (short.after inner).after inner'
  have exit := (exit.after inner).after inner'
  exact ((((reached.goto exit).place short).push (.constBool _) rfl rfl).place exit).leads

theorem emitOperands_leads (ready : s.Ready H library) {left right : Expr} {instr : Instr}
    (suits : Suits H ⟨s, d, Λ⟩ left) (hright : H.const right)
    (site : ∀ {t : FnCompiler} {K : ℕ → ℕ}, Emits H ⟨s, d, Λ⟩ ⟨t, d + 2, K⟩ → Site H t instr ∧ instr.pops t.scope.types = 2 ∧ instr.pushes = 1) :
    Runs H (emitOperands w left right instr) ⟨s, d, Λ⟩ (d + 1) := by
  simp only [emitOperands, ensures_bind, ensures_emit]
  refine sound.expr ready .refl suits fun t _ _ reached => ?_
  refine sound.expr ready reached (.const hright) fun u _ _ reached => ?_
  obtain ⟨site, pops, one⟩ := site reached
  exact (reached.take (n := 2) site pops one).leads

end

/-- A method found before is found after. -/
theorem Emits.getIn_method (emits : Emits H ⟨s, d, Λ⟩ ⟨t, d', Λ'⟩) {id : TypeId} :
    t.scope.methodTable.getIn id name = s.scope.methodTable.getIn id name :=
  emits.lookup (·.methodTable.getIn id name) fun _ _ _ _ _ => rfl

/-- What compares by a call takes both operands. -/
theorem equalityCall_site {ty : Ty} {isPrimitive : Bool} {instr : Instr}
    (chosen : equalityCall library s ty isPrimitive = some instr) (emits : Emits H ⟨s, d, Λ⟩ ⟨t, d', Λ'⟩) :
    Site H t instr ∧ instr.pops t.scope.types = 2 ∧ instr.pushes = 1 := by
  unfold equalityCall at chosen
  split at chosen
  · cases chosen
    exact ⟨.callVirtual (.inl (by decide)), rfl, rfl⟩
  · split at chosen
    next idx found =>
      cases chosen
      obtain ⟨id, there⟩ := FnCompiler.interfaceMethod_found found
      exact ⟨.callOperator (emits.getIn_method.trans there) (by decide), rfl, rfl⟩
    next =>
      split at chosen
      · cases chosen
        exact ⟨.native (by decide), rfl, rfl⟩
      · cases chosen

theorem arithOp_binary (op : String) (isDouble : Bool) : (arithOp op isDouble).pops = 2 ∧ (arithOp op isDouble).pushes = 1 := by
  unfold arithOp
  split_ifs <;> exact ⟨rfl, rfl⟩

theorem cmpOp_binary (op : String) (isDouble : Bool) : (cmpOp op isDouble).pops = 2 ∧ (cmpOp op isDouble).pushes = 1 := by
  unfold cmpOp
  split_ifs <;> exact ⟨rfl, rfl⟩

theorem bitwiseOp_binary (op : String) : (bitwiseOp op).pops = 2 ∧ (bitwiseOp op).pushes = 1 := by
  unfold bitwiseOp
  split_ifs <;> exact ⟨rfl, rfl⟩

theorem emitTypedOp_leads {op : String} {isDouble : Bool} :
    Ensures (emitTypedOp op isDouble span) s fun _ t => Emits H ⟨s, d + 2, Λ⟩ ⟨t, d + 1, Λ⟩ := by
  have refl : Emits H ⟨s, d + 2, Λ⟩ ⟨s, d + 2, Λ⟩ := .refl
  unfold emitTypedOp
  split
  · split
    · exact ensures_error.mpr refl.error
    · exact ensures_emit.mpr (refl.binop _ (arithOp_binary ..).1 (arithOp_binary ..).2)
  · split
    · exact ensures_emit.mpr (refl.binop _ (cmpOp_binary ..).1 (cmpOp_binary ..).2)
    · split
      · split
        · exact ensures_error.mpr refl.error
        · exact ensures_emit.mpr (refl.binop _ (bitwiseOp_binary ..).1 (bitwiseOp_binary ..).2)
      · exact ensures_error.mpr refl.error

theorem binaryExpr_leads (sound : w.Sound H library) (ready : s.Ready H library) {left right : Expr} {op : String}
    (suits : Suits H ⟨s, d, Λ⟩ (.binary span left op right)) :
    Runs H (binaryExpr library w left op right span) ⟨s, d, Λ⟩ (d + 1) := by
  have first : Suits H ⟨s, d, Λ⟩ left := suits.part List.mem_cons_self List.mem_cons_self
  have second : right ∈ Expr.children (.binary span left op right) := by simp [Expr.children]
  simp only [binaryExpr]
  split
  next => exact logicalExpr_leads sound ready ⟨first, suits.part second second⟩
  next strict =>
    have held : H.const right := .held suits.expr second (by simp [Expr.held, strict])
    simp only [ensures_bind, ensures_get]
    split
    next instr chosen =>
      have site {t : FnCompiler} {K : ℕ → ℕ} (emits : Emits H ⟨s, d, Λ⟩ ⟨t, d + 2, K⟩) :
          Site H t instr ∧ instr.pops t.scope.types = 2 ∧ instr.pushes = 1 := by
        split at chosen
        · exact equalityCall_site chosen emits
        · cases chosen
      rw [ensures_bind]
      refine Emits.refl.run (emitOperands_leads sound ready first held site) fun t _ _ reached => ?_
      split
      · exact ensures_emit.mpr (reached.unop .not rfl rfl).leads
      · exact (ensures_pure ..).mpr reached.leads
    next =>
      split
      · exact emitOperands_leads sound ready first held fun _ => ⟨.native (by decide), rfl, rfl⟩
      · split
        · exact error_leads
        · simp only [ensures_bind]
          refine sound.expr ready .refl first fun t _ _ reached => ?_
          refine sound.expr ready reached (.const held) fun u _ _ reached => ?_
          exact emitTypedOp_leads.mono fun _ _ last => (reached.trans last).leads

/-! ## Structs and fields -/

theorem findFieldInit_mem {fields : List FieldInit} {value : Expr} (found : findFieldInit fields name = some value) :
    ∃ f ∈ fields, f.value = value := by
  obtain ⟨f, there, eq⟩ := Option.map_eq_some_iff.mp found
  exact ⟨f, List.mem_of_find?_eq_some there, eq⟩

theorem structExpr_leads (sound : w.Sound H library) (ready : s.Ready H library) {typeName : String}
    {ns : Option String} {fields : List FieldInit} (h : ∀ f ∈ fields, H.const f.value) :
    Runs H (structExpr library w span typeName ns fields) ⟨s, d, Λ⟩ (d + 1) := by
  simp only [structExpr, ensures_bind, ensures_get]
  split
  case h_2 => exact error_leads
  case h_1 info found =>
    simp only [ensures_bind, ensures_emit]
    refine Emits.refl.run (forM_pushes (d := d) (Λ := Λ) info.fieldNames _ ready fun name _ t e K ready => ?_)
      fun t K _ reached => ?_
    · split
      next value initialized =>
        obtain ⟨f, member, rfl⟩ := findFieldInit_mem initialized
        exact sound.const ready (h f member)
      next => exact ensures_error.mpr (Emits.refl (p := ⟨t, e, K⟩)).error.leads
    · obtain ⟨owner, name, there⟩ := Laid.mono ⟨_, _, found⟩ reached
      have layout := (reached.ready ready).scope.layouts there
      exact (reached.take (.structNew there) (by simp [Instr.pops, layout]) rfl).leads

/-- A literal has no jumps. -/
theorem Hereditary.const_int (H : Hereditary) (span : Span) (value : ℤ) : H.const (.int span value) := by
  refine ⟨H.int span value, fun _ loose => ?_⟩
  cases loose with
  | here leaves => cases leaves
  | inside member => simp [Expr.sameLoop, Expr.children] at member

theorem Hereditary.const_text (H : Hereditary) (span span' : Span) (text : String) :
    H.const (.str span [.text span' text]) := by
  refine ⟨H.text span span' text, fun _ loose => ?_⟩
  cases loose with
  | here leaves => cases leaves
  | inside member => simp [Expr.sameLoop, Expr.children] at member

theorem emitSourceLoc_leads (sound : w.Sound H library) (ready : s.Ready H library) :
    Runs H (emitSourceLoc library w span) ⟨s, d, Λ⟩ (d + 1) := by
  simp only [emitSourceLoc, ensures_bind, ensures_get]
  refine structExpr_leads sound ready fun f member => ?_
  simp only [List.mem_cons, List.not_mem_nil, or_false] at member
  rcases member with rfl | rfl | rfl
  · exact H.const_text ..
  · exact H.const_int ..
  · exact H.const_int ..

/-- Whether something was emitted: then one operand, else nothing. -/
def Emitted (H : Hereditary) (p : Point) (emitted : Bool) (t : FnCompiler) : Prop :=
  if emitted then Leads H p (p.depth + 1) t else t = p.c

theorem emitNamespaceMember_leads (sound : w.Sound H library) (ready : s.Ready H library) {field : String} :
    Ensures (emitNamespaceMember library w object field span) s (Emitted H ⟨s, d, Λ⟩) := by
  have nothing : Ensures (pure false) s (Emitted H ⟨s, d, Λ⟩) := (ensures_pure ..).mpr rfl
  unfold emitNamespaceMember
  split
  case h_2 => exact nothing
  case h_1 ns =>
    simp only [ensures_bind, ensures_get]
    split
    next =>
      split
      next owner _ =>
        split
        next isConst =>
          simp only [ensures_bind, ensures_pure]
          exact emitConst_leads sound ready isConst
        next =>
          split
          next isGlobal =>
            simp only [ensures_bind, ensures_pure]
            exact emitGlobal_leads isGlobal
          next =>
            split
            next idx found =>
              simp only [ensures_bind, ensures_emit, ensures_pure]
              exact (Emits.refl.push (.functionValue found) rfl rfl).leads
            next => exact nothing
      next => exact nothing
    next => exact nothing

/-- A variant named through its enum is one of it. -/
theorem FnCompiler.enumVariant_found {c : FnCompiler} {info : EnumInfo} {tag : ℕ}
    (found : c.enumVariant library object name = some (info, tag)) :
    ∃ owner enum, c.scope.resolveEnum owner enum = some info ∧ tagOf info name = some tag := by
  unfold FnCompiler.enumVariant at found
  obtain ⟨id, _, found⟩ := Option.bind_eq_some_iff.mp found
  obtain ⟨info', there, found⟩ := Option.bind_eq_some_iff.mp found
  obtain ⟨tag', named, eq⟩ := Option.bind_eq_some_iff.mp found
  cases eq
  exact ⟨_, _, there, named⟩

theorem FnCompiler.bareVariant_found {c : FnCompiler} {info : EnumInfo} {tag : ℕ}
    (found : c.bareVariant library name expected = some (info, tag)) :
    ∃ owner enum, c.scope.resolveEnum owner enum = some info ∧ tagOf info name = some tag := by
  unfold FnCompiler.bareVariant at found
  obtain ⟨⟨element, _⟩, _, found⟩ := Option.bind_eq_some_iff.mp found
  obtain ⟨info', there, found⟩ := Option.bind_eq_some_iff.mp found
  obtain ⟨tag', named, eq⟩ := Option.bind_eq_some_iff.mp found
  cases eq
  exact ⟨_, _, there, named⟩

theorem Emits.resolveEnum (emits : Emits H ⟨s, d, Λ⟩ ⟨t, d', Λ'⟩) (owner name : String) :
    t.scope.resolveEnum owner name = s.scope.resolveEnum owner name :=
  emits.lookup (·.resolveEnum owner name) fun _ _ _ _ _ => rfl

section

variable (sound : w.Sound H library) (ready : s.Ready H library)

include sound ready

theorem fieldExpr_leads {field : String} (suits : Suits H ⟨s, d, Λ⟩ object) :
    Runs H (fieldExpr library w object field span) ⟨s, d, Λ⟩ (d + 1) := by
  unfold fieldExpr
  rw [Runs, ensures_bind]
  refine (emitNamespaceMember_leads (H := H) (d := d) (Λ := Λ) sound ready).mono fun emitted t done => ?_
  cases emitted with
  | true => exact (ensures_pure ..).mpr done
  | false =>
    obtain rfl : t = s := done
    simp only [Bool.false_eq_true, if_false, ensures_bind, ensures_get]
    split
    case h_1 info tag found =>
      obtain ⟨_, _, there, named⟩ := FnCompiler.enumVariant_found found
      split
      · exact ensures_error.mpr (Emits.refl (p := ⟨t, d, Λ⟩)).error.leads
      · exact ensures_emit.mpr (Emits.refl.push (.enumNew there named (.inl rfl)) rfl rfl).leads
    case h_2 =>
      rw [ensures_bind]
      refine (structOf_leads (H := H) (d := d) (Λ := Λ)).mono fun info u found => ?_
      cases info with
      | none => exact (ensures_pure ..).mpr (found _).leads
      | some info =>
        obtain ⟨found, laid⟩ := found
        simp only [ensures_bind, ensures_emit]
        refine sound.expr ready found (suits.after ready found) fun v K toV reached => ?_
        refine (fieldIndex_leads (H := H) (d := d + 1) (Λ := K)).mono fun i x emitted => ?_
        obtain ⟨toX, bound⟩ := emitted
        exact ((reached.trans toX).take (n := 1) (((laid.mono toV).mono toX).site bound).1 rfl rfl).leads

/-! ## Arguments -/

theorem emitArgsExpecting_leads (h : ∀ a ∈ args, H.const a.value) :
    Runs H (emitArgsExpecting library w callee args expected) ⟨s, d, Λ⟩ (d + args.length) := by
  simp only [emitArgsExpecting, ensures_bind, ensures_get]
  refine (forM_pushes (d := d) (Λ := Λ) args.zipIdx _ ready fun a member t e K ready => ?_).mono fun _ t reached => ?_
  · exact sound.const ready (h a.1 (List.fst_mem_of_mem_zipIdx member))
  · rwa [List.length_zipIdx] at reached

theorem emitDefaultArg_leads {value : Expr} {call : Span} (h : H.const value) :
    Runs H (emitDefaultArg w value declFile call expected) ⟨s, d, Λ⟩ (d + 1) := by
  rw [Runs, emitDefaultArg, ensures_inFile]
  exact (sound.const (ready.enterFile _ _) h).mono fun _ t inner =>
    inner.imp fun _ inner => Emits.refl.file inner

theorem emitOrderedArgs_leads {ordered : List OrderedArg} (h : ∀ a ∈ ordered, H.const a.value) :
    Runs H (emitOrderedArgs library w callee args ordered) ⟨s, d, Λ⟩ (d + ordered.length) := by
  simp only [emitOrderedArgs, ensures_bind, ensures_get]
  refine (forM_pushes (d := d) (Λ := Λ) ordered.zipIdx _ ready fun a member t e K ready => ?_).mono fun _ t reached => ?_
  · have value := h a.1 (List.fst_mem_of_mem_zipIdx member)
    obtain ⟨a, i⟩ := a
    dsimp only
    split
    · exact sound.const ready value
    · exact emitDefaultArg_leads sound ready value
  · rwa [List.length_zipIdx] at reached

end

/-- What a parameter gets is a written argument or its default. -/
theorem matchParams_const {named : Table String Expr} {positional : List Expr} (written : ∀ e ∈ positional, H.const e)
    (labelled : ∀ label e, named.get label = some e → H.const e) (defaults : H.params params) :
    ∀ pair ∈ matchParams named declFile span params positional, ∀ arg, pair.2 = some arg → H.const arg.value := by
  induction params generalizing positional with
  | nil =>
    intro pair member
    cases member
  | cons p rest ih =>
    have later : H.params rest := fun p member => defaults p (List.mem_cons_of_mem _ member)
    have default : ∀ arg, defaultArg p.defaultValue declFile span = some arg → H.const arg.value := by
      intro arg eq
      obtain ⟨e, there, rfl⟩ := Option.map_eq_some_iff.mp eq
      exact defaults p List.mem_cons_self e there
    intro pair member arg eq
    have others {positional' : List Expr} (subset : positional' ⊆ positional) {value : Option OrderedArg}
        (first : ∀ arg, value = some arg → H.const arg.value)
        (inside : pair ∈ (p, value) :: matchParams named declFile span rest positional') : H.const arg.value := by
      rcases List.mem_cons.mp inside with rfl | inRest
      · exact first arg eq
      · exact ih (fun e inPos => written e (subset inPos)) later pair inRest arg eq
    have given {e : Expr} (h : H.const e) : ∀ arg, some (⟨e, .caller⟩ : OrderedArg) = some arg → H.const arg.value := by
      rintro _ ⟨⟩
      exact h
    rw [matchParams.eq_def] at member
    dsimp only at member
    split at member
    next => exact ih written later pair member arg eq
    next =>
      split at member
      next =>
        split at member
        next v positional' =>
          exact others (List.subset_cons_self _ _) (given (written v List.mem_cons_self)) member
        next => exact others (List.Subset.refl _) default member
      next label _ =>
        split at member
        next v found => exact others (List.Subset.refl _) (given (labelled label v found)) member
        next v positional' _ =>
          split at member
          · exact others (List.subset_cons_self _ _) (given (written v List.mem_cons_self)) member
          · exact others (List.Subset.refl _) default member
        next => exact others (List.Subset.refl _) default member

theorem matchParams_length {named : Table String Expr} {positional : List Expr} :
    (matchParams named declFile span params positional).length = arity params := by
  induction params generalizing positional with
  | nil => rfl
  | cons p rest ih =>
    rw [matchParams.eq_def]
    dsimp only
    split
    next isSelf => rw [ih, arity, arity, List.countP_cons_of_neg (by simp [isSelf])]
    next own =>
      have counted : arity (p :: rest) = arity rest + 1 := List.countP_cons_of_pos (by simpa using own)
      rw [counted]
      split
      · split <;> rw [List.length_cons, ih]
      · split
        · rw [List.length_cons, ih]
        · split <;> rw [List.length_cons, ih]
        · rw [List.length_cons, ih]

/-- The labelled arguments, as `resolveArgs` collects them. -/
theorem labelled_get {start : Table String Expr} {label : String}
    (found : Table.get (args.foldl (fun named a => match a.label with | some label => Table.set named label a.value | none => named) start) label = some e) :
    (∃ a ∈ args, a.value = e) ∨ start.get label = some e := by
  induction args generalizing start with
  | nil => exact .inr found
  | cons a rest ih =>
    rw [List.foldl_cons] at found
    rcases ih found with ⟨other, member, eq⟩ | before
    · exact .inl ⟨other, List.mem_cons_of_mem _ member, eq⟩
    · split at before
      · rcases Table.get_set_cases before with eq | old
        · exact .inl ⟨a, List.mem_cons_self, eq.symm⟩
        · exact .inr old
      · exact .inr before

/-- A missing argument is an error; the others are there in parameter order. -/
theorem resolveArgs_leads (h : ∀ a ∈ args, H.const a.value) (defaults : H.params params) :
    Ensures (resolveArgs params args span declFile) s fun ordered t => Emits H ⟨s, d, Λ⟩ ⟨t, d, Λ⟩ ∧
      ordered.length ≤ arity params ∧ ∀ a ∈ ordered, H.const a.value := by
  simp only [resolveArgs, ensures_bind, ensures_pure]
  refine (ensures_forM (I := fun t => Emits H ⟨s, d, Λ⟩ ⟨t, d, Λ⟩) _ _ (fun pair _ t reached => ?_) s .refl).mono
    fun _ t reached => ⟨reached, ?_, ?_⟩
  · split
    · exact ensures_error.mpr reached.error
    · exact (ensures_pure ..).mpr reached
  · exact Nat.le_trans (List.length_filterMap_le _ _) (Nat.le_of_eq matchParams_length)
  · intro a member
    obtain ⟨pair, inside, eq⟩ := List.mem_filterMap.mp member
    refine matchParams_const ?_ ?_ defaults pair inside a eq
    · intro e written
      obtain ⟨arg, there, value⟩ := List.mem_filterMap.mp written
      split at value
      · cases value
        exact h arg there
      · cases value
    · intro label e found
      rcases labelled_get found with ⟨arg, there, rfl⟩ | none
      · exact h arg there
      · cases none

/-- The unit of an index is still there. -/
theorem Emits.unit_stays (emits : Emits H ⟨s, d, Λ⟩ ⟨t, d', Λ'⟩) {i : ℕ} {unit : CodeUnit}
    (there : s.scope.units[i]? = some unit) : t.scope.units[i]? = some unit :=
  emits.frame.scope.units.getElem?_some there

theorem emitUnitArgs_leads (sound : w.Sound H library) (ready : s.Ready H library) {unit : ℕ}
    (h : ∀ a ∈ args, H.const a.value) :
    Ensures (emitUnitArgs library w callee args span unit) s fun argc t => Leads H ⟨s, d, Λ⟩ (d + argc) t ∧
      ∃ code, t.scope.units[unit]? = some code ∧ argc ≤ arity code.decl.params := by
  simp only [emitUnitArgs, ensures_bind, ensures_get]
  split
  case h_2 => exact ensures_failure _ _
  case h_1 code there =>
    simp only [ensures_bind, ensures_pure]
    have defaults := ready.scope.params code (List.mem_of_getElem? there)
    refine (resolveArgs_leads (H := H) (d := d) (Λ := Λ) h defaults).mono fun ordered t emitted => ?_
    obtain ⟨resolved, le, consts⟩ := emitted
    refine resolved.run (emitOrderedArgs_leads sound (resolved.ready ready) consts) fun u K _ reached => ?_
    exact ⟨reached.leads, code, reached.unit_stays there, le⟩

/-! ## The kinds of call -/

/-- What is known of a written call. -/
structure CallReady (H : Hereditary) (span : Span) (callee : Expr) (args : List CallArg) : Prop where
  written : ∃ typeArgs recvTypeArgs, H.expr (.call span callee typeArgs recvTypeArgs args)
  args : ∀ a ∈ args, H.const a.value

theorem CallReady.passes (call : CallReady H span callee args) : Passes H args.length := by
  obtain ⟨typeArgs, recvTypeArgs, h⟩ := call.written
  exact ⟨span, callee, typeArgs, recvTypeArgs, args, h, .inl (Nat.le_refl _)⟩

theorem CallReady.passes_receiver {span' : Span} {member : String}
    (call : CallReady H span (.field span' object member) args) : Passes H (args.length + 1) := by
  obtain ⟨typeArgs, recvTypeArgs, h⟩ := call.written
  exact ⟨span, _, typeArgs, recvTypeArgs, args, h, .inr ⟨⟨_, _, _, rfl⟩, rfl⟩⟩

section

variable {span : Span} {callee : Expr} {args : List CallArg}

theorem emitEnumCtor_leads (sound : w.Sound H library) (ready : s.Ready H library) (call : CallReady H span callee args)
    {obj : Expr} {field : String} {expected : Option Ty} :
    Ensures (emitEnumCtor library w callee args obj field expected) s (Emitted H ⟨s, d, Λ⟩) := by
  simp only [emitEnumCtor, ensures_bind, ensures_get]
  split
  case h_2 => exact (ensures_pure ..).mpr rfl
  case h_1 info tag found =>
    obtain ⟨_, _, there, named⟩ := FnCompiler.enumVariant_found found
    simp only [ensures_bind, ensures_emit, ensures_pure]
    refine Emits.refl.run (emitArgsExpecting_leads (d := d) (Λ := Λ) sound ready call.args) fun t _ _ reached => ?_
    exact (reached.take (.enumNew ((reached.resolveEnum _ _).trans there) named (.inr call.passes)) rfl rfl).leads

/-- The names of the variants from `i` on, tested one by one. -/
theorem enumNameChain_leads {p : Point} {tagSlot exit : ℕ} (variants : List EnumVariant) {i : ℕ}
    (tag_lt : tagSlot < s.localCount) (fresh : Fresh p ⟨s, d, Λ⟩ exit (d + 1))
    (some_variant : H.balanced → variants ≠ []) :
    Runs H (enumNameChain tagSlot exit variants i) ⟨s, d, Λ⟩ (d + 1) := by
  induction variants generalizing s Λ i with
  | nil =>
    exact (ensures_pure ..).mpr (Emits.refl.recount fun balanced => absurd rfl (some_variant balanced)).leads
  | cons variant rest ih =>
    cases rest with
    | nil => exact ensures_emit.mpr (Emits.refl.push (.constStr variant.name) rfl rfl).leads
    | cons second rest =>
      rw [enumNameChain]
      · simp only [ensures_bind, ensures_newLabel, ensures_emit, ensures_emitJump, ensures_bindLabel]
        obtain ⟨K, labelled, next⟩ := (Emits.refl (H := H) (p := ⟨s, d, Λ⟩)).label₁ d
        have compared := ((labelled.load tag_lt).int i).binop .eqI64 rfl rfl
        have named := (compared.test .ifFalse (by decide) next).push (.constStr variant.name) rfl rfl
        have first := (named.goto (e := d) (fresh.after labelled)).place next
        refine (ih (first.slot_lt tag_lt) (fresh.after first) fun _ eq => ?_).mono fun _ _ last => Leads.trans first last
        cases eq
      · exact fun eq => by cases eq

section

variable (sound : w.Sound H library) (ready : s.Ready H library)

include sound ready

theorem enumName_leads {receiver : Expr} {info : EnumInfo} (suits : Suits H ⟨s, d, Λ⟩ receiver)
    (some_variant : H.balanced → info.variants ≠ []) :
    Runs H (enumName w receiver info) ⟨s, d, Λ⟩ (d + 1) := by
  simp only [enumName, ensures_bind, ensures_emit, ensures_freshSlot, ensures_newLabel, ensures_bindLabel]
  refine sound.expr ready .refl suits fun t _ _ reached => ?_
  obtain ⟨K, labelled, exit⟩ := ((reached.unop .enumTag rfl rfl).temporary.store (Nat.lt_succ_self _)).label₁ (d + 1)
  refine labelled.run (enumNameChain_leads info.variants (Nat.lt_succ_self _) exit some_variant) fun u _ chained reached => ?_
  exact (reached.place (exit.after chained)).leads

theorem emitEnumNameCall_leads {obj : Expr} (suits : Suits H ⟨s, d, Λ⟩ obj) :
    Ensures (emitEnumNameCall library w obj) s (Emitted H ⟨s, d, Λ⟩) := by
  simp only [emitEnumNameCall, ensures_bind, ensures_get]
  split
  case h_2 => exact (ensures_pure ..).mpr rfl
  case h_1 info found =>
    obtain ⟨id, _, there⟩ := Option.bind_eq_some_iff.mp found
    simp only [ensures_bind, ensures_pure]
    exact enumName_leads sound ready suits fun balanced => ready.scope.variants balanced there

/-- The written arguments of a native, which takes all of them. -/
theorem nativeCall_leads (call : CallReady H span callee args) (symbol : String) : Runs H (do
      emitArgsExpecting library w callee args none
      emit (.callNative symbol args.length)) ⟨s, d, Λ⟩ (d + 1) := by
  simp only [ensures_bind, ensures_emit]
  refine Emits.refl.run (emitArgsExpecting_leads (d := d) (Λ := Λ) sound ready call.args) fun t _ _ reached => ?_
  exact (reached.take (.callNative (.inr call.passes)) rfl rfl).leads

end

/-- A call of a unit with its arguments in parameter order. -/
theorem functionCall_leads (sound : w.Sound H library) (ready : s.Ready H library) (call : CallReady H span callee args)
    {owner name : String} {idx : ℕ} (found : s.scope.functionInFile owner name = some idx) : Runs H (do
      let argc ← emitUnitArgs library w callee args span idx
      emit (.call idx argc)) ⟨s, d, Λ⟩ (d + 1) := by
  simp only [ensures_bind, ensures_emit]
  refine (emitUnitArgs_leads (d := d) (Λ := Λ) sound ready call.args).mono fun argc t emitted => ?_
  obtain ⟨⟨_, reached⟩, code, there, le⟩ := emitted
  have same := reached.lookup (·.functionInFile owner name) fun _ _ _ _ _ => rfl
  exact (reached.take (.callFunction (same.trans found) there le) rfl rfl).leads

theorem emitNamespaceCall_leads (sound : w.Sound H library) (ready : s.Ready H library)
    (call : CallReady H span callee args) {obj : Expr} {field : String} :
    Ensures (emitNamespaceCall library w callee args span obj field) s (Emitted H ⟨s, d, Λ⟩) := by
  have nothing : Ensures (pure false) s (Emitted H ⟨s, d, Λ⟩) := (ensures_pure ..).mpr rfl
  unfold emitNamespaceCall
  split
  case h_2 => exact nothing
  case h_1 ns =>
    simp only [ensures_bind, ensures_get]
    split
    case h_2 => exact nothing
    case h_1 owner _ =>
      split
      next symbol _ =>
        simp only [ensures_bind, ensures_emit, ensures_pure]
        have emitted := nativeCall_leads (d := d) (Λ := Λ) sound ready call symbol
        simp only [ensures_bind, ensures_emit] at emitted
        exact emitted
      next =>
        split
        next idx found =>
          simp only [ensures_bind, ensures_emit, ensures_pure]
          have emitted := functionCall_leads (d := d) (Λ := Λ) sound ready call found
          simp only [ensures_bind, ensures_emit] at emitted
          exact emitted
        next => exact nothing

theorem FnCompiler.resolveMethod_found {c : FnCompiler} {receiver : Expr} {name : String} {idx : ℕ}
    (found : c.resolveMethod library receiver name = some idx) : ∃ id, c.scope.methodTable.getIn id name = some idx := by
  unfold FnCompiler.resolveMethod at found
  obtain ⟨id, _, there⟩ := Option.bind_eq_some_iff.mp found
  exact ⟨id, there⟩

theorem emitStaticMethodCall_leads (sound : w.Sound H library) (ready : s.Ready H library)
    (call : CallReady H span callee args) {obj : Expr} {field : String} :
    Ensures (emitStaticMethodCall library w callee args span obj field) s (Emitted H ⟨s, d, Λ⟩) := by
  simp only [emitStaticMethodCall, ensures_bind, ensures_get]
  split
  next symbol _ =>
    have emitted := nativeCall_leads (d := d) (Λ := Λ) sound ready call symbol
    simp only [ensures_bind, ensures_emit, ensures_pure] at emitted ⊢
    exact emitted
  next =>
    split
    next idx found =>
      simp only [ensures_bind, ensures_emit, ensures_pure]
      obtain ⟨id, method⟩ := FnCompiler.resolveMethod_found found
      refine (emitUnitArgs_leads (d := d) (Λ := Λ) sound ready call.args).mono
        fun argc t emitted => ?_
      obtain ⟨⟨_, reached⟩, code, there, le⟩ := emitted
      exact (reached.take (.callMethod (reached.getIn_method.trans method) there (Nat.le_succ_of_le le)) rfl rfl).leads
    next => exact (ensures_pure ..).mpr rfl

end

section

variable {span span' : Span} {obj : Expr} {field : String} {args : List CallArg}

/-- A declared signature is one of an interface. -/
theorem virtualSignature_found {sig : IfaceMethodSig} (found : virtualSignature library s obj field = some (some sig)) :
    ∃ iface, s.scope.interfaceMethodSigs.getIn iface field = some sig := by
  unfold virtualSignature at found
  split at found
  · cases found
  · obtain ⟨ifaces, _, found⟩ := Option.bind_eq_some_iff.mp found
    obtain ⟨iface, _, found⟩ := Option.bind_eq_some_iff.mp found
    exact ⟨iface, Option.some.inj found⟩

section

variable (sound : w.Sound H library) (ready : s.Ready H library) (call : CallReady H span (.field span' obj field) args)

include sound ready call

theorem emitInstanceMethodCall_leads (suits : Suits H ⟨s, d, Λ⟩ obj) :
    Ensures (emitInstanceMethodCall library w (.field span' obj field) args span obj field) s (Emitted H ⟨s, d, Λ⟩) := by
  simp only [emitInstanceMethodCall, ensures_bind, ensures_get]
  split
  next symbol found =>
    simp only [ensures_bind]
    refine sound.expr ready .refl suits fun t K _ reached => ?_
    refine reached.run (emitArgsExpecting_leads sound (reached.ready ready) call.args) fun u _ _ reached => ?_
    rw [Nat.add_assoc, Nat.add_comm 1] at reached
    split
    next isLen =>
      simp only [ensures_bind, ensures_emit, ensures_pure]
      obtain ⟨t, named, there⟩ := Option.bind_eq_some_iff.mp found
      obtain ⟨_, _, written⟩ := call.written
      have none (balanced : H.balanced) : args = [] :=
        ready.scope.lengths balanced written _ _ _ named (isLen ▸ there)
      have alone := reached.recount (e := d + 1) fun balanced => by simp [none balanced]
      exact (alone.unop .listLen rfl rfl).leads
    next =>
      simp only [ensures_bind, ensures_emit, ensures_pure]
      exact (reached.take (.callNative (.inr call.passes_receiver)) rfl rfl).leads
  next =>
    split
    next idx found =>
      simp only [ensures_bind, ensures_emit, ensures_pure]
      obtain ⟨id, method⟩ := FnCompiler.resolveMethod_found found
      refine sound.expr ready .refl suits fun t K _ reached => ?_
      refine (emitUnitArgs_leads (d := d + 1) (Λ := K) sound (reached.ready ready) call.args).mono
        fun argc u emitted => ?_
      obtain ⟨⟨_, pushed⟩, code, there, le⟩ := emitted
      have reached := reached.trans pushed
      rw [Nat.add_assoc, Nat.add_comm 1] at reached
      exact (reached.take (.callMethod (reached.getIn_method.trans method) there (Nat.succ_le_succ le)) rfl rfl).leads
    next => exact (ensures_pure ..).mpr rfl

theorem emitVirtualCall_leads (suits : Suits H ⟨s, d, Λ⟩ obj) :
    Ensures (emitVirtualCall library w (.field span' obj field) args span obj field) s (Emitted H ⟨s, d, Λ⟩) := by
  simp only [emitVirtualCall, ensures_bind, ensures_get]
  split
  case h_1 => exact (ensures_pure ..).mpr rfl
  case h_2 sig found =>
    rw [ensures_bind]
    refine sound.expr ready .refl suits fun t K _ reached => ?_
    cases sig with
    | some sig =>
      obtain ⟨iface, there⟩ := virtualSignature_found found
      simp only [ensures_bind, ensures_emit, ensures_pure]
      refine (resolveArgs_leads (H := H) (d := d + 1) (Λ := K) call.args (ready.scope.sigs there)).mono
        fun ordered u emitted => ?_
      obtain ⟨resolved, le, consts⟩ := emitted
      have reached := reached.trans resolved
      refine reached.run (emitOrderedArgs_leads sound (reached.ready ready) consts) fun v _ _ reached => ?_
      rw [Nat.add_assoc, Nat.add_comm 1] at reached
      have same := reached.lookup (·.interfaceMethodSigs.getIn iface field) fun _ _ _ _ _ => rfl
      exact (reached.take (.callInterface (same.trans there) (Nat.succ_le_succ le)) rfl rfl).leads
    | none =>
      simp only [ensures_bind, ensures_emit, ensures_pure]
      refine reached.run (emitArgsExpecting_leads sound (reached.ready ready) call.args) fun u _ _ reached => ?_
      rw [Nat.add_assoc, Nat.add_comm 1] at reached
      exact (reached.take (.callVirtual (.inr call.passes_receiver)) rfl rfl).leads

theorem emitFieldCall_leads (suits : Suits H ⟨s, d, Λ⟩ obj) :
    Ensures (emitFieldCall library w (.field span' obj field) args obj field) s (Emitted H ⟨s, d, Λ⟩) := by
  simp only [emitFieldCall, ensures_bind, ensures_get]
  split
  case h_2 => exact (ensures_pure ..).mpr rfl
  case h_1 idx found =>
    obtain ⟨info, there, position⟩ := Option.bind_eq_some_iff.mp found
    obtain ⟨id, _, layout⟩ := Option.bind_eq_some_iff.mp there
    simp only [ensures_bind, ensures_emit, ensures_pure]
    refine sound.expr ready .refl suits fun t K inner reached => ?_
    have laid := Laid.mono ⟨_, _, layout⟩ inner
    have function := reached.take (n := 1) (laid.site (.inr (fieldIndexOf_lt position))).1 rfl rfl
    refine function.run (emitArgsExpecting_leads sound (function.ready ready) call.args) fun u _ _ reached => ?_
    rw [Nat.add_assoc, Nat.add_comm 1] at reached
    exact (reached.take (.callIndirect call.passes) rfl rfl).leads

theorem methodCall_leads {expected : Option Ty} (suits : Suits H ⟨s, d, Λ⟩ obj) :
    Runs H (methodCall library w (.field span' obj field) args span obj field expected) ⟨s, d, Λ⟩ (d + 1) := by
  -- Whichever way the call is resolved, it is emitted or nothing is.
  have finish {x : Emit Bool} (emits : Ensures x s (Emitted H ⟨s, d, Λ⟩)) : Runs H (do
      if ← x then return
      let shown := ((← get).typeOf library obj).getD "unknown type"
      error s!"no method \"{field}\" on {shown}" span) ⟨s, d, Λ⟩ (d + 1) := by
    rw [Runs, ensures_bind]
    refine emits.mono fun emitted t done => ?_
    cases emitted with
    | true => exact (ensures_pure ..).mpr done
    | false =>
      obtain rfl : t = s := done
      simp only [Bool.false_eq_true, if_false, ensures_bind, ensures_get, ensures_error]
      exact (Emits.refl (p := ⟨t, d, Λ⟩)).error.leads
  simp only [methodCall]
  rw [Runs, ensures_bind, ensures_get]
  cases library.inferCalleeKind obj field args.length s.typeScope s.ctx with
  | enumCtor => exact finish (emitEnumCtor_leads sound ready call)
  | enumName => exact finish (emitEnumNameCall_leads sound ready suits)
  | «namespace» => exact finish (emitNamespaceCall_leads sound ready call)
  | staticMethod => exact finish (emitStaticMethodCall_leads sound ready call)
  | instanceMethod => exact finish (emitInstanceMethodCall_leads sound ready call suits)
  | virtual => exact finish (emitVirtualCall_leads sound ready call suits)
  | fieldCall => exact finish (emitFieldCall_leads sound ready call suits)
  | unresolved => exact finish ((ensures_pure ..).mpr rfl)

end

end

section

variable (sound : w.Sound H library) (ready : s.Ready H library)

include sound ready

theorem nameCall_leads (call : CallReady H span callee args) :
    Runs H (nameCall library w callee args span name expected) ⟨s, d, Λ⟩ (d + 1) := by
  simp only [nameCall, ensures_bind, ensures_get]
  refine (ensures_ite ..).mpr ⟨fun _ => ?_, fun _ => ?_⟩
  · simp only [ensures_bind, ensures_emit]
    refine Emits.refl.run (loadLocalValue_leads (d := d) (Λ := Λ) sound ready) fun t K _ function => ?_
    refine function.run (emitArgsExpecting_leads sound (function.ready ready) call.args) fun u _ _ reached => ?_
    rw [Nat.add_assoc, Nat.add_comm 1] at reached
    exact (reached.take (.callIndirect call.passes) rfl rfl).leads
  split
  next idx found =>
    obtain ⟨owner, there⟩ := ModuleScope.resolveBare_getIn found
    exact functionCall_leads sound ready call there
  next =>
    split
    next symbol _ =>
      split
      next arg _ =>
        simp only [ensures_bind, ensures_emit]
        have quiet := call.args arg (by simp)
        refine Emits.refl.run (emitAsString_leads (d := d) (Λ := Λ) sound ready (.const quiet)) fun t _ _ shown => ?_
        exact (shown.take (n := 1) (.native (by decide)) rfl rfl).leads
      next => exact nativeCall_leads sound ready call _
    next =>
      split
      next info tag found =>
        obtain ⟨_, _, there, named⟩ := FnCompiler.bareVariant_found found
        simp only [ensures_bind, ensures_emit]
        refine Emits.refl.run (emitArgsExpecting_leads (d := d) (Λ := Λ) sound ready call.args) fun t _ _ reached => ?_
        exact (reached.take (.enumNew ((reached.resolveEnum _ _).trans there) named (.inr call.passes)) rfl rfl).leads
      next => exact error_leads

theorem callExpr_leads {typeArgs recvTypeArgs : List TypeRef}
    (suits : Suits H ⟨s, d, Λ⟩ (.call span callee typeArgs recvTypeArgs args)) :
    Runs H (callExpr library w span callee args expected) ⟨s, d, Λ⟩ (d + 1) := by
  have call : CallReady H span callee args := by
    refine ⟨⟨_, _, suits.expr⟩, fun a member => .held suits.expr ?_ (List.mem_map_of_mem member)⟩
    exact List.mem_cons_of_mem _ (List.mem_map_of_mem member)
  unfold callExpr
  split
  next span' obj member =>
    have callee : Suits H ⟨s, d, Λ⟩ (.field span' obj member) := suits.part List.mem_cons_self List.mem_cons_self
    exact methodCall_leads sound ready call (callee.part List.mem_cons_self List.mem_cons_self)
  next => exact nameCall_leads sound ready call
  next => exact error_leads

/-! ## Expressions -/

/-- Operands one after the other, of which only the first may have jumps. -/
theorem operands_leads {items : List Expr} (first : ∀ e ∈ items.head?, Suits H ⟨s, d, Λ⟩ e)
    (others : ∀ e ∈ items.tail, H.const e) :
    Runs H (items.forM w.expr) ⟨s, d, Λ⟩ (d + items.length) := by
  cases items with
  | nil => exact (ensures_pure ..).mpr Emits.refl.leads
  | cons e rest =>
    refine (ensures_bind ..).mpr (sound.expr ready .refl (first e rfl) fun t K _ reached => ?_)
    refine (forM_pushes (d := d + 1) (Λ := K) rest _ (reached.ready ready) fun e' member _ _ _ ready' =>
      sound.const ready' (others e' member)).mono fun _ u last => ?_
    rw [List.length_cons, Nat.add_comm rest.length 1, ← Nat.add_assoc]
    exact Leads.trans reached last

theorem listExpr_leads {items : List Expr} (suits : Suits H ⟨s, d, Λ⟩ (.listLit span items)) :
    Runs H (listExpr library w items expected) ⟨s, d, Λ⟩ (d + 1) := by
  unfold listExpr
  refine (ensures_ite ..).mpr ⟨fun _ => ?_, fun _ => ?_⟩
  · exact ensures_emit.mpr (Emits.refl.take (n := 0) (.native (by decide)) rfl rfl).leads
  · simp only [ensures_bind, ensures_emit]
    refine (operands_leads (d := d) (Λ := Λ) sound ready (fun e head => ?_) fun e tail => ?_).mono
      fun _ t emitted => emitted.imp fun _ reached => reached.take (.listNew suits.expr) rfl rfl
    · exact suits.part (List.mem_of_mem_head? head) (List.mem_of_mem_head? head)
    · exact .held suits.expr (List.mem_of_mem_tail tail) tail

end

/-- The entries of a map literal are its keys and values in turn. -/
theorem entries_forM (entries : List MapEntry) : (entries.forM fun entry => do
      w.expr entry.key
      w.expr entry.value) = (entries.flatMap fun entry => [entry.key, entry.value]).forM w.expr := by
  induction entries with
  | nil => rfl
  | cons entry rest ih =>
    change (do (do w.expr entry.key; w.expr entry.value); rest.forM _) = _
    rw [ih, bind_assoc]
    rfl

theorem mapExpr_leads (sound : w.Sound H library) (ready : s.Ready H library) {entries : List MapEntry}
    (suits : Suits H ⟨s, d, Λ⟩ (.mapLit span entries)) :
    Runs H (mapExpr w entries) ⟨s, d, Λ⟩ (d + 1) := by
  have count : (entries.flatMap fun entry => [entry.key, entry.value]).length = entries.length * 2 := by
    simp [List.length_flatMap]
  simp only [mapExpr, entries_forM, ensures_bind, ensures_emit]
  refine (operands_leads (d := d) (Λ := Λ) sound ready (fun e head => ?_) fun e tail => ?_).mono
    fun _ t emitted => ?_
  · exact suits.part (List.mem_of_mem_head? head) (List.mem_of_mem_head? head)
  · exact .held suits.expr (List.mem_of_mem_tail tail) tail
  · obtain ⟨_, reached⟩ := emitted
    exact ((count ▸ reached).take (.mapNew suits.expr) rfl rfl).leads

theorem identExpr_leads (sound : w.Sound H library) (ready : s.Ready H library) :
    Runs H (identExpr library w name span expected) ⟨s, d, Λ⟩ (d + 1) := by
  simp only [identExpr, ensures_bind, ensures_get]
  split
  next info tag found =>
    obtain ⟨_, _, there, named⟩ := FnCompiler.bareVariant_found found
    exact ensures_emit.mpr (Emits.refl.take (n := 0) (.enumNew there named (.inl rfl)) rfl rfl).leads
  next => exact loadLocalValue_leads sound ready

/-- The blocks of an expression. -/
theorem Suits.block {p : Point} (suits : Suits H p e) {b : Block} (children : b.children ⊆ e.children)
    (held : b.held ⊆ e.held) (stays : e.leaves = false → b.leaves = false) (inside : b.sameLoop ⊆ e.sameLoop) :
    SuitsBlock H p b := by
  refine ⟨⟨fun _ member => H.child suits.expr (children member), fun balanced _ member => H.held balanced suits.expr
    (held member)⟩, fun balanced => (suits.clear balanced).imp_right fun quiet => ⟨stays ?_, fun e' member loose => ?_⟩⟩
  · exact Bool.eq_false_iff.mpr fun leaves => quiet (.here leaves)
  · exact quiet (.inside (inside member) loose)

theorem exprExpecting_leads (sound : w.Sound H library) (ready : s.Ready H library) (suits : Suits H ⟨s, d, Λ⟩ e) :
    Runs H (exprExpecting library w e expected) ⟨s, d, Λ⟩ (d + 1) := by
  cases e with
  | int _ v => exact ensures_emit.mpr (Emits.refl.int v).leads
  | float _ v => exact ensures_emit.mpr (Emits.refl.push (.constDouble v) rfl rfl).leads
  | bool _ v => exact ensures_emit.mpr (Emits.refl.push (.constBool v) rfl rfl).leads
  | unit _ => exact ensures_emit.mpr Emits.refl.unit.leads
  | str => exact stringExpr_leads sound ready suits
  | ident => exact identExpr_leads sound ready
  | unary => exact unaryExpr_leads sound ready (suits.part List.mem_cons_self List.mem_cons_self)
  | binary => exact binaryExpr_leads sound ready suits
  | listLit => exact listExpr_leads sound ready suits
  | mapLit => exact mapExpr_leads sound ready suits
  | index span object index =>
    simp only [exprExpecting, ensures_bind]
    refine sound.expr ready .refl (suits.part List.mem_cons_self List.mem_cons_self) fun t K _ reached => ?_
    have second : H.const index := .held suits.expr (by simp [Expr.children]) (by simp [Expr.held])
    refine sound.expr ready reached (.const second) fun u _ _ reached => ?_
    exact emitIndexGet_leads.mono fun _ _ last => Leads.trans reached last.leads
  | field => exact fieldExpr_leads sound ready (suits.part List.mem_cons_self List.mem_cons_self)
  | «struct» =>
    exact structExpr_leads sound ready fun f member =>
      .held suits.expr (List.mem_map_of_mem member) (List.mem_map_of_mem member)
  | call => exact callExpr_leads sound ready suits
  | propagate => exact propagateExpr_leads sound ready (suits.part List.mem_cons_self List.mem_cons_self)
  | «match» => exact matchExpr_leads sound ready suits
  | block _ b =>
    exact emitBlockValue_leads sound ready (suits.block (List.Subset.refl _) (List.Subset.refl _) id (List.Subset.refl _))
  | «if» span condition thenBlock elseBlock =>
    refine ifExpr_leads sound ready (suits.part List.mem_cons_self List.mem_cons_self) ?_ ?_
    · refine suits.block (by simp [Expr.children]) (by simp [Expr.held]) (fun stays => ?_) (by simp [Expr.sameLoop])
      exact (Bool.or_eq_false_iff.mp stays).1
    · rintro b rfl
      refine suits.block (by simp [Expr.children, optChildren]) (by simp [Expr.held, optHeld]) (fun stays => ?_)
        (by simp [Expr.sameLoop, optSameLoop])
      exact (Bool.or_eq_false_iff.mp stays).2
  | «return» _ value =>
    have inside {e : Expr} (eq : value = some e) : e ∈ value.toList := by simp [eq]
    exact emitReturn_leads sound ready (fun e eq => suits.part (inside eq) (inside eq)) _
  | throw => exact emitThrow_leads sound ready (suits.part List.mem_cons_self List.mem_cons_self) _
  | lambda => exact lambdaExpr_leads ready suits.expr
  | loc => exact emitSourceLoc_leads sound ready
  | range | error => exact error_leads

/-- However deep the recursion, the emitter takes only its steps. -/
theorem walker_sound (H : Hereditary) (library : Library) (fuel : ℕ) : (walker library fuel).Sound H library := by
  induction fuel with
  | zero => exact ⟨fun _ _ _ => ensures_failure _ _, fun _ _ _ => ensures_failure _ _⟩
  | succ fuel ih =>
    exact ⟨fun ready h clear => exprExpecting_leads ih ready ⟨h, clear⟩, fun ready h clear => block_leads ih ready ⟨h, clear⟩⟩

end

end Thera.Compiler
