import Thera.Proofs.Compiler.Units

/-! # Which slots hold a cell

A `let` of a boxed name stores a cell, a capture passes on what the captured slot holds, and nothing else
puts a cell in a slot. So a slot with a cell always belongs to a boxed name; the converse is what shadowing
can break.
-/

namespace Thera.Compiler

variable {H : Hereditary} {library : Library}

/-- The first parameters of a lifted lambda are its captures, and a captured cell has a boxed name. -/
structure ModuleScope.Lifted (scope : ModuleScope) : Prop where
  captures : ∀ {index : ℕ} {info : LambdaInfo} {unit : CodeUnit}, scope.lambdas.get index = some info →
    scope.units[index]? = some unit → ∀ (i : ℕ) (capture : String × Bool), info.captures[i]? = some capture →
      unit.decl.params[i]?.map Param.name = some capture.1 ∧ (capture.2 = true → capture.1 ∈ info.boxed)
  known : ∀ {index : ℕ} {info : LambdaInfo}, scope.lambdas.get index = some info → index < scope.units.length

/-- What holds of an access by how the slot was bound. -/
structure Access.Sound (a : Access) : Prop where
  known : a.binder ≠ none
  named : a.holdsCell = true → a.throughCell = true
  declared : a.binder = some .let → a.throughCell = true → a.holdsCell = true
  binder : a.holdsCell = true → a.binder = some .let ∨ a.binder = some .capture

/-- The slots of the names in scope, and the accesses so far. -/
structure FnCompiler.Boxes (c : FnCompiler) : Prop where
  lets : ∀ {name : String} {slot : ℕ}, c.slots name = some slot → c.binders[slot]? = some .let →
    name ∈ c.boxedLocals → slot ∈ c.cells
  named : ∀ {name : String} {slot : ℕ}, c.slots name = some slot → slot ∈ c.cells → name ∈ c.boxedLocals
  binder : ∀ {slot : ℕ}, slot ∈ c.cells → c.binders[slot]? = some .let ∨ c.binders[slot]? = some .capture
  accesses : ∀ a ∈ c.accesses, a.Sound
  scope : c.scope.Lifted

/-! ## What an emission leaves alone -/

/-- Only a fresh slot gets a cell. -/
theorem Emits.cells {p q : Point} (emits : Emits H p q) {slot : ℕ} (old : slot < p.c.localCount) :
    slot ∈ q.c.cells ↔ slot ∈ p.c.cells := by
  induction emits with
  | refl => exact Iff.rfl
  | trans first _ ih ih' => exact (ih' (Nat.lt_of_lt_of_le old first.frame.localCount)).trans (ih old)
  | cellVar first _ ih =>
    have before := Nat.ne_of_lt (Nat.lt_of_lt_of_le old first.frame.localCount)
    exact (List.mem_cons.trans (or_iff_right before)).trans (ih old)
  | scope first _ ih ih' | file first _ ih ih' | loop first _ _ ih ih' =>
    exact (ih' (Nat.lt_of_lt_of_le old first.frame.localCount)).trans (ih old)
  | instr _ _ ih | «return» _ ih | jump _ _ _ ih | branch _ _ _ _ ih | leave _ _ _ _ _ ih | label _ _ ih | bind _ _ _ ih
  | error _ ih | recount _ _ ih | temporary _ ih | loopVar _ ih | letVar _ _ ih | patternVar _ _ ih | types _ ih
  | cellType _ ih | lift _ _ _ _ ih | access _ _ ih | startConst _ ih | finishConst _ ih => exact ih old

/-- How a slot was bound does not change. -/
theorem Emits.binders_eq {p q : Point} (emits : Emits H p q) (ready : p.c.Ready H library) {slot : ℕ}
    (old : slot < p.c.localCount) : q.c.binders[slot]? = p.c.binders[slot]? := by
  obtain ⟨rest, eq⟩ := emits.frame.binders
  rw [← eq, List.getElem?_append_left (ready.binders ▸ old)]

/-- The layout of cells has nothing to do with lambdas. -/
theorem ModuleScope.Lifted.cellTypeIndex {scope : ModuleScope} (lifted : scope.Lifted) : scope.cellTypeIndex.2.Lifted := by
  unfold ModuleScope.cellTypeIndex
  split
  · exact lifted
  · exact ⟨lifted.captures, lifted.known⟩

/-! ## Steps -/

namespace FnCompiler.Boxes

variable {c c' : FnCompiler}

/-- The names of `c` are visible again in `c'`, which an emission from `c` led to. -/
theorem restore (before : c.Boxes) (ready : c.Ready H library) (after : c'.Boxes)
    (cells : ∀ slot, slot < c.localCount → (slot ∈ c'.cells ↔ slot ∈ c.cells))
    (binders : ∀ slot, slot < c.localCount → c'.binders[slot]? = c.binders[slot]?)
    (boxed : c'.boxedLocals = c.boxedLocals) {c'' : FnCompiler} (slots : c''.slots = c.slots)
    (same : c''.binders = c'.binders ∧ c''.cells = c'.cells ∧ c''.accesses = c'.accesses ∧ c''.scope = c'.scope ∧
      c''.boxedLocals = c'.boxedLocals) : c''.Boxes := by
  obtain ⟨sameBinders, sameCells, sameAccesses, sameScope, sameBoxed⟩ := same
  refine ⟨fun here bound member => ?_, fun here member => ?_, fun member => ?_, ?_, ?_⟩
  · rw [slots] at here
    rw [sameBinders, binders _ (ready.slots here)] at bound
    rw [sameBoxed, boxed] at member
    rw [sameCells, cells _ (ready.slots here)]
    exact before.lets here bound member
  · rw [slots] at here
    rw [sameCells, cells _ (ready.slots here)] at member
    rw [sameBoxed, boxed]
    exact before.named here member
  · rw [sameCells] at member
    rw [sameBinders]
    exact after.binder member
  · rw [sameAccesses]
    exact after.accesses
  · rw [sameScope]
    exact after.scope

section

variable (before : c.Boxes) (ready : c.Ready H library)

include before ready

/-- Another slot, with or without a cell, that a name may stand for from now on. -/
theorem declare {name : String} {binder : Binder}
    (slots : c'.slots = c.slots ∨ c'.slots = Function.update c.slots name (some c.localCount))
    (cells : c'.cells = c.cells ∨ c'.cells = c.localCount :: c.cells)
    (fresh : c.localCount ∈ c'.cells → name ∈ c.boxedLocals ∧ (binder = .let ∨ binder = .capture))
    (lets : binder = .let → name ∈ c.boxedLocals → c.localCount ∈ c'.cells)
    (same : c'.binders = c.binders ++ [binder] ∧ c'.accesses = c.accesses ∧ c'.scope = c.scope ∧ c'.boxedLocals = c.boxedLocals) :
    c'.Boxes := by
  obtain ⟨sameBinders, sameAccesses, sameScope, sameBoxed⟩ := same
  have names {key : String} {slot : ℕ} (here : c'.slots key = some slot) :
      c.slots key = some slot ∨ key = name ∧ slot = c.localCount := by
    rcases slots with eq | eq <;> rw [eq] at here
    · exact .inl here
    · exact FnCompiler.Ready.slots_update here
  have old_binder {slot : ℕ} (old : slot < c.localCount) : c'.binders[slot]? = c.binders[slot]? := by
    rw [sameBinders, List.getElem?_append_left (ready.binders ▸ old)]
  have new_binder : c'.binders[c.localCount]? = some binder := by
    rw [sameBinders, ← ready.binders, List.getElem?_concat_length]
  have old_cell {slot : ℕ} (old : slot < c.localCount) : slot ∈ c'.cells ↔ slot ∈ c.cells := by
    rcases cells with eq | eq <;> rw [eq]
    exact List.mem_cons.trans (or_iff_right (Nat.ne_of_lt old))
  have cell_lt {slot : ℕ} (cell : slot ∈ c.cells) : slot < c.localCount := by
    rcases before.binder cell with bound | bound <;>
      exact ready.binders ▸ (List.getElem?_eq_some_iff.mp bound).1
  refine ⟨fun here bound member => ?_, fun here member => ?_, fun {slot} member => ?_, ?_, ?_⟩
  · rw [sameBoxed] at member
    rcases names here with old | ⟨rfl, rfl⟩
    · rw [old_binder (ready.slots old)] at bound
      exact (old_cell (ready.slots old)).mpr (before.lets old bound member)
    · exact lets (Option.some.inj (new_binder.symm.trans bound)) member
  · rw [sameBoxed]
    rcases names here with old | ⟨rfl, rfl⟩
    · exact before.named old ((old_cell (ready.slots old)).mp member)
    · exact (fresh member).1
  · have inside : slot ∈ c.cells ∨ slot = c.localCount := by
      rcases cells with eq | eq <;> rw [eq] at member
      · exact .inl member
      · exact (List.mem_cons.mp member).symm
    rcases inside with old | rfl
    · rw [old_binder (cell_lt old)]
      exact before.binder old
    · rw [new_binder]
      exact (fresh member).2.imp (congrArg some) (congrArg some)
  · rw [sameAccesses]
    exact before.accesses
  · rw [sameScope]
    exact before.scope

/-- The next slot is empty. -/
theorem next_not_cell : c.localCount ∉ c.cells := fun cell => by
  rcases before.binder cell with bound | bound <;>
    exact Nat.lt_irrefl _ (ready.binders ▸ (List.getElem?_eq_some_iff.mp bound).1)

/-- A slot without a cell; a `let` gets one only for a name that is not boxed. -/
theorem declarePlain {name : String} {binder : Binder} (plain : binder = .let → name ∉ c.boxedLocals)
    (slots : c'.slots = c.slots ∨ c'.slots = Function.update c.slots name (some c.localCount))
    (same : c'.cells = c.cells ∧ c'.binders = c.binders ++ [binder] ∧ c'.accesses = c.accesses ∧ c'.scope = c.scope ∧ c'.boxedLocals = c.boxedLocals) :
    c'.Boxes := by
  refine before.declare ready slots (.inl same.1) (fun cell => ?_) (fun bound boxed => absurd boxed (plain bound)) same.2
  exact absurd (same.1 ▸ cell) (before.next_not_cell ready)

/-- An access to a name in scope. -/
theorem access {name : String} {slot : ℕ} (here : c.slots name = some slot) : (c.access name slot).Boxes := by
  refine ⟨before.lets, before.named, before.binder, fun a member => ?_, before.scope⟩
  rcases List.mem_append.mp member with old | new
  · exact before.accesses a old
  · obtain rfl := List.mem_singleton.mp new
    refine ⟨fun none => ?_, fun cell => ?_, fun bound boxed => ?_, fun cell => ?_⟩
    · exact Nat.lt_irrefl _ (Nat.lt_of_lt_of_le (ready.slots here) (ready.binders ▸ List.getElem?_eq_none_iff.mp none))
    · exact decide_eq_true (before.named here (of_decide_eq_true cell))
    · exact decide_eq_true (before.lets here bound (of_decide_eq_true boxed))
    · exact before.binder (of_decide_eq_true cell)

end

/-- A lambda is lifted with what its captures hold. -/
theorem lift (before : c.Boxes) {span : Span} {params : List LambdaParam} {body : Expr} {captured : List String}
    {info : LambdaInfo} {file : Option String} (boxed : info.boxed = captured.filter (· ∈ c.boxedLocals))
    (cells : info.captures = captured.map fun name => (name, (c.slots name).any (· ∈ c.cells))) :
    (c.scope.addLambda (liftLambda span params body captured) info file).Lifted := by
  refine ⟨fun {index other unit} found there i capture at_i => ?_, fun {index other} found => ?_⟩
  · rw [ModuleScope.addLambda, Table.get_set] at found
    split at found
    next eq =>
      subst eq
      obtain rfl := Option.some.inj found
      obtain rfl : _ = unit := Option.some.inj (List.getElem?_concat_length.symm.trans there)
      rw [cells] at at_i
      obtain ⟨name, named, rfl⟩ := Option.map_eq_some_iff.mp (List.getElem?_map ▸ at_i)
      obtain ⟨inside, rfl⟩ := List.getElem?_eq_some_iff.mp named
      refine ⟨?_, fun cell => ?_⟩
      · change Option.map Param.name (List.map _ captured ++ _)[i]? = _
        rw [List.getElem?_append_left (by rwa [List.length_map]), List.getElem?_map, named]
        rfl
      · obtain ⟨slot, here, cell⟩ := (Option.any_eq_true _ _).mp cell
        rw [boxed]
        exact List.mem_filter.mpr ⟨List.getElem_mem _, decide_eq_true (before.named here (of_decide_eq_true cell))⟩
    next ne =>
      -- an earlier lambda is an earlier unit
      have earlier := before.scope.known found
      exact before.scope.captures found ((List.getElem?_append_left earlier).symm.trans there) i capture at_i
  · rw [ModuleScope.addLambda, Table.get_set] at found
    simp only [ModuleScope.addLambda, ModuleScope.addUnit, List.length_append, List.length_singleton]
    split at found
    next eq => exact eq ▸ Nat.lt_succ_self _
    next => exact Nat.lt_succ_of_lt (before.scope.known found)

end FnCompiler.Boxes

/-! ## Emissions -/

theorem Emits.boxes {p q : Point} (emits : Emits H p q) (ready : p.c.Ready H library) (boxes : p.c.Boxes) : q.c.Boxes := by
  induction emits with
  | refl => exact boxes
  | trans first _ ih ih' => exact ih' (first.ready ready) (ih ready boxes)
  | instr _ _ ih | «return» _ ih | jump _ _ _ ih | branch _ _ _ _ ih | leave _ _ _ _ _ ih | label _ _ ih | bind _ _ _ ih
  | error _ ih | recount _ _ ih | types _ ih | startConst _ ih | finishConst _ ih =>
    have before := ih ready boxes
    exact ⟨before.lets, before.named, before.binder, before.accesses, before.scope⟩
  | temporary first ih =>
    exact (ih ready boxes).declarePlain (first.ready ready) (nofun : Binder.temporary = .let → "" ∉ _) (.inl rfl)
      ⟨rfl, rfl, rfl, rfl, rfl⟩
  | loopVar first ih =>
    exact (ih ready boxes).declarePlain (first.ready ready) (fun eq => by cases eq) (.inr rfl) ⟨rfl, rfl, rfl, rfl, rfl⟩
  | letVar first plain ih =>
    exact (ih ready boxes).declarePlain (first.ready ready) (fun _ => plain) (.inr rfl) ⟨rfl, rfl, rfl, rfl, rfl⟩
  | cellVar first boxed ih =>
    exact (ih ready boxes).declare (first.ready ready) (.inr rfl) (.inr rfl)
      (fun _ => ⟨boxed, .inl rfl⟩) (fun _ _ => List.mem_cons_self) ⟨rfl, rfl, rfl, rfl⟩
  | patternVar first temporary ih =>
    have before := ih ready boxes
    refine ⟨fun here bound boxed => ?_, fun here cell => ?_, before.binder, before.accesses, before.scope⟩
    · rcases FnCompiler.Ready.slots_update here with old | ⟨_, rfl⟩
      · exact before.lets old bound boxed
      · cases temporary.symm.trans bound
    · rcases FnCompiler.Ready.slots_update here with old | ⟨_, rfl⟩
      · exact before.named old cell
      · rcases before.binder cell with bound | bound <;> cases temporary.symm.trans bound
  | cellType _ ih =>
    have before := ih ready boxes
    refine ⟨before.lets, before.named, before.binder, before.accesses, ?_⟩
    exact before.scope.cellTypeIndex
  | lift _ _ boxed cells ih =>
    have before := ih ready boxes
    exact ⟨before.lets, before.named, before.binder, before.accesses, before.lift boxed cells⟩
  | access first here ih => exact (ih ready boxes).access (first.ready ready) here
  | scope first inner ih ih' =>
    have before := ih ready boxes
    have after := ih' (first.ready ready) before
    exact before.restore (first.ready ready) after (fun _ => inner.cells) (fun _ => inner.binders_eq (first.ready ready))
      inner.frame.boxedLocals rfl ⟨rfl, rfl, rfl, rfl, rfl⟩
  | file first inner ih ih' =>
    have before := ih ready boxes
    have entered := (first.ready ready).enterFile ‹_› ‹_›
    have after := ih' entered ⟨nofun, nofun, before.binder, before.accesses, before.scope⟩
    exact before.restore (first.ready ready) after (fun _ => inner.cells) (fun _ => inner.binders_eq entered)
      inner.frame.boxedLocals rfl ⟨rfl, rfl, rfl, rfl, rfl⟩
  | loop first known inner ih ih' =>
    have before := ih ready boxes
    have after := ih' ((first.ready ready).pushLoop known)
      ⟨before.lets, before.named, before.binder, before.accesses, before.scope⟩
    exact ⟨after.lets, after.named, after.binder, after.accesses, after.scope⟩

/-! ## Units -/

/-- A parameter holds a cell only if it is a capture of one. -/
theorem FnCompiler.Boxes.declareParam {c : FnCompiler} (before : c.Boxes) (ready : c.Ready H library) {ctx : InferCtx}
    {file : Option String} {lambda : Option LambdaInfo} {p : Param} {captured : Option Bool}
    (boxed : captured = some true → p.name ∈ c.boxedLocals) : (declareParam library ctx file lambda p captured c).Boxes := by
  unfold Thera.Compiler.declareParam
  dsimp only
  split
  next cell =>
    subst cell
    exact before.declare ready (.inr rfl) (.inr rfl) (fun _ => ⟨boxed rfl, .inr rfl⟩) nofun ⟨rfl, rfl, rfl, rfl⟩
  next =>
    refine before.declarePlain ready (fun bound => ?_) (.inr rfl) ⟨rfl, rfl, rfl, rfl, rfl⟩
    split at bound <;> cases bound

theorem enterUnit_boxes {scope : ModuleScope} (ready : scope.Ready H library) (lifted : scope.Lifted)
    (errors : List Diagnostic) {index : ℕ} {unit : CodeUnit} (there : scope.units[index]? = some unit) :
    (enterUnit library (newFnCompiler scope errors) unit (scope.lambdas.get index)).Boxes := by
  refine (enterUnit_induction
    (I := fun c => c.Boxes ∧ c.Ready H library ∧ c.boxedLocals = unitBoxed unit (scope.lambdas.get index)) ?_ ?_).1
  · refine ⟨⟨nofun, nofun, nofun, fun _ => nofun, lifted⟩, ⟨fun here => ?_, rfl, fun _ => nofun, ready⟩, rfl⟩
    cases here
  rintro p i c param ⟨boxes, ready, boxed⟩
  refine ⟨boxes.declareParam ready fun captured => ?_, ready.declareParam _ _ _ _ _, ?_⟩
  · obtain ⟨capture, at_i, cell⟩ := Option.map_eq_some_iff.mp captured
    cases found : scope.lambdas.get index with
    | none => simp [found] at at_i
    | some info =>
      rw [found] at at_i
      obtain ⟨named, inBoxed⟩ := lifted.captures found there i capture at_i
      have same : p.name = capture.1 := Option.some.inj (by rw [← named, param]; rfl)
      rw [boxed, found, same]
      exact List.mem_append_left _ (inBoxed cell)
  · rw [← boxed]
    unfold Thera.Compiler.declareParam
    dsimp only
    split <;> rfl

theorem Built.boxes {scope : ModuleScope} {errors : List Diagnostic} {p : Point} (built : Built H library scope errors p)
    (ready : scope.Ready H library) (lifted : scope.Lifted) : p.c.Boxes := by
  induction built with
  | unit there => exact enterUnit_boxes ready lifted errors there
  | thunk => exact ⟨nofun, nofun, nofun, fun _ => nofun, lifted⟩
  | emits first more ih => exact more.boxes (first.ready ready) ih
  | reset _ _ ih => exact ⟨nofun, nofun, ih.binder, ih.accesses, ih.scope⟩

theorem Finished.boxes {scope : ModuleScope} {errors : List Diagnostic} {c : FnCompiler}
    (finished : Finished H library scope errors c) (ready : scope.Ready H library) (lifted : scope.Lifted) : c.Boxes := by
  obtain ⟨p, built, rfl⟩ := finished
  have boxes := built.boxes ready lifted
  rw [p.c.resolveJumps_resolved.rest]
  exact ⟨boxes.lets, boxes.named, boxes.binder, boxes.accesses, boxes.scope⟩

theorem Reached.lifted {start scope : ModuleScope} (reached : Reached H library start scope) (ready : start.Ready H library)
    (lifted : start.Lifted) : scope.Lifted := by
  induction reached with
  | start => exact lifted
  | next before finished ih => exact (finished.boxes (before.ready ready) ih).scope

end Thera.Compiler
