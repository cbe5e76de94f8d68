import Thera.Proofs.Compiler.CallEmission
import Thera.Proofs.Compiler.Registration

/-! # Units and programs are built by the emitter's steps

Every finished compiler of a program comes from the start of a unit, or of the init thunk, by the
emitter's steps; what holds at the start and is kept by every step holds of all emitted code.
-/

namespace Thera.Compiler

open PartialState

/-- The points a compiler passes that starts over `scope` with the errors so far. -/
inductive Built (H : Hereditary) (library : Library) (scope : ModuleScope) (errors : List Diagnostic) : Point → Prop
  | unit {index : ℕ} {unit : CodeUnit} (there : scope.units[index]? = some unit) :
      Built H library scope errors
        ⟨enterUnit library (newFnCompiler scope errors) unit (scope.lambdas.get index), 0, fun _ => 0⟩
  | thunk : Built H library scope errors ⟨newFnCompiler scope errors, 0, fun _ => 0⟩
  | emits {p q : Point} (first : Built H library scope errors p) (more : Emits H p q) : Built H library scope errors q
  /-- Between two globals the thunk forgets the first one's file. -/
  | reset {t : FnCompiler} {d : ℕ} {Λ : ℕ → ℕ} (first : Built H library scope errors ⟨t, d, Λ⟩) (file : Option String) :
      Built H library scope errors ⟨{ t with
        file := file
        ctx := { t.ctx with currentFile := file }
        slots := fun _ => none
        typeScope := fun _ => none }, d, Λ⟩

/-! ## The start of a unit -/

section

variable {H : Hereditary} {library : Library}

/-- What no parameter changes. -/
structure Entered (start c : FnCompiler) : Prop where
  code : c.code = start.code
  labels : c.labels = start.labels
  fixups : c.fixups = start.fixups
  loops : c.loops = start.loops
  errors : c.errors = start.errors
  accesses : c.accesses = start.accesses
  scope : c.scope = start.scope

theorem declareParam_entered (library : Library) (ctx : InferCtx) (file : Option String) (lambda : Option LambdaInfo) (p : Param)
    (captured : Option Bool) (c : FnCompiler) : Entered c (declareParam library ctx file lambda p captured c) := by
  unfold declareParam
  dsimp only
  split <;> exact ⟨rfl, rfl, rfl, rfl, rfl, rfl, rfl⟩

variable {c s : FnCompiler} {scope start : ModuleScope} {errors : List Diagnostic} {Λ : ℕ → ℕ} {w : Walker}
  {fuel : ℕ}

theorem FnCompiler.Ready.declareParam (ready : c.Ready H library) (ctx : InferCtx) (file : Option String)
    (lambda : Option LambdaInfo) (p : Param) (captured : Option Bool) :
    (declareParam library ctx file lambda p captured c).Ready H library := by
  unfold Thera.Compiler.declareParam
  dsimp only
  split <;> exact ready.declare (fun here => (FnCompiler.Ready.slots_update here).imp_right And.right) rfl rfl rfl rfl rfl

/-- Declaring parameters one after the other keeps what declaring one keeps. -/
theorem enterUnit_induction {I : FnCompiler → Prop} {c : FnCompiler} {unit : CodeUnit} {lambda : Option LambdaInfo}
    (start : I { c with
      file := unit.file
      typeParamBounds := unitBounds library unit lambda
      ctx := unitCtx library unit lambda
      returnsResult := isResultType library (unitCtx library unit lambda).returnType
      resultVoid := isResultType library (unitCtx library unit lambda).returnType &&
        voidPayload (unitCtx library unit lambda).returnType
      boxedLocals := unitBoxed unit lambda })
    (round : ∀ (p : Param) (i : ℕ) (c : FnCompiler), unit.decl.params[i]? = some p → I c →
      I (declareParam library (unitCtx library unit lambda) unit.file lambda p
        (((lambda.map LambdaInfo.captures).getD [])[i]?.map Prod.snd) c)) :
    I (enterUnit library c unit lambda) := by
  unfold enterUnit
  dsimp only
  have rounds : ∀ x ∈ unit.decl.params.zipIdx, ∀ c, I c →
      I (declareParam library (unitCtx library unit lambda) unit.file lambda x.1
        (((lambda.map LambdaInfo.captures).getD [])[x.2]?.map Prod.snd) c) :=
    fun x member c => round x.1 x.2 c (List.mk_mem_zipIdx_iff_getElem?.mp member)
  revert start rounds
  generalize FnCompiler.mk .. = c'
  generalize unit.decl.params.zipIdx = params
  intro start rounds
  induction params generalizing c' with
  | nil => exact start
  | cons p rest ih =>
    exact ih _ (rounds p List.mem_cons_self c' start) fun x member => rounds x (List.mem_cons_of_mem _ member)

theorem enterUnit_entered (library : Library) (c : FnCompiler) (unit : CodeUnit) (lambda : Option LambdaInfo) :
    Entered c (enterUnit library c unit lambda) := by
  refine enterUnit_induction (I := Entered c) ⟨rfl, rfl, rfl, rfl, rfl, rfl, rfl⟩ fun p i c' _ entered => ?_
  have one := declareParam_entered library (unitCtx library unit lambda) unit.file lambda p
    (((lambda.map LambdaInfo.captures).getD [])[i]?.map Prod.snd) c'
  exact ⟨one.code.trans entered.code, one.labels.trans entered.labels, one.fixups.trans entered.fixups,
    one.loops.trans entered.loops, one.errors.trans entered.errors, one.accesses.trans entered.accesses,
    one.scope.trans entered.scope⟩

theorem enterUnit_ready {scope : ModuleScope} (ready : scope.Ready H library) (errors : List Diagnostic) (unit : CodeUnit)
    (lambda : Option LambdaInfo) : (enterUnit library (newFnCompiler scope errors) unit lambda).Ready H library :=
  enterUnit_induction (I := FnCompiler.Ready H library) ⟨fun here => (by cases here), rfl, fun _ => nofun, ready⟩
    fun p _ _ _ ready => ready.declareParam _ _ _ p _

theorem Built.ready {p : Point} (built : Built H library scope errors p) (ready : scope.Ready H library) :
    p.c.Ready H library := by
  induction built with
  | unit there => exact enterUnit_ready ready errors _ _
  | thunk => exact ⟨fun here => (by cases here), rfl, fun _ => nofun, ready⟩
  | emits _ more ih => exact more.ready ih
  | reset _ _ ih => exact ⟨fun here => (by cases here), ih.binders, ih.loops, ih.scope⟩

/-- What only grows from the start on. -/
theorem Built.grows {p : Point} (built : Built H library scope errors p) :
    scope.Grows p.c.scope ∧ errors <+: p.c.errors ∧ p.c.loops = [] := by
  induction built with
  | unit there =>
    have entered := enterUnit_entered library (newFnCompiler scope errors) ‹_› (scope.lambdas.get ‹_›)
    exact ⟨entered.scope ▸ .refl _, entered.errors ▸ List.prefix_rfl, entered.loops⟩
  | thunk => exact ⟨.refl _, List.prefix_rfl, rfl⟩
  | emits _ more ih =>
    exact ⟨ih.1.trans more.frame.scope, ih.2.1.trans more.frame.errors, more.frame.loops.trans ih.2.2⟩
  | reset _ _ ih => exact ih

/-! ## Units -/

theorem emitEpilogue_leads {d : ℕ} : Ensures emitEpilogue s fun _ t => ∃ d', Leads H ⟨s, d, Λ⟩ d' t := by
  simp only [emitEpilogue, ensures_bind, ensures_get]
  refine (ensures_ite ..).mpr ⟨fun _ => ?_, fun _ => ?_⟩
  · simp only [ensures_bind, ensures_emit]
    refine (ensures_ite ..).mpr ⟨fun _ => ?_, fun _ => ?_⟩
    · simp only [ensures_bind, ensures_emit]
      exact ⟨d, (Emits.refl.unit.take (n := 1) (.result (by decide)) rfl rfl).return.leads⟩
    · simp only [ensures_emit]
      exact ⟨d, Emits.refl.unit.return.leads⟩
  · exact (ensures_pure ..).mpr ⟨d, Emits.refl.leads⟩

theorem unitBody_leads (sound : w.Sound H library) {body : Option Block} (ready : s.Ready H library)
    (outside : s.loops = []) (h : ∀ b, body = some b → H.block b) : Ensures (do
      match body with
      | some body => w.block body
      | none => pure ()
      emitEpilogue) s fun _ t => ∃ d, Leads H ⟨s, 0, Λ⟩ d t := by
  cases body with
  | none => exact emitEpilogue_leads
  | some b =>
    rw [ensures_bind]
    -- Outside a loop there is no label a `break` could miss.
    have clear : ClearBlock H ⟨s, 0, Λ⟩ b := fun _ => .inl fun loop innermost => by simp [outside] at innermost
    refine (sound.block ready (h b rfl) clear).mono fun _ t emitted => ?_
    obtain ⟨_, first⟩ := emitted
    exact emitEpilogue_leads.mono fun _ _ ⟨d, last⟩ => ⟨d, Leads.trans first last⟩

/-- A finished compiler that was built over `scope`. -/
def Finished (H : Hereditary) (library : Library) (scope : ModuleScope) (errors : List Diagnostic) (c : FnCompiler) : Prop :=
  ∃ p, Built H library scope errors p ∧ c = p.c.resolveJumps

theorem compileUnit_finished (sound : w.Sound H library) (ready : scope.Ready H library) {index : ℕ}
    (run : compileUnit library w scope errors index = some c) : Finished H library scope errors c := by
  obtain ⟨unit, there, run⟩ := Option.bind_eq_some_iff.mp run
  obtain ⟨⟨⟨⟩, t⟩, run, done⟩ := Option.bind_eq_some_iff.mp run
  have start : Built H library scope errors _ := .unit there
  have body := ready.bodies unit (List.mem_of_getElem? there)
  obtain ⟨d, Λ, more⟩ := unitBody_leads sound (Λ := fun _ => 0) (start.ready ready) start.grows.2.2 body () t run
  exact ⟨_, start.emits more, (Option.some.inj done).symm⟩

/-! ## The init thunk -/

theorem visitGlobalInit_mem {byKey : Table String GlobalInit} {inits : List GlobalInit}
    (keyed : ∀ {key : String} {g : GlobalInit}, byKey.get key = some g → g ∈ inits) {g : GlobalInit}
    (member : g ∈ inits) {order final : InitOrder} (ordered : order.ordered ⊆ inits)
    (run : visitGlobalInit library scope byKey fuel g order = some final) :
    final.ordered ⊆ inits ∧ order.errors <+: final.errors := by
  induction fuel generalizing g order final with
  | zero => cases run
  | succ fuel ih =>
    rw [visitGlobalInit] at run
    dsimp only at run
    split at run
    · cases run
      exact ⟨ordered, List.prefix_append _ _⟩
    split at run
    · cases run
      exact ⟨ordered, List.prefix_rfl⟩
    obtain ⟨visited, deps, done⟩ := Option.bind_eq_some_iff.mp run
    obtain rfl := Option.some.inj done
    have kept : visited.ordered ⊆ inits ∧ order.errors <+: visited.errors := by
      refine foldlM_keeps (I := fun o => o.ordered ⊆ inits ∧ order.errors <+: o.errors) ⟨ordered, List.prefix_rfl⟩ ?_ deps
      intro dep _ before after kept visit
      split at visit
      · obtain ⟨inside, more⟩ := ih (keyed ‹_›) kept.1 visit
        exact ⟨inside, kept.2.trans more⟩
      · exact Option.some.inj visit ▸ kept
    exact ⟨List.append_subset.mpr ⟨kept.1, List.cons_subset.mpr ⟨member, List.nil_subset _⟩⟩, kept.2⟩

theorem orderGlobalInits_mem {errors' : List Diagnostic} {inits : List GlobalInit}
    (run : orderGlobalInits library scope errors fuel = some (inits, errors')) :
    inits ⊆ scope.globalInits ∧ errors <+: errors' := by
  obtain ⟨order, folded, done⟩ := Option.bind_eq_some_iff.mp run
  obtain ⟨rfl, rfl⟩ := Prod.mk.inj (Option.some.inj done)
  have keyed {key : String} {g : GlobalInit}
      (found : Table.get (scope.globalInits.foldl (fun table g => Table.set table (globalKey g) g) []) key = some g) :
      g ∈ scope.globalInits := by
    suffices step : ∀ (gs : List GlobalInit) (table : Table String GlobalInit), gs ⊆ scope.globalInits →
        (∀ g, table.get key = some g → g ∈ scope.globalInits) →
        Table.get (gs.foldl (fun table g => Table.set table (globalKey g) g) table) key = some g → g ∈ scope.globalInits from
      step _ [] (List.Subset.refl _) (fun _ => nofun) found
    intro gs
    induction gs with
    | nil => exact fun table _ old found => old g found
    | cons head rest ih =>
      intro table subset old found
      refine ih _ (List.cons_subset.mp subset).2 (fun g there => ?_) found
      rcases Table.get_set_cases there with rfl | earlier
      · exact (List.cons_subset.mp subset).1
      · exact old g earlier
  refine foldlM_keeps (I := fun o => o.ordered ⊆ scope.globalInits ∧ errors <+: o.errors)
    ⟨List.nil_subset _, List.prefix_rfl⟩ (fun g member before after kept visit => ?_) folded
  obtain ⟨inside, more⟩ := visitGlobalInit_mem keyed member kept.1 visit
  exact ⟨inside, kept.2.trans more⟩

theorem rejectEffectfulNatives_leads {d start : ℕ} {span : Span} :
    Ensures (rejectEffectfulNatives start span) s fun _ t => Emits H ⟨s, d, Λ⟩ ⟨t, d, Λ⟩ := by
  simp only [rejectEffectfulNatives, ensures_bind, ensures_get]
  refine ensures_forM (I := fun t => Emits H ⟨s, d, Λ⟩ ⟨t, d, Λ⟩) _ _ (fun instr _ t reached => ?_) s .refl
  split
  · exact (ensures_ite ..).mpr ⟨fun _ => ensures_error.mpr reached.error, fun _ => (ensures_pure ..).mpr reached⟩
  · exact (ensures_pure ..).mpr reached

/-- A point of the thunk between two globals. -/
def ThunkPoint (H : Hereditary) (library : Library) (scope : ModuleScope) (errors : List Diagnostic) (t : FnCompiler) : Prop :=
  ∃ Λ, Built H library scope errors ⟨t, 0, Λ⟩

theorem compileGlobalInit_built (sound : w.Sound H library) (ready : scope.Ready H library) {init : GlobalInit}
    (member : init ∈ scope.globalInits) (h : H.const init.value) (at_s : ThunkPoint H library scope errors s) :
    Ensures (compileGlobalInit library w init) s fun _ => ThunkPoint H library scope errors := by
  obtain ⟨Λ, built⟩ := at_s
  simp only [compileGlobalInit, ensures_bind, ensures_modify, ensures_get, ensures_emit]
  have start := built.reset init.file
  refine (sound.const (d := 0) (Λ := Λ) (start.ready ready) h).mono fun _ t emitted => ?_
  obtain ⟨K, reached⟩ := emitted
  refine (rejectEffectfulNatives_leads (H := H) (d := 1) (Λ := K)).mono fun _ u checked => ?_
  have reached := reached.trans checked
  have here : init ∈ u.scope.globalInits := by
    have tables : u.scope = _ := (start.emits reached).grows.1.tables
    rw [tables]
    exact member
  exact ⟨K, start.emits (reached.instr (d := 0) (.globalSet here))⟩

theorem compileInitThunk_finished (sound : w.Sound H library) (ready : scope.Ready H library)
    (inits : ∀ init ∈ scope.globalInits, H.const init.value)
    (run : compileInitThunk library w fuel scope errors = some c) :
    ∃ errors', errors <+: errors' ∧ Finished H library scope errors' c := by
  obtain ⟨⟨ordered, errors'⟩, order, run⟩ := Option.bind_eq_some_iff.mp run
  obtain ⟨subset, more⟩ := orderGlobalInits_mem order
  obtain ⟨⟨⟨⟩, t⟩, run, done⟩ := Option.bind_eq_some_iff.mp run
  refine ⟨errors', more, ?_⟩
  have thunk : Ensures (do
      ordered.forM (compileGlobalInit library w)
      emit (.simple .constUnit)
      emit (.simple .return)) (newFnCompiler scope errors') fun _ t => ∃ p, Built H library scope errors' p ∧ p.c = t := by
    simp only [ensures_bind, ensures_emit]
    refine (ensures_forM (I := ThunkPoint H library scope errors') _ _ (fun init member s at_s => ?_) _ ⟨_, .thunk⟩).mono
      fun _ u reached => ?_
    · exact compileGlobalInit_built sound ready (subset member) (inits init (subset member)) at_s
    · obtain ⟨Λ, built⟩ := reached
      exact ⟨_, built.emits (Emits.refl.unit.return (e := 0)), rfl⟩
  obtain ⟨p, built, rfl⟩ := thunk () t run
  exact ⟨p, built, (Option.some.inj done).symm⟩

/-! ## Programs -/

/-- What backpatching leaves alone: everything but the code and the errors it reports. -/
structure Resolved (c c' : FnCompiler) : Prop where
  rest : c' = { c with code := c'.code, errors := c'.errors }
  errors : c.errors <+: c'.errors

theorem Resolved.refl (c : FnCompiler) : Resolved c c := ⟨rfl, List.prefix_rfl⟩

theorem Resolved.trans {a b : FnCompiler} (first : Resolved a b) (second : Resolved b c) : Resolved a c :=
  ⟨by rw [second.rest, first.rest], first.errors.trans second.errors⟩

/-- One round of backpatching. -/
def FnCompiler.patch (c : FnCompiler) (fixup : Fixup) : FnCompiler :=
  match c.target fixup.label with
  | some target => { c with code := c.code.set fixup.pos (Jk.instr fixup.kind target) }
  | none =>
      let c := c.error s!"internal: unbound jump label {fixup.label}" noSpan
      { c with code := c.code.set fixup.pos (Jk.instr fixup.kind 0) }

theorem FnCompiler.patch_resolved (c : FnCompiler) (fixup : Fixup) : Resolved c (c.patch fixup) := by
  unfold FnCompiler.patch
  split
  · exact ⟨rfl, List.prefix_rfl⟩
  · exact ⟨rfl, List.prefix_append _ _⟩

theorem FnCompiler.patches_resolved (c : FnCompiler) (fixups : List Fixup) : Resolved c (fixups.foldl patch c) := by
  induction fixups generalizing c with
  | nil => exact .refl c
  | cons fixup rest ih => exact (c.patch_resolved fixup).trans (ih _)

theorem FnCompiler.resolveJumps_resolved (c : FnCompiler) : Resolved c c.resolveJumps := c.patches_resolved c.fixups

theorem Finished.grows (finished : Finished H library scope errors c) : scope.Grows c.scope ∧ errors <+: c.errors := by
  obtain ⟨p, built, rfl⟩ := finished
  have resolved := p.c.resolveJumps_resolved
  have same : p.c.resolveJumps.scope = p.c.scope := by rw [resolved.rest]
  exact ⟨same ▸ built.grows.1, built.grows.2.1.trans resolved.errors⟩

theorem Finished.ready (finished : Finished H library scope errors c) (ready : scope.Ready H library) :
    c.scope.Ready H library := by
  obtain ⟨p, built, rfl⟩ := finished
  have same : p.c.resolveJumps.scope = p.c.scope := by rw [p.c.resolveJumps_resolved.rest]
  exact same ▸ (built.ready ready).scope

/-- The scopes finished compilers leave, one after the other. -/
inductive Reached (H : Hereditary) (library : Library) (start : ModuleScope) : ModuleScope → Prop
  | start : Reached H library start start
  | next {scope : ModuleScope} {errors : List Diagnostic} {c : FnCompiler} (before : Reached H library start scope)
      (finished : Finished H library scope errors c) : Reached H library start c.scope

theorem Reached.ready (reached : Reached H library start scope) (ready : start.Ready H library) :
    scope.Ready H library := by
  induction reached with
  | start => exact ready
  | next _ finished ih => exact finished.ready ih

theorem Reached.grows (reached : Reached H library start scope) : start.Grows scope := by
  induction reached with
  | start => exact .refl _
  | next _ finished ih => exact ih.trans finished.grows.1

/-- Every finished compiler of a program in progress was built over a scope on the way to the present one. -/
structure Progress.Sound (H : Hereditary) (library : Library) (start : ModuleScope) (p : Progress) : Prop where
  reached : Reached H library start p.scope
  compiled : ∀ entry ∈ p.compiled, ∃ scope errors, Reached H library start scope ∧
    Finished H library scope errors entry.2 ∧ entry.2.scope.Grows p.scope ∧ entry.2.errors <+: p.errors

/-- One more finished compiler, over the present scope. -/
theorem Progress.Sound.add {p : Progress} (sound : p.Sound H library start) (more : p.errors <+: errors)
    (finished : Finished H library p.scope errors c) (compiled : List (String × FnCompiler))
    (entries : ∀ entry ∈ compiled, entry ∈ p.compiled ∨ entry.2 = c) :
    Progress.Sound H library start ⟨c.scope, c.errors, compiled⟩ := by
  refine ⟨sound.reached.next finished, fun entry member => ?_⟩
  rcases entries entry member with old | rfl
  · obtain ⟨scope, errors', reached, earlier, after, kept⟩ := sound.compiled entry old
    exact ⟨scope, errors', reached, earlier, after.trans finished.grows.1, (kept.trans more).trans finished.grows.2⟩
  · exact ⟨p.scope, errors, sound.reached, finished, .refl _, List.prefix_rfl⟩

theorem compileUnits_sound (sound : w.Sound H library) (ready : start.Ready H library) {p final : Progress}
    (before : p.Sound H library start) (run : compileUnits library w fuel p = some final) :
    final.Sound H library start ∧ p.scope.Grows final.scope ∧ p.errors <+: final.errors := by
  induction fuel generalizing p with
  | zero =>
    rw [compileUnits] at run
    split at run
    · exact Option.some.inj run ▸ ⟨before, .refl _, List.prefix_rfl⟩
    · cases run
  | succ fuel ih =>
    rw [compileUnits] at run
    split at run
    next => exact Option.some.inj run ▸ ⟨before, .refl _, List.prefix_rfl⟩
    next unit _ =>
      obtain ⟨c, compiled, others⟩ := Option.bind_eq_some_iff.mp run
      have finished := compileUnit_finished sound (before.reached.ready ready) compiled
      have added := before.add List.prefix_rfl finished (p.compiled ++ [(unit.name, c)]) fun entry member =>
        (List.mem_append.mp member).imp_right fun new => congrArg Prod.snd (List.mem_singleton.mp new)
      obtain ⟨after, grown, more⟩ := ih added others
      exact ⟨after, finished.grows.1.trans grown, finished.grows.2.trans more⟩

theorem compileAll_sound (ready : scope.Ready H library) (inits : ∀ init ∈ scope.globalInits, H.const init.value)
    {final : Progress} (run : compileAll library fuel scope = some final) : final.Sound H library scope := by
  have sound := walker_sound H library fuel
  obtain ⟨p, units, run⟩ := Option.bind_eq_some_iff.mp run
  obtain ⟨before, grown, -⟩ := compileUnits_sound sound ready (p := ⟨scope, [], []⟩) ⟨.start, fun _ => nofun⟩ units
  split at run
  · exact Option.some.inj run ▸ before
  · obtain ⟨thunk, init, run⟩ := Option.bind_eq_some_iff.mp run
    obtain ⟨q, lambdas, done⟩ := Option.bind_eq_some_iff.mp run
    obtain rfl := Option.some.inj done
    have inits' : ∀ init ∈ p.scope.globalInits, H.const init.value := by
      have tables : p.scope = _ := grown.tables
      rw [tables]
      exact inits
    obtain ⟨errors, more, finished⟩ := compileInitThunk_finished sound (before.reached.ready ready) inits' init
    have middle := before.add more finished p.compiled fun _ => .inl
    obtain ⟨after, grown', more'⟩ := compileUnits_sound sound ready middle lambdas
    refine ⟨after.reached, fun entry member => ?_⟩
    rcases List.mem_append.mp member with old | new
    · exact after.compiled entry old
    · obtain rfl := List.mem_singleton.mp new
      exact ⟨p.scope, errors, before.reached, finished, grown', more'⟩

end

/-! ## Programs of one function -/

/-- A library in which a name has a type parameter for its type, and all else but a truth value is an `Int`. -/
def plainLibrary : Library where
  typeDef _ := none
  coreOwner _ := "core"
  fileBareSurface _ _ := none
  resolveTypeOwner _ _ _ := ""
  isNamespace _ _ := false
  memberOwner _ _ _ := none
  bindsValue _ _ := false
  constType _ _ := none
  resolveTypeRef _ _ _ _ := .primitive .int
  inferExpr e _ _ _ := match e with
    | .bool .. => .primitive .bool
    | .ident .. => .typeParameter "T"
    | _ => .primitive .int
  inferCalleeKind _ _ _ _ _ := .unresolved
  expectedArgTypes _ _ _ _ _ := none
  expectedParamTypes _ _ _ _ _ := none
  returnValueExpected _ _ _ := none
  throwValueExpected _ := none
  forElementType _ _ _ := .unknown
  refineBindingType _ ty _ _ _ _ := ty

/-- A program of one function. -/
def oneFunction (params : List Param) (body : List Stmt) : Program :=
  ⟨none, [.fn ⟨noSpan, [], false, "f", [], params, none, some (.mk body none)⟩]⟩

end Thera.Compiler
