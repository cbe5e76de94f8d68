import Thera.Proofs.Compiler.Units

/-! # One stack depth for every instruction

Balanced code that compiles without errors has an assignment of depths to positions that every
instruction respects: it finds its operands there, and its successors stand where it leaves the stack.
-/

namespace Thera.Compiler

/-- An instruction at `pc` finds its operands and leaves the stack as its successors expect it. -/
structure Fits (types : List TypeDef) (depths : ℕ → ℕ) (pc : ℕ) (i : Instr) : Prop where
  operands : i.pops types ≤ depths pc
  leaves : ∀ next ∈ i.successors pc, depths next = depths pc - i.pops types + i.pushes

/-- Where every instruction fits, all paths arrive with the assigned depth. -/
theorem Reaches.depth_eq {types : List TypeDef} {code : List Instr} {depths : ℕ → ℕ} (entry : depths 0 = 0)
    (fits : ∀ pc i, code[pc]? = some i → Fits types depths pc i) {pc depth : ℕ} (reaches : Reaches types code pc depth) :
    depth = depths pc := by
  induction reaches with
  | entry => exact entry.symm
  | step _ here goes ih => rw [ih, (fits _ _ here).leaves _ goes]

/-! ## Before backpatching -/

/-- The depths of the code so far. A placeholder stands where its label wants the stack. -/
structure Depths (types : List TypeDef) (p : Point) (depths : ℕ → ℕ) : Prop where
  entry : depths 0 = 0
  here : depths p.c.code.length = p.depth
  instrs : ∀ pc i, p.c.code[pc]? = some i → (∀ f ∈ p.c.fixups, f.pos ≠ pc) →
    Fits types depths pc i ∧ i.successors pc ⊆ [pc + 1]
  fixups : ∀ f ∈ p.c.fixups, f.pos < p.c.code.length ∧ f.label < p.c.labels.length ∧
    (f.kind = .jump → depths f.pos = p.heights f.label) ∧
    (f.kind ≠ .jump → depths f.pos = p.heights f.label + 1 ∧ depths (f.pos + 1) = p.heights f.label)
  labels : ∀ l pos, p.c.labels[l]? = some (some pos) → pos ≤ p.c.code.length ∧ depths pos = p.heights l

/-- Some assignment of depths fits the code so far. -/
def Typed (types : List TypeDef) (p : Point) : Prop := ∃ depths, Depths types p depths

section

variable {H : Hereditary} {library : Library} {types : List TypeDef} {t u : FnCompiler} {d d' : ℕ} {Λ : ℕ → ℕ}

/-- Only the code, the labels and the placeholders matter. -/
theorem Typed.same (typed : Typed types ⟨t, d, Λ⟩) (code : u.code = t.code) (labels : u.labels = t.labels)
    (fixups : u.fixups = t.fixups) : Typed types ⟨u, d, Λ⟩ := by
  obtain ⟨depths, fit⟩ := typed
  refine ⟨depths, fit.entry, ?_, ?_, ?_, ?_⟩
  · simpa only [code] using fit.here
  · simpa only [code, fixups] using fit.instrs
  · simpa only [code, labels, fixups] using fit.fixups
  · simpa only [code, labels] using fit.labels

/-- The depths with one more position behind the code. -/
theorem update_le {depths : ℕ → ℕ} {n pc : ℕ} (le : pc ≤ n) : Function.update depths (n + 1) d' pc = depths pc :=
  Function.update_of_ne (by omega) _ _

/-- The code so far fits as before when a position behind it gets a depth. -/
theorem Depths.instr_before {depths : ℕ → ℕ} (fit : Depths types ⟨t, d, Λ⟩ depths) {pc : ℕ} {i : Instr}
    (there : t.code[pc]? = some i) (plain : ∀ f ∈ t.fixups, f.pos ≠ pc) :
    Fits types (Function.update depths (t.code.length + 1) d') pc i ∧ i.successors pc ⊆ [pc + 1] := by
  obtain ⟨fits, straight⟩ := fit.instrs pc i there plain
  have inside : pc < t.code.length := (List.getElem?_eq_some_iff.mp there).1
  refine ⟨⟨?_, fun next goes => ?_⟩, straight⟩
  · rw [update_le (Nat.le_of_lt inside)]
    exact fits.operands
  · obtain rfl := List.mem_singleton.mp (straight goes)
    rw [update_le inside, update_le (Nat.le_of_lt inside)]
    exact fits.leaves _ goes

theorem Depths.fixup_before {depths : ℕ → ℕ} (fit : Depths types ⟨t, d, Λ⟩ depths) {f : Fixup} (member : f ∈ t.fixups) :
    f.pos < t.code.length + 1 ∧ f.label < t.labels.length ∧
    (f.kind = .jump → Function.update depths (t.code.length + 1) d' f.pos = Λ f.label) ∧
    (f.kind ≠ .jump → Function.update depths (t.code.length + 1) d' f.pos = Λ f.label + 1 ∧
      Function.update depths (t.code.length + 1) d' (f.pos + 1) = Λ f.label) := by
  obtain ⟨inside, known, jump, branch⟩ := fit.fixups f member
  have inside : f.pos < t.code.length := inside
  rw [update_le (Nat.le_of_lt inside), update_le inside]
  exact ⟨Nat.lt_succ_of_lt inside, known, jump, branch⟩

theorem Depths.label_before {depths : ℕ → ℕ} (fit : Depths types ⟨t, d, Λ⟩ depths) {l pos : ℕ}
    (there : t.labels[l]? = some (some pos)) :
    pos ≤ t.code.length + 1 ∧ Function.update depths (t.code.length + 1) d' pos = Λ l := by
  obtain ⟨le, depth⟩ := fit.labels l pos there
  have le : pos ≤ t.code.length := le
  exact ⟨Nat.le_succ_of_le le, (update_le le).trans depth⟩

section

variable (typed : Typed types ⟨t, d, Λ⟩)

include typed

/-- An instruction that is no jump, behind which `d'` operands are on the stack. -/
theorem Typed.emit {i : Instr} (operands : i.pops types ≤ d) (straight : ∀ pc, i.successors pc ⊆ [pc + 1])
    (leaves : ∀ pc, pc + 1 ∈ i.successors pc → d' = d - i.pops types + i.pushes) :
    Typed types ⟨t.emit i, d', Λ⟩ := by
  obtain ⟨depths, fit⟩ := typed
  have count : (t.emit i).code.length = t.code.length + 1 := List.length_append
  refine ⟨Function.update depths (t.code.length + 1) d', ?_, ?_, fun pc j there plain => ?_, fun f member => ?_, fun l pos there => ?_⟩
  · exact (update_le (Nat.zero_le _)).trans fit.entry
  · rw [count, Function.update_self]
  · obtain before | ⟨rfl, rfl⟩ := List.getElem?_concat_iff.mp there
    · exact fit.instr_before before plain
    · have here : depths t.code.length = d := fit.here
      refine ⟨⟨?_, fun next goes => ?_⟩, straight _⟩
      · rwa [update_le (Nat.le_refl _), here]
      · obtain rfl := List.mem_singleton.mp (straight _ goes)
        rw [Function.update_self, update_le (Nat.le_refl _), here]
        exact leaves _ goes
  · exact count ▸ fit.fixup_before member
  · exact count ▸ fit.label_before there

/-- A placeholder, where its label wants the stack. -/
theorem Typed.emitJump {kind : Jk} {label : ℕ} (known : label < t.labels.length) (jump : kind = .jump → d = Λ label)
    (branch : kind ≠ .jump → d = Λ label + 1 ∧ d' = Λ label) : Typed types ⟨t.emitJump kind label, d', Λ⟩ := by
  obtain ⟨depths, fit⟩ := typed
  have count : (t.emitJump kind label).code.length = t.code.length + 1 := List.length_append
  refine ⟨Function.update depths (t.code.length + 1) d', ?_, ?_, fun pc j there plain => ?_, fun f member => ?_, fun l pos there => ?_⟩
  · exact (update_le (Nat.zero_le _)).trans fit.entry
  · rw [count, Function.update_self]
  · obtain before | ⟨rfl, rfl⟩ := List.getElem?_concat_iff.mp there
    · exact fit.instr_before before fun f member => plain f (List.mem_append_left _ member)
    · exact absurd rfl (plain ⟨t.code.length, label, kind⟩ (List.mem_append_right _ (List.mem_singleton_self _)))
  · rcases List.mem_append.mp member with old | new
    · exact count ▸ fit.fixup_before old
    · obtain rfl := List.mem_singleton.mp new
      have here : depths t.code.length = d := fit.here
      refine ⟨count ▸ Nat.lt_succ_self _, known, fun eq => ?_, fun ne => ?_⟩
      · exact (update_le (Nat.le_refl _)).trans (here.trans (jump eq))
      · exact ⟨(update_le (Nat.le_refl _)).trans (here.trans (branch ne).1), (Function.update_self ..).trans (branch ne).2⟩
  · exact count ▸ fit.label_before there

theorem Typed.newLabel (height : ℕ) :
    Typed types ⟨t.newLabel, d, Function.update Λ t.labels.length height⟩ := by
  obtain ⟨depths, fit⟩ := typed
  refine ⟨depths, fit.entry, fit.here, fit.instrs, fun f member => ?_, fun l pos there => ?_⟩
  · obtain ⟨inside, known, rest⟩ := fit.fixups f member
    have known : f.label < t.labels.length := known
    simp only [Function.update_of_ne (Nat.ne_of_lt known)]
    exact ⟨inside, by simpa using Nat.lt_succ_of_lt known, rest⟩
  · -- the new label is not bound
    obtain old | ⟨-, unbound⟩ := List.getElem?_concat_iff.mp there
    · simp only [Function.update_of_ne (Nat.ne_of_lt (List.getElem?_eq_some_iff.mp old).1)]
      exact fit.labels l pos old
    · cases unbound

theorem Typed.bind {label : ℕ} (height : Λ label = d) : Typed types ⟨t.bind label, d, Λ⟩ := by
  obtain ⟨depths, fit⟩ := typed
  refine ⟨depths, fit.entry, fit.here, fit.instrs, fun f member => ?_, fun l pos there => ?_⟩
  · obtain ⟨inside, known, rest⟩ := fit.fixups f member
    exact ⟨inside, by simpa using known, rest⟩
  · have there : (t.labels.set label (some t.code.length))[l]? = some (some pos) := there
    rw [List.getElem?_set] at there
    split at there
    · split at there
      · obtain rfl := Option.some.inj (Option.some.inj there)
        subst l
        exact ⟨Nat.le_refl _, fit.here.trans height.symm⟩
      · cases there
    · exact fit.labels l pos there

end

/-! ## The emitter's steps -/

/-- The operands of an instruction do not depend on layouts that come later. -/
theorem Site.pops_eq {i : Instr} (site : Site H t i) (ready : t.Ready H library) (within : t.scope.types <+: types) :
    i.pops types = i.pops t.scope.types := by
  have laid {index n : ℕ} (there : t.scope.types[index]?.map TypeDef.fieldCount = some n) :
      (types[index]?.map TypeDef.fieldCount).getD 0 = (t.scope.types[index]?.map TypeDef.fieldCount).getD 0 := by
    obtain ⟨layout, here, _⟩ := Option.map_eq_some_iff.mp there
    rw [within.getElem?_some here, here]
  cases site with
  | cell known => exact laid (ready.scope.cell known)
  | structNew found => exact laid (ready.scope.layouts found)
  | _ => rfl

theorem Site.straight {i : Instr} (site : Site H t i) (pc : ℕ) : i.successors pc ⊆ [pc + 1] := by
  cases site with
  | simple op => cases op <;> simp [Instr.successors]
  | _ => exact List.Subset.refl _

/-- Balanced code without errors keeps its depths. -/
theorem Emits.typed {p q : Point} (emits : Emits H p q) (balanced : H.balanced) (ready : p.c.Ready H library)
    (clean : q.c.errors = []) (within : q.c.scope.types <+: types) (typed : Typed types p) : Typed types q := by
  have before {p q : Point} (frame : Frame p.c q.c) (clean : q.c.errors = []) (within : q.c.scope.types <+: types) :
      p.c.errors = [] ∧ p.c.scope.types <+: types :=
    ⟨List.prefix_nil.mp (clean ▸ frame.errors), frame.scope.types.trans within⟩
  induction emits with
  | refl => exact typed
  | trans first second ih ih' =>
    obtain ⟨clean', within'⟩ := before second.frame clean within
    exact ih' (first.ready ready) clean within (ih ready clean' within' typed)
  | instr first site ih =>
    have same := site.pops_eq (first.ready ready) within
    refine (ih ready clean within typed).emit ?_ site.straight fun _ _ => ?_
    · omega
    · omega
  | «return» first ih =>
    refine (ih ready clean within typed).emit ?_ (fun _ => List.nil_subset _) fun _ => nofun
    exact Nat.le_add_left _ _
  | jump first known height ih =>
    exact (ih ready clean within typed).emitJump known (fun _ => height.symm) fun ne => absurd rfl ne
  | branch first conditional known height ih =>
    exact (ih ready clean within typed).emitJump known (fun eq => absurd eq conditional)
      fun _ => ⟨by rw [height], height.symm⟩
  | leave first innermost target known height ih =>
    exact (ih ready clean within typed).emitJump known (fun _ => (height balanced).symm) fun ne => absurd rfl ne
  | label height first ih => exact (ih ready clean within typed).newLabel height
  | bind first own height ih => exact (ih ready clean within typed).bind height
  | error first ih => simp [FnCompiler.error] at clean
  | recount first same ih => exact same balanced ▸ ih ready clean within typed
  | cellType first ih =>
    exact (ih ready clean ((ModuleScope.Grows.cellTypeIndex _).types.trans within) typed).same rfl rfl rfl
  | temporary _ ih | loopVar _ ih | letVar _ _ ih | cellVar _ _ ih | patternVar _ _ ih | types _ ih
  | lift _ _ _ _ ih | access _ _ ih | startConst _ ih | finishConst _ ih =>
    exact (ih ready clean within typed).same rfl rfl rfl
  | scope first inner ih ih' =>
    obtain ⟨clean', within'⟩ := before inner.frame clean within
    exact (ih' (first.ready ready) clean within (ih ready clean' within' typed)).same rfl rfl rfl
  | file first inner ih ih' =>
    obtain ⟨clean', within'⟩ := before inner.frame clean within
    exact (ih' ((first.ready ready).enterFile _ _) clean within
      ((ih ready clean' within' typed).same rfl rfl rfl)).same rfl rfl rfl
  | loop first known inner ih ih' =>
    obtain ⟨clean', within'⟩ := before inner.frame clean within
    exact (ih' ((first.ready ready).pushLoop known) clean within
      ((ih ready clean' within' typed).same rfl rfl rfl)).same rfl rfl rfl

/-! ## Finished code -/

theorem Typed.start {c : FnCompiler} (code : c.code = []) (labels : c.labels = []) (fixups : c.fixups = []) :
    Typed types ⟨c, 0, fun _ => 0⟩ := by
  refine ⟨fun _ => 0, rfl, rfl, fun pc i there => ?_, fun f member => ?_, fun l pos there => ?_⟩
  · simp [code] at there
  · simp [fixups] at member
  · simp [labels] at there

theorem Built.typed {scope : ModuleScope} {errors : List Diagnostic} {p : Point} (built : Built H library scope errors p)
    (balanced : H.balanced) (ready : scope.Ready H library) (clean : p.c.errors = []) (within : p.c.scope.types <+: types) :
    Typed types p := by
  induction built with
  | unit there =>
    have entered := enterUnit_entered library (newFnCompiler scope errors) ‹_› (scope.lambdas.get ‹_›)
    exact .start entered.code entered.labels entered.fixups
  | thunk => exact .start rfl rfl rfl
  | emits first more ih =>
    have frame := more.frame
    exact more.typed balanced (first.ready ready) clean within
      (ih (List.prefix_nil.mp (clean ▸ frame.errors)) (frame.scope.types.trans within))
  | reset _ _ ih => exact (ih clean within).same rfl rfl rfl

/-- An instruction of patched code is the jump of a placeholder to its label, or was there before. -/
theorem FnCompiler.patches_code {c : FnCompiler} (fixups : List Fixup) (clean : (fixups.foldl FnCompiler.patch c).errors = [])
    {pc : ℕ} {i : Instr} (there : (fixups.foldl FnCompiler.patch c).code[pc]? = some i) :
    (∃ f ∈ fixups, f.pos = pc ∧ ∃ target, c.target f.label = some target ∧ i = Jk.instr f.kind target) ∨
      (∀ f ∈ fixups, f.pos ≠ pc) ∧ c.code[pc]? = some i := by
  induction fixups generalizing c with
  | nil => exact .inr ⟨fun _ => nofun, there⟩
  | cons f rest ih =>
    have targets (label : ℕ) : (c.patch f).target label = c.target label := by
      unfold FnCompiler.target
      rw [(c.patch_resolved f).rest]
    rcases ih clean there with ⟨g, member, pos, target, bound, eq⟩ | ⟨others, before⟩
    · exact .inl ⟨g, List.mem_cons_of_mem _ member, pos, target, targets g.label ▸ bound, eq⟩
    · have first : (c.patch f).errors = [] := List.prefix_nil.mp (clean ▸ ((c.patch f).patches_resolved rest).errors)
      unfold FnCompiler.patch at first before
      cases bound : c.target f.label with
      | none => simp [bound, FnCompiler.error] at first
      | some target =>
        simp only [bound, List.getElem?_set] at before
        split at before
        next here =>
          split at before
          · exact .inl ⟨f, List.mem_cons_self, here, target, bound, (Option.some.inj before).symm⟩
          · cases before
        next elsewhere => exact .inr ⟨List.forall_mem_cons.mpr ⟨elsewhere, others⟩, before⟩

/-- A conditional jump takes its condition off on both ways. -/
theorem Fits.branch {depths : ℕ → ℕ} {pc target height : ℕ} {i : Instr} (here : depths pc = height + 1 ∧ depths (pc + 1) = height)
    (there : depths target = height) (jump : i = .jumpIfTrue target ∨ i = .jumpIfFalse target) : Fits types depths pc i := by
  have fits : 1 ≤ depths pc ∧ ∀ next ∈ [target, pc + 1], depths next = depths pc - 1 + 0 := by
    refine ⟨here.1 ▸ Nat.le_add_left _ _, fun next goes => ?_⟩
    rcases List.mem_pair.mp goes with rfl | rfl
    · rw [there, here.1, Nat.add_sub_cancel, Nat.add_zero]
    · rw [here.2, here.1, Nat.add_sub_cancel, Nat.add_zero]
  rcases jump with rfl | rfl <;> exact ⟨fits.1, fits.2⟩

theorem Finished.fits {scope : ModuleScope} {errors : List Diagnostic} {c : FnCompiler}
    (finished : Finished H library scope errors c) (balanced : H.balanced) (ready : scope.Ready H library)
    (clean : c.errors = []) (within : c.scope.types <+: types) :
    ∃ depths : ℕ → ℕ, depths 0 = 0 ∧ ∀ pc i, c.code[pc]? = some i → Fits types depths pc i := by
  obtain ⟨⟨t, d, Λ⟩, built, rfl⟩ := finished
  have resolved := t.resolveJumps_resolved
  have clean' : t.errors = [] := List.prefix_nil.mp (clean ▸ resolved.errors)
  have same : t.resolveJumps.scope = t.scope := by rw [resolved.rest]
  obtain ⟨depths, fit⟩ := built.typed balanced ready clean' (same ▸ within)
  refine ⟨depths, fit.entry, fun pc i there => ?_⟩
  rcases FnCompiler.patches_code t.fixups clean there with ⟨f, member, rfl, target, bound, rfl⟩ | ⟨plain, there⟩
  · obtain ⟨_, _, jump, branch⟩ := fit.fixups f member
    have at_target := (fit.labels f.label target (Option.join_eq_some_iff.mp bound)).2
    cases kind : f.kind with
    | jump =>
      refine ⟨Nat.zero_le _, fun next goes => ?_⟩
      obtain rfl := List.mem_singleton.mp goes
      exact at_target.trans (jump kind).symm
    | ifTrue => exact .branch (branch (by simp [kind])) at_target (.inl rfl)
    | ifFalse => exact .branch (branch (by simp [kind])) at_target (.inr rfl)
  · exact (fit.instrs pc i there plain).1

end

end Thera.Compiler
