import Thera.Proofs.Compiler.Units

/-! # Where the operands of emitted code come from

Every instruction of finished code is a resolved jump or was emitted at a site, over a scope that only grew
afterwards.
-/

namespace Thera.Compiler

/-- An instruction of a function that has `locals` slots and was compiled over `scope` or a scope before it. -/
inductive Placed (H : Hereditary) (library : Library) (locals : ℕ) (scope : ModuleScope) (i : Instr) : Prop
  /-- A placeholder, or the jump it was resolved to. -/
  | jump (kind : Jk) (target : ℕ) (eq : i = FnCompiler.Jk.instr kind target) : Placed H library locals scope i
  | site (t : FnCompiler) (ready : t.Ready H library) (site : Site H t i) (le : t.localCount ≤ locals)
      (grows : t.scope.Grows scope) : Placed H library locals scope i

section

variable {H : Hereditary} {library : Library} {c : FnCompiler} {i : Instr}

variable {scope : ModuleScope} {errors : List Diagnostic}

theorem Placed.mono {locals locals' : ℕ} {scope' : ModuleScope} (placed : Placed H library locals scope i)
    (more : locals ≤ locals') (grows : scope.Grows scope') : Placed H library locals' scope' i := by
  cases placed with
  | jump kind target eq => exact .jump kind target eq
  | site t ready site le before => exact .site t ready site (Nat.le_trans le more) (before.trans grows)

/-- All instructions of a compiler are placed. -/
def AllPlaced (H : Hereditary) (library : Library) (c : FnCompiler) : Prop :=
  ∀ i ∈ c.code, Placed H library c.localCount c.scope i

theorem AllPlaced.emit (all : AllPlaced H library c) (placed : Placed H library c.localCount c.scope i) :
    AllPlaced H library (c.emit i) := by
  intro j member
  rcases List.mem_append.mp member with old | new
  · exact all j old
  · obtain rfl := List.mem_singleton.mp new
    exact placed

theorem Emits.allPlaced {p q : Point} (emits : Emits H p q) (ready : p.c.Ready H library)
    (all : AllPlaced H library p.c) : AllPlaced H library q.c := by
  induction emits with
  | refl => exact all
  | trans first _ ih ih' => exact ih' (first.ready ready) (ih ready all)
  | instr first site ih =>
    exact (ih ready all).emit (.site _ (first.ready ready) site (Nat.le_refl _) (.refl _))
  | «return» first ih =>
    exact (ih ready all).emit (.site _ (first.ready ready) (.simple _) (Nat.le_refl _) (.refl _))
  | jump first _ _ ih | branch first _ _ _ ih | leave first _ _ _ _ ih =>
    exact (ih ready all).emit (.jump .jump 0 rfl)
  | label _ _ ih | bind _ _ _ ih | error _ ih | recount _ _ ih | patternVar _ _ ih | types _ ih | startConst _ ih
  | finishConst _ ih | access _ _ ih => exact ih ready all
  | temporary _ ih | loopVar _ ih | letVar _ _ ih | cellVar _ _ ih =>
    exact fun i member => (ih ready all i member).mono (Nat.le_succ _) (.refl _)
  | cellType _ ih => exact fun i member => (ih ready all i member).mono (Nat.le_refl _) (.cellTypeIndex _)
  | lift _ _ _ _ ih => exact fun i member => (ih ready all i member).mono (Nat.le_refl _) (.addLambda _ _ _ _)
  | scope first _ ih ih' => exact ih' (first.ready ready) (ih ready all)
  | file first _ ih ih' => exact ih' ((first.ready ready).enterFile _ _) (ih ready all)
  | loop first known _ ih ih' => exact ih' ((first.ready ready).pushLoop known) (ih ready all)

theorem Built.allPlaced {p : Point} (built : Built H library scope errors p) (ready : scope.Ready H library) :
    AllPlaced H library p.c := by
  induction built with
  | unit there =>
    have entered := enterUnit_entered library (newFnCompiler scope errors) ‹_› (scope.lambdas.get ‹_›)
    intro i member
    rw [entered.code] at member
    cases member
  | thunk => exact fun i => nofun
  | emits first more ih => exact more.allPlaced (first.ready ready) ih
  | reset _ _ ih => exact ih

theorem FnCompiler.patches_placed (fixups : List Fixup) (all : AllPlaced H library c) :
    AllPlaced H library (fixups.foldl FnCompiler.patch c) := by
  induction fixups generalizing c with
  | nil => exact all
  | cons f rest ih =>
    refine ih fun i member => ?_
    have placed (target : ℕ) (member : i ∈ c.code.set f.pos (Jk.instr f.kind target)) :
        Placed H library c.localCount c.scope i :=
      (List.mem_or_eq_of_mem_set member).elim (all i) fun eq => .jump f.kind target eq
    unfold FnCompiler.patch at member ⊢
    split at member
    next target _ => exact placed target member
    next => exact placed 0 member

theorem Finished.allPlaced (finished : Finished H library scope errors c) (ready : scope.Ready H library) :
    AllPlaced H library c := by
  obtain ⟨p, built, rfl⟩ := finished
  exact FnCompiler.patches_placed _ (built.allPlaced ready)

/-! ## Counts -/

/-- The parameters are locals. -/
theorem Built.params_le {p : Point} (built : Built H library scope errors p) :
    p.c.paramCount ≤ p.c.localCount := by
  induction built with
  | unit there =>
    refine enterUnit_induction (I := fun c => c.paramCount ≤ c.localCount) (Nat.le_refl _) fun p i c _ le => ?_
    unfold declareParam
    dsimp only
    split <;> exact Nat.succ_le_succ le
  | thunk => exact Nat.le_refl _
  | emits _ more ih => exact more.frame.paramCount ▸ Nat.le_trans ih more.frame.localCount
  | reset _ _ ih => exact ih

theorem Finished.params_le (finished : Finished H library scope errors c) : c.paramCount ≤ c.localCount := by
  obtain ⟨p, built, rfl⟩ := finished
  rw [p.c.resolveJumps_resolved.rest]
  exact built.params_le

/-- Compiling stops when every unit is done. -/
theorem compileUnits_all {w : Walker} {fuel : ℕ} {p final : Progress} (run : compileUnits library w fuel p = some final) :
    final.scope.units.length ≤ final.compiled.length := by
  induction fuel generalizing p with
  | zero =>
    rw [compileUnits] at run
    split at run
    next done => exact Option.some.inj run ▸ List.getElem?_eq_none_iff.mp done
    next => cases run
  | succ fuel ih =>
    rw [compileUnits] at run
    split at run
    next done => exact Option.some.inj run ▸ List.getElem?_eq_none_iff.mp done
    next =>
      obtain ⟨c, _, others⟩ := Option.bind_eq_some_iff.mp run
      exact ih others

theorem compileAll_all {fuel : ℕ} {final : Progress} (run : compileAll library fuel scope = some final) :
    final.scope.units.length ≤ final.compiled.length := by
  obtain ⟨p, units, run⟩ := Option.bind_eq_some_iff.mp run
  split at run
  · exact Option.some.inj run ▸ compileUnits_all units
  · obtain ⟨thunk, _, run⟩ := Option.bind_eq_some_iff.mp run
    obtain ⟨q, lambdas, done⟩ := Option.bind_eq_some_iff.mp run
    obtain rfl := Option.some.inj done
    have all := compileUnits_all lambdas
    exact Nat.le_trans all (List.prefix_append q.compiled _).length_le

end

end Thera.Compiler
