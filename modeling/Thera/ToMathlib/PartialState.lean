import Mathlib

/-! # Partial correctness of state transformers that may fail

`Ensures x s post` says that whatever `x` returns from `s` satisfies `post`; a run without a result
satisfies anything. The rules compute with the monadic operations.
-/

namespace PartialState

variable {σ α β : Type}

/-- Every result of `x` from `s` satisfies `post`. -/
def Ensures (x : StateT σ Option α) (s : σ) (post : α → σ → Prop) : Prop :=
  ∀ a s', x s = some (a, s') → post a s'

theorem Ensures.mono {x : StateT σ Option α} {s : σ} {post post' : α → σ → Prop} (h : Ensures x s post)
    (weaker : ∀ a s', post a s' → post' a s') : Ensures x s post' :=
  fun a s' run => weaker a s' (h a s' run)

@[simp] theorem ensures_pure (a : α) (s : σ) (post : α → σ → Prop) :
    Ensures (pure a) s post ↔ post a s := by
  constructor
  · intro h
    exact h a s rfl
  · rintro h _ _ ⟨⟩
    exact h

@[simp] theorem ensures_bind (x : StateT σ Option α) (f : α → StateT σ Option β) (s : σ) (post : β → σ → Prop) :
    Ensures (x >>= f) s post ↔ Ensures x s fun a s' => Ensures (f a) s' post := by
  constructor
  · intro h a s' run b s'' run'
    refine h b s'' ?_
    change (x s).bind (fun p => f p.1 p.2) = _
    rw [run]
    exact run'
  · intro h b s'' run
    change (x s).bind (fun p => f p.1 p.2) = _ at run
    obtain ⟨⟨a, s'⟩, first, second⟩ := Option.bind_eq_some_iff.mp run
    exact h a s' first b s'' second

@[simp] theorem ensures_map (f : α → β) (x : StateT σ Option α) (s : σ) (post : β → σ → Prop) :
    Ensures (f <$> x) s post ↔ Ensures x s fun a s' => post (f a) s' := by
  rw [← bind_pure_comp, ensures_bind]
  simp only [ensures_pure]

@[simp] theorem ensures_get (s : σ) (post : σ → σ → Prop) :
    Ensures (get : StateT σ Option σ) s post ↔ post s s := ensures_pure s s post

@[simp] theorem ensures_set (t s : σ) (post : PUnit → σ → Prop) :
    Ensures (set t : StateT σ Option PUnit) s post ↔ post ⟨⟩ t := by
  constructor
  · intro h
    exact h ⟨⟩ t rfl
  · rintro h _ _ ⟨⟩
    exact h

@[simp] theorem ensures_modify (f : σ → σ) (s : σ) (post : PUnit → σ → Prop) :
    Ensures (modify f : StateT σ Option PUnit) s post ↔ post ⟨⟩ (f s) := ensures_set (f s) s post

@[simp] theorem ensures_failure (s : σ) (post : α → σ → Prop) :
    Ensures (failure : StateT σ Option α) s post := by
  rintro a s' ⟨⟩

theorem ensures_ite {c : Prop} [Decidable c] (x y : StateT σ Option α) (s : σ) (post : α → σ → Prop) :
    Ensures (if c then x else y) s post ↔ (c → Ensures x s post) ∧ (¬ c → Ensures y s post) := by
  by_cases h : c <;> simp [h]

/-- A loop over a list keeps what every round keeps. -/
theorem ensures_forM {I : σ → Prop} (xs : List β) (f : β → StateT σ Option PUnit)
    (round : ∀ x ∈ xs, ∀ s, I s → Ensures (f x) s fun _ => I) (s : σ) (start : I s) :
    Ensures (xs.forM f) s fun _ => I := by
  induction xs generalizing s with
  | nil => exact (ensures_pure _ s _).mpr start
  | cons x rest ih =>
    refine (ensures_bind (f x) _ s _).mpr ((round x List.mem_cons_self s start).mono fun _ s' kept => ?_)
    exact ih (fun y member => round y (List.mem_cons_of_mem x member)) s' kept

/-- A fold that may fail keeps what every round keeps. -/
theorem foldlM_keeps {I : σ → Prop} {xs : List α} {f : σ → α → Option σ} {s final : σ} (start : I s)
    (round : ∀ x ∈ xs, ∀ a b, I a → f a x = some b → I b) (run : xs.foldlM f s = some final) : I final := by
  induction xs generalizing s with
  | nil => exact Option.some.inj run ▸ start
  | cons x rest ih =>
    obtain ⟨next, first, others⟩ := Option.bind_eq_some_iff.mp run
    exact ih (round x List.mem_cons_self s next start first) (fun y member => round y (List.mem_cons_of_mem x member)) others

end PartialState
