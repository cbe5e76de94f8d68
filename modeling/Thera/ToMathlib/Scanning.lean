import Mathlib

/-! # Positions in a list, and runs that may fail

A scanner keeps a position in a list; what it does is stated in terms of what remains there. A run in a state
monad over errors ends as it should when it ends with a value that has a given property or with an error that is
allowed. A run yields a value when it ends with it where a given part of the list remains.
-/

namespace Scanning

/-! ## What remains at a position -/

section

variable {α : Type*}

/-- At `pos`, `rest` remains of `text`. -/
def At (text : List α) (pos : ℕ) (rest : List α) : Prop := text.drop pos = rest ∧ pos ≤ text.length

variable {text rest : List α} {pos : ℕ} {c : α}

theorem At.start (text : List α) : At text 0 text := ⟨rfl, Nat.zero_le _⟩

theorem At.length (here : At text pos rest) : pos + rest.length = text.length := by
  obtain ⟨rfl, bound⟩ := here
  rw [List.length_drop]
  omega

theorem At.getElem? (here : At text pos (c :: rest)) : text[pos]? = some c := by
  have first := congrArg (·[0]?) here.1
  simpa using first

theorem At.lt (here : At text pos (c :: rest)) : pos < text.length := by
  have length := here.length
  rw [List.length_cons] at length
  omega

theorem At.end_ (here : At text pos []) : pos = text.length := here.length

theorem At.append {taken : List α} (here : At text pos (taken ++ rest)) : At text (pos + taken.length) rest := by
  refine ⟨?_, ?_⟩
  · rw [← List.drop_drop, here.1, List.drop_left]
  · have length := here.length
    rw [List.length_append] at length
    omega

theorem At.step (here : At text pos (c :: rest)) : At text (pos + 1) rest :=
  (show At text pos ([c] ++ rest) from here).append

/-- What lies between two positions. -/
theorem At.slice {taken : List α} (here : At text pos (taken ++ rest)) : (text.drop pos).take taken.length = taken := by
  rw [here.1, List.take_left]

end

/-! ## Runs that may fail -/

section

variable {σ ε α β : Type} {fine : ε → Prop} {m : StateT σ (Except ε) α} {f : α → StateT σ (Except ε) β} {s s' : σ} {a : α}
  {P : α → σ → Prop} {Q : β → σ → Prop}

/-- The run ends with a value that has the property, or with a fine error. -/
def Ends (fine : ε → Prop) (m : StateT σ (Except ε) α) (s : σ) (P : α → σ → Prop) : Prop :=
  match m s with
  | .ok (a, s') => P a s'
  | .error e => fine e

theorem run_bind (first : m s = .ok (a, s')) : (m >>= f) s = f a s' := by
  change (m s >>= fun result => f result.1 result.2) = f a s'
  rw [first]
  rfl

theorem run_bind_error {e : ε} (first : m s = .error e) : (m >>= f) s = .error e := by
  change (m s >>= fun result => f result.1 result.2) = .error e
  rw [first]
  rfl

theorem run_bind_ok {b : β} (run : (m >>= f) s = .ok (b, s')) : ∃ a s₁, m s = .ok (a, s₁) ∧ f a s₁ = .ok (b, s') := by
  cases first : m s with
  | error e =>
    rw [run_bind_error first] at run
    cases run
  | ok result =>
    rw [run_bind first] at run
    exact ⟨result.1, result.2, rfl, run⟩

/-- Two steps, by what the first can end with. -/
theorem bind_elim {R : Except ε (α × σ) → Prop} {P : Except ε (β × σ) → Prop} (first : R (m s))
    (failed : ∀ {e}, R (.error e) → P (.error e)) (next : ∀ a s', R (.ok (a, s')) → P (f a s')) : P ((m >>= f) s) := by
  cases run : m s with
  | error e =>
    rw [run_bind_error run]
    exact failed (run ▸ first)
  | ok result =>
    rw [run_bind run]
    exact next _ _ (run ▸ first)

theorem run_get {g : σ → StateT σ (Except ε) β} : ((get : StateT σ (Except ε) σ) >>= g) s = g s s := rfl

theorem run_set {g : PUnit → StateT σ (Except ε) β} : ((set s' : StateT σ (Except ε) PUnit) >>= g) s = g ⟨⟩ s' := rfl

theorem Ends.of_run (run : m s = .ok (a, s')) (holds : P a s') : Ends fine m s P := by
  rw [Ends, run]
  exact holds

theorem Ends.of_error {e : ε} (run : m s = .error e) (isFine : fine e) : Ends fine m s P := by
  rw [Ends, run]
  exact isFine

theorem Ends.bind (first : Ends fine m s P) (next : ∀ a s', P a s' → Ends fine (f a) s' Q) : Ends fine (m >>= f) s Q := by
  rw [Ends] at first
  cases run : m s with
  | ok result =>
    rw [run] at first
    rw [Ends, run_bind run]
    exact next result.1 result.2 first
  | error e =>
    rw [run] at first
    exact .of_error (run_bind_error run) first

theorem Ends.step (first : m s = .ok (a, s')) (next : Ends fine (f a) s' Q) : Ends fine (m >>= f) s Q := by
  rwa [Ends, run_bind first]

theorem Ends.pure (holds : P a s) : Ends fine (Pure.pure a : StateT σ (Except ε) α) s P := holds

theorem Ends.get {g : σ → StateT σ (Except ε) β} (next : Ends fine (g s) s Q) :
    Ends fine ((MonadState.get : StateT σ (Except ε) σ) >>= g) s Q := next

theorem Ends.mono {P' : α → σ → Prop} (ends : Ends fine m s P) (weaker : ∀ a s', P a s' → P' a s') : Ends fine m s P' := by
  rw [Ends] at ends ⊢
  split at ends
  · exact weaker _ _ ends
  · exact ends

theorem Ends.value (ends : Ends fine m s P) (run : m s = .ok (a, s')) : P a s' := by
  rwa [Ends, run] at ends

theorem Ends.error {e : ε} (ends : Ends fine m s P) (run : m s = .error e) : fine e := by
  rwa [Ends, run] at ends

end

section

variable {ε α β γ : Type} {m : StateT ℕ (Except ε) α} {f : α → StateT ℕ (Except ε) β} {text mid rest : List γ} {pos p : ℕ} {a : α}
  {b : β}

/-- The run ends with this value, at a position where `rest` remains. -/
def Yields (m : StateT ℕ (Except ε) α) (text : List γ) (pos : ℕ) (a : α) (rest : List γ) : Prop :=
  ∃ p, m pos = .ok (a, p) ∧ At text p rest

theorem Yields.pure (here : At text pos rest) : Yields (Pure.pure a : StateT ℕ (Except ε) α) text pos a rest := ⟨pos, rfl, here⟩

theorem Yields.step (first : m pos = .ok (a, p)) (next : Yields (f a) text p b rest) : Yields (m >>= f) text pos b rest := by
  rwa [Yields, run_bind first]

theorem Yields.bind (first : Yields m text pos a mid) (next : ∀ {p}, At text p mid → Yields (f a) text p b rest) :
    Yields (m >>= f) text pos b rest := by
  obtain ⟨p, run, there⟩ := first
  exact .step run (next there)

end

end Scanning
