import Mathlib

/-! # Mealy machines

An event is enabled in a state when `step` has a result: the next state and what is observed of the
step. `run` replays events from the initial state. An invariant may mention the observations so far;
a machine may be restricted to steps that pass a guard.
-/

/-- An initial state and a guarded step function with an observation. -/
structure Mealy (σ ε ω : Type) where
  init : σ
  step : σ → ε → Option (σ × ω)

namespace Mealy

variable {σ ε ω : Type} (machine : Mealy σ ε ω)

/-- Replay events from a state, collecting the observations. -/
def runFrom (s : σ) : List ε → Option (σ × List ω)
  | [] => some (s, [])
  | e :: rest => do
      let (s, seen) ← machine.step s e
      let (s, later) ← runFrom s rest
      some (s, seen :: later)

def run (events : List ε) : Option (σ × List ω) := machine.runFrom machine.init events

/-- The machine in which only the steps that pass the guard are enabled. -/
def restrict (guard : σ → ω → Bool) : Mealy σ ε ω where
  init := machine.init
  step s e := (machine.step s e).filter fun result => guard s result.2

variable {machine}

theorem restrict_step {guard : σ → ω → Bool} {s s' : σ} {e : ε} {seen : ω} :
    (machine.restrict guard).step s e = some (s', seen) ↔ machine.step s e = some (s', seen) ∧ guard s seen = true := by
  simp [restrict, Option.filter_eq_some_iff]

theorem restrict_true : (machine.restrict fun _ _ => true) = machine := by
  have all (o : Option (σ × ω)) : o.filter (fun _ => true) = o := by cases o <;> rfl
  simp [restrict, all]

private theorem runFrom_snoc {s s' s'' : σ} {events : List ε} {e : ε} {observed : List ω} {seen : ω}
    (ran : machine.runFrom s events = some (s', observed)) (stepped : machine.step s' e = some (s'', seen)) :
    machine.runFrom s (events ++ [e]) = some (s'', observed ++ [seen]) := by
  induction events generalizing s observed with
  | nil =>
    cases ran
    simp [runFrom, stepped]
  | cons first rest ih =>
    obtain ⟨⟨next, head⟩, begun, ran⟩ := Option.bind_eq_some_iff.mp ran
    obtain ⟨⟨last, later⟩, continued, same⟩ := Option.bind_eq_some_iff.mp ran
    cases same
    simp [runFrom, begun, ih continued]

/-- A run goes on with an enabled event. -/
theorem run_snoc {s s' : σ} {events : List ε} {e : ε} {observed : List ω} {seen : ω}
    (ran : machine.run events = some (s, observed)) (stepped : machine.step s e = some (s', seen)) :
    machine.run (events ++ [e]) = some (s', observed ++ [seen]) := runFrom_snoc ran stepped

theorem runFrom_invariant {inv : List ω → σ → Prop}
    (keeps : ∀ past s e s' seen, inv past s → machine.step s e = some (s', seen) → inv (past ++ [seen]) s')
    {past : List ω} {s : σ} (here : inv past s) {events : List ε} {s' : σ} {observed : List ω}
    (replayed : machine.runFrom s events = some (s', observed)) : inv (past ++ observed) s' := by
  induction events generalizing past s observed with
  | nil =>
    cases replayed
    simpa using here
  | cons e rest ih =>
    obtain ⟨⟨next, seen⟩, stepped, replayed⟩ := Option.bind_eq_some_iff.mp replayed
    obtain ⟨⟨last, later⟩, continued, same⟩ := Option.bind_eq_some_iff.mp replayed
    cases same
    simpa using ih (keeps past s e next seen here stepped) continued

/-- A property of the past observations and the state holds after every run, if it holds initially and
every step keeps it. -/
theorem run_invariant (inv : List ω → σ → Prop) (initially : inv [] machine.init)
    (keeps : ∀ past s e s' seen, inv past s → machine.step s e = some (s', seen) → inv (past ++ [seen]) s')
    {events : List ε} {s : σ} {observed : List ω} (replayed : machine.run events = some (s, observed)) :
    inv observed s := by
  simpa using runFrom_invariant keeps initially replayed

end Mealy
