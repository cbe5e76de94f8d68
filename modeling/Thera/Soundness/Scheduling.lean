import Thera.Proofs.Runtime.Drive

/-! # The scheduler's bookkeeping over whole runs

In every state a run of the driver reaches, the ready queue agrees with the queued flags, a parked
fiber is listed exactly where its park request said, and a running or finished fiber is listed
nowhere. So the driver never resumes a fiber that cannot run, and a fiber that waits for a host
operation is queued only by the delivery of that operation's result.
-/

namespace Thera.Runtime

open Scheduler

namespace Scheduler

/-- The host operation a fiber waits for. -/
def pendingOf (s : Scheduler) (id : ℕ) : Option IoFinish := s.fibers[id]?.bind Fiber.pending

variable {s s' : Scheduler} {running : Option ℕ} {asked : ℕ → Option ParkRequest}

theorem pendingOf_modify {f : Fiber → Fiber} {i : ℕ} (same : ∀ fiber, (f fiber).pending = fiber.pending) (id : ℕ) :
    (s.fibers.modify i f)[id]?.bind Fiber.pending = s.pendingOf id := by
  rw [pendingOf, List.getElem?_modify]
  by_cases here : i = id <;> cases s.fibers[id]? <;> simp [here, same]

theorem pendingOf_wake (s : Scheduler) (ids : List ℕ) (id : ℕ) :
    (ids.foldl Scheduler.makeReady s).pendingOf id = s.pendingOf id := by
  rw [pendingOf, pendingOf, wake_eq, List.getElem?_mapIdx]
  cases s.fibers[id]? <;> rfl

theorem pendingOf_wakePoll (s : Scheduler) (handle : Int64) (id : ℕ) :
    (s.wakePoll handle).pendingOf id = s.pendingOf id := by
  rw [wakePoll]
  split
  · exact pendingOf_wake _ _ id
  · rfl

theorem pendingOf_set {i id : ℕ} {old new : Fiber} (there : s.fibers[i]? = some old) (fibers : s'.fibers = s.fibers.set i new)
    (same : i = id → new.pending = old.pending) : s'.pendingOf id = s.pendingOf id := by
  rw [pendingOf, pendingOf, fibers]
  by_cases here : i = id
  · subst here
    rw [List.getElem?_set_self (List.getElem?_eq_some_iff.mp there).1, there]
    exact same rfl
  · rw [List.getElem?_set_ne here]

theorem Ok.not_queued (ok : s.Ok running asked) {id : ℕ} {op : IoFinish} (pending : s.pendingOf id = some op) :
    id ∉ s.ready ∧ running ≠ some id := by
  obtain ⟨fiber, there, pending⟩ := Option.bind_eq_some_iff.mp pending
  obtain ⟨-, -, stopped, vstack, frames, rfl, -⟩ := ok.pendingFiber there pending
  refine ⟨fun member => ?_, stopped⟩
  obtain ⟨other, found, queued⟩ := (ok.flagged id).mp member
  cases there.symm.trans found
  cases queued

end Scheduler

theorem Effect.pendingOf {s s' : Scheduler} {event : Option ChanEvent} (effect : Effect s event s') (id : ℕ) : s'.pendingOf id = s.pendingOf id := by
  cases effect with
  | nothing | drained applied => rfl
  | spawned closure =>
    refine (pendingOf_wake _ [s.fibers.length] id).trans ?_
    rw [Scheduler.pendingOf, Scheduler.pendingOf]
    rcases Nat.lt_trichotomy id s.fibers.length with before | rfl | after
    · rw [List.getElem?_append_left before]
    · simp [freshFiber]
    · rw [List.getElem?_eq_none (by rw [List.length_append, List.length_singleton]; exact after),
        List.getElem?_eq_none (Nat.le_of_lt after)]
  | opened capacity => rfl
  | progress wakes applied => exact pendingOf_wake _ _ id
  | polled handle => exact pendingOf_wakePoll s handle id

theorem suspend_pendingOf {s s' : Scheduler} {env : Env} {id i : ℕ} {request : ParkRequest}
    (suspended : suspend env s id request = some s') (other : id ≠ i) : s'.pendingOf i = s.pendingOf i := by
  obtain ⟨vstack, frames, -, parked | ⟨finish, rfl, rfl⟩⟩ := suspend_park suspended
  · by_cases yields : request = .yieldReady
    · subst yields
      cases parked
      refine (pendingOf_wake _ [id] i).trans ?_
      exact pendingOf_modify (fun _ => by rfl) i
    · rw [Scheduler.pendingOf, (park_effect yields parked).1]
      exact pendingOf_modify (fun _ => by rfl) i
  · simp [Scheduler.pendingOf, parkIo, modifyFiber, other]

namespace Machine

variable {finish : IoFinish → List UInt8 → Option Value} {m m' : Machine} {seen : Observation}

/-- A fiber keeps waiting for its host operation until the result is delivered. -/
theorem Move.pendingOf (move : Move finish m seen m') (ok : m.Ok) {id : ℕ} {op : IoFinish}
    (pending : m.sched.pendingOf id = some op) :
    m'.sched.pendingOf id = some op ∨ ∃ delivered payload value, seen = .delivered delivered ∧
      (id, value) ∈ delivered ∧ finish op payload = some value := by
  cases move with
  | answered runs ran | trapped runs ran => exact .inl (((Call.run_effect 0 ran).pendingOf id).trans pending)
  | parked runs ordinary ran suspended =>
    have other := fun same => ((ok.running runs).not_queued pending).2 (congrArg some same)
    refine .inl ((suspend_pendingOf suspended other).trans ?_)
    exact ((Call.run_effect 0 ran).pendingOf id).trans pending
  | selectParked runs selects passed ran suspended =>
    have other := fun same => ((ok.running runs).not_queued pending).2 (congrArg some same)
    exact .inl ((suspend_pendingOf suspended other).trans pending)
  | selectBegun sources runs => exact .inl pending
  | selectSkipped runs selects method asleep => exact .inl pending
  | selectReturned runs selects method awake | selectCollected answer runs selects method => exact .inl pending
  | finished value runs outermost =>
    refine .inl ((pendingOf_wake _ _ id).trans ?_)
    exact (pendingOf_modify (fun _ => by rfl) id).trans pending
  | resumed idles picked resumable =>
    obtain ⟨fiber, there, -, -, host, -, fibers, -⟩ := nextReady_effect (ok.idle idles) picked
    exact .inl ((pendingOf_set there fibers fun _ => host.symm).trans pending)
  | corrupt idles picked unfit => exact absurd ((ok.idle idles).nextReady picked).2 unfit
  | woken idles delivers =>
    have after := deliverCompletions_induct (fun s past => s.Ok none m.asked ∧ (s.pendingOf id = some op ∨
      ∃ payload value, (id, value) ∈ past ∧ finish op payload = some value)) delivers ⟨wakePolls_ok (ok.idle idles), .inl ?_⟩ ?_
    · obtain ⟨-, kept | ⟨payload, value, member, finished⟩⟩ := after
      · exact .inl ((pendingOf_wake _ _ id).trans kept)
      · exact .inr ⟨_, payload, value, rfl, member, finished⟩
    · exact (List.foldlRecOn (motive := fun s => s.pendingOf id = some op) _ _ pending
        fun s kept handle _ => (pendingOf_wakePoll s handle id).trans kept)
    · rintro s i op' payload value taken s' past ⟨ok, before⟩ takes finished delivers
      refine ⟨ok.deliver takes delivers, ?_⟩
      obtain ⟨fiber, vstack, frames, there, host, -, fibers, -⟩ := deliver_effect ok takes delivers
      rcases before with pending | ⟨payload, value, member, finished⟩
      · by_cases here : i = id
        · subst here
          cases (show s.pendingOf i = some op' by rw [Scheduler.pendingOf, there]; exact host).symm.trans pending
          exact .inr ⟨payload, value, by simp, finished⟩
        · exact .inl ((pendingOf_set there fibers fun same => absurd same here).trans pending)
      · exact .inr ⟨payload, value, List.mem_append_left _ member, finished⟩
  | failed idles | stopped idles ready polls io timers => exact .inl pending

end Machine

/-- In every reached state: the queue holds the flagged fibers, each once; an unfinished fiber that is
neither running nor queued is listed exactly where its last park asked; a running or finished fiber is
in no queue or list. So the next fiber taken from the queue can run, and one that waits for a host
operation becomes ready in no other step than the delivery of that operation's result. -/
theorem scheduler_bookkeeping {finish : IoFinish → List UInt8 → Option Value} {events : List Event} {m : Machine}
    {observed : List Observation} (ran : (driveMachine finish).run events = some (m, observed)) :
    (m.sched.ready.Nodup ∧
      ∀ id, id ∈ m.sched.ready ↔ ∃ fiber, m.sched.fibers[id]? = some fiber ∧ fiber.queued = true) ∧
    (∀ id fiber, m.sched.fibers[id]? = some fiber → (∀ value, fiber.state ≠ .done value) → fiber.state ≠ .running →
      fiber.queued = false → ∃ call request, (m.control id).parked = some (call, request) ∧
        (∀ w, m.sched.Listed id w ↔ request.Names w) ∧ fiber.pending = request.pending) ∧
    (∀ id fiber, m.sched.fibers[id]? = some fiber → (fiber.state = .running ∨ ∃ value, fiber.state = .done value) →
      id ∉ m.sched.ready ∧ (∀ w, ¬ m.sched.Listed id w) ∧ fiber.pending = none) ∧
    (∀ id, m.phase = .running id → ∃ fiber, m.sched.fibers[id]? = some fiber ∧ fiber.state = .running) ∧
    (m.phase = .idle → ∀ id state s, m.sched.nextReady = some (id, state, s) → Resumable state) ∧
    ∀ id fiber op, m.sched.fibers[id]? = some fiber → fiber.pending = some op → id ∉ m.sched.ready ∧
      ∀ event m' seen, m.step finish event = some (m', seen) → id ∈ m'.sched.ready ∨ m'.phase = .running id →
        ∃ delivered payload value, seen = .delivered delivered ∧ (id, value) ∈ delivered ∧
          finish op payload = some value := by
  have machineOk := Machine.run_ok ran
  obtain ⟨running, ok, phase⟩ := id machineOk
  refine ⟨⟨ok.once, ok.flagged⟩, fun id fiber there unfinished stopped unqueued => ?_, fun id fiber there ends => ?_,
    fun id runs => ?_, fun idles id state s picked => ((machineOk.idle idles).nextReady picked).2,
    fun id fiber op there pending => ?_⟩
  · cases ok.fibers id fiber there with
    | notStarted => cases unqueued
    | running => exact absurd rfl stopped
    | done value => exact absurd rfl (unfinished value)
    | woken => cases unqueued
    | waiting request vstack frames parked exact_ =>
      obtain ⟨⟨call, asked⟩, recorded, rfl⟩ := Option.map_eq_some_iff.mp parked
      exact ⟨call, asked, recorded, exact_, rfl⟩
  · have unqueued (flag : fiber.queued = false) : id ∉ m.sched.ready := fun member => by
      obtain ⟨other, found, queued⟩ := (ok.flagged id).mp member
      cases there.symm.trans found
      simp [flag] at queued
    cases ok.fibers id fiber there with
    | notStarted => simp at ends
    | running unlisted | done value unlisted => exact ⟨unqueued rfl, unlisted, rfl⟩
    | woken | waiting => simp at ends
  · exact ⟨_, (machineOk.running runs).runningFiber.1, rfl⟩
  · have waits : m.sched.pendingOf id = some op := by rw [Scheduler.pendingOf, there]; exact pending
    refine ⟨(ok.not_queued waits).1, fun event m' seen stepped woken => ?_⟩
    have move := Machine.step_move stepped
    refine (move.pendingOf machineOk waits).resolve_left fun still => ?_
    obtain ⟨running', ok', phase'⟩ := machineOk.move move
    rcases woken with queued | runs
    · exact (ok'.not_queued still).1 queued
    · rw [runs] at phase'
      exact (ok'.not_queued still).2 phase'

/-- The main fiber spawns another and joins it; the other parks on a host operation. -/
def hostRun : List Event :=
  [.call (.fiberSpawn .unit) firstEnv, .call (.fiberJoin 1) firstEnv, .idle 0 [] [], .call (.host 7) firstEnv]

theorem hostRun_bookkeeping : ∃ m observed, (driveMachine fun _ _ => some .unit).run hostRun = some (m, observed) ∧
    m.sched.ready.Nodup ∧ m.sched.blocked = [0] ∧ m.sched.pendingOf 1 = some 7 := by
  have ran : (driveMachine fun _ _ => some .unit).run hostRun = some (_, _) := rfl
  exact ⟨_, _, ran, (scheduler_bookkeeping ran).1.1, rfl, rfl⟩

/-- In every reached state at most one fiber runs, `ioBlocked` counts the fibers that wait for a host operation, only fibers are listed,
and no list of a socket is empty. -/
theorem one_fiber_runs {finish : IoFinish → List UInt8 → Option Value} {events : List Event} {m : Machine}
    {observed : List Observation} (ran : (driveMachine finish).run events = some (m, observed)) :
    (∃ only : ℕ, ∀ (id : ℕ) (fiber : Fiber), m.sched.fibers[id]? = some fiber → fiber.state = .running → id = only) ∧
      m.sched.ioBlocked = m.sched.fibers.countP (·.pending.isSome) ∧ (∀ id w, m.sched.Listed id w → id < m.sched.fibers.length) ∧
      ∀ handle, m.sched.pollBlocked.lookup handle ≠ some [] := by
  obtain ⟨running, ok, -⟩ := Machine.run_ok ran
  refine ⟨⟨running.getD 0, fun id fiber there state => ?_⟩, ok.counted, ok.known, fun handle empty => ok.nonempty handle [] empty rfl⟩
  cases ok.fibers id fiber there with
  | running unlisted here =>
    rw [here]
    rfl
  | _ => cases state

theorem hostRun_counted : ∃ m observed, (driveMachine fun _ _ => some .unit).run hostRun = some (m, observed) ∧
    m.sched.ioBlocked = 1 ∧ m.sched.ioBlocked = m.sched.fibers.countP (·.pending.isSome) := by
  have ran : (driveMachine fun _ _ => some .unit).run hostRun = some (_, _) := rfl
  exact ⟨_, _, ran, rfl, (one_fiber_runs ran).2.1⟩

end Thera.Runtime
