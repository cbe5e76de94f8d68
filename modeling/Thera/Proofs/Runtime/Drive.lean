import Thera.Model.Runtime.Drive
import Thera.Proofs.Runtime.Scheduler

/-! # What the driver does

`Move` lists what a step can be: the running fiber's call is answered, parks it or traps; its `select`
goes on; it returns; the idle loop resumes a queued fiber, wakes parked ones or gives up. Every
invariant of the driver is proved by cases on it, the bookkeeping first.
-/

namespace Thera.Runtime

namespace Scheduler

variable {s s' : Scheduler} {running : Option ℕ} {asked : ℕ → Option ParkRequest}

theorem Ok.setChannels (ok : s.Ok running asked) (channels : List Chan) : Ok { s with channels } running asked where
  flagged := ok.flagged
  once := ok.once
  fibers id fiber found := by
    have listed : Listed { s with channels } id = s.Listed id := by funext w; cases w <;> rfl
    rw [listed]
    exact ok.fibers id fiber found
  known id w listed := ok.known id w (by cases w <;> exact listed)
  current := ok.current
  nonempty := ok.nonempty
  counted := ok.counted

end Scheduler

open Scheduler

/-- What happens to the channels. -/
inductive ChanEvent where
  | opened (id capacity : ℕ)
  | accepted (id : ℕ) (value : Value)
  | received (id : ℕ) (value : Value)
  | drained (id : ℕ)
  | closed (id : ℕ)
  deriving DecidableEq

namespace ChanEvent

/-- The channels after an event, if it may happen. -/
def apply (channels : List Chan) : ChanEvent → Option (List Chan)
  | opened id capacity => if id = channels.length then some (channels ++ [⟨[], max capacity 1, false⟩]) else none
  | accepted id value => do
      let ch ← channels[id]?
      if !ch.closed && ch.buffer.length < ch.capacity then
        some (channels.set id { ch with buffer := ch.buffer ++ [value] })
      else none
  | received id value => do
      let ch ← channels[id]?
      if ch.buffer.head? = some value then some (channels.set id { ch with buffer := ch.buffer.tail }) else none
  | drained id => do
      let ch ← channels[id]?
      if ch.closed && ch.buffer.isEmpty then some channels else none
  | closed id => do
      let ch ← channels[id]?
      some (channels.set id { ch with closed := true })

/-- Whether the blocked fibers are woken: a value went into or out of a channel, or the channel was closed. -/
def wakes : ChanEvent → Bool
  | accepted .. | received .. | closed _ => true
  | _ => false

/-- The channel an event is about. -/
def on : ChanEvent → ℕ
  | opened id _ | accepted id _ | received id _ | drained id | closed id => id

end ChanEvent

/-- What an answered call did to the channels. -/
def Observation.chanEvent : Observation → Option ChanEvent
  | .called _ (.channelNew capacity) (.ret (.int id)) => some (.opened id capacity.toInt.toNat)
  | .called _ (.channelSend id value) (.ret _) => some (.accepted (asUsize id) value)
  | .called _ (.channelReceive id) (.ret (.option (some value))) => some (.received (asUsize id) value)
  | .called _ (.channelReceive id) (.ret (.option none)) => some (.drained (asUsize id))
  | .called _ (.channelClose id) (.ret _) => some (.closed (asUsize id))
  | _ => none

/-- What a native call can do to the scheduler, apart from the park it may ask for, with its event. -/
inductive Effect (s : Scheduler) : Option ChanEvent → Scheduler → Prop
  | nothing : Effect s none s
  | spawned (closure : Value) : Effect s none (s.spawn closure).2
  | opened (capacity : ℕ) : Effect s (some (.opened s.channels.length capacity)) (s.channelNew capacity).2
  | drained {id : ℕ} (applied : (ChanEvent.drained id).apply s.channels = some s.channels) : Effect s (some (.drained id)) s
  | polled (handle : Int64) : Effect s none (s.wakePoll handle)
  | progress {event : ChanEvent} {channels : List Chan} (wakes : event.wakes = true)
      (applied : event.apply s.channels = some channels) : Effect s (some event) (wakeAll { s with channels })

/-- Only an answered call is an event. -/
theorem Observation.chanEvent_unanswered {fiber : ℕ} {call : Call} {reply : Reply} (unanswered : ∀ answer, reply ≠ .ret answer) :
    (Observation.called fiber call reply).chanEvent = none := by
  cases reply with
  | ret answer => exact absurd rfl (unanswered answer)
  | _ => cases call <;> rfl

section

variable {s s' : Scheduler} {running : Option ℕ} {asked : ℕ → Option ParkRequest} {event : Option ChanEvent}

theorem chanSend_effect {id : ℕ} {value : Value} {outcome : SendOutcome} (sent : s.chanSend id value = some (outcome, s')) :
    Effect s (if outcome = .sent then some (.accepted id value) else none) s' := by
  obtain ⟨ch, there, sent⟩ := Option.bind_eq_some_iff.mp sent
  split_ifs at sent with closed room <;> cases sent
  · exact .nothing
  · exact .progress rfl (by simp [ChanEvent.apply, there, closed, room])
  · exact .nothing

theorem chanReceive_effect {id : ℕ} {outcome : RecvOutcome} (received : s.chanReceive id = some (outcome, s')) :
    Effect s (match outcome with
      | .got value => some (.received id value)
      | .drained => some (.drained id)
      | .empty => none) s' := by
  obtain ⟨ch, there, received⟩ := Option.bind_eq_some_iff.mp received
  cases buffer : ch.buffer with
  | nil =>
    simp only [buffer] at received
    cases closed : ch.closed <;> simp only [closed] at received <;> cases received
    · exact .nothing
    · exact .drained (by simp [ChanEvent.apply, there, closed, buffer])
  | cons value rest =>
    simp only [buffer] at received
    cases received
    exact .progress rfl (by simp [ChanEvent.apply, there, buffer])

theorem Call.run_effect {env : Env} {call : Call} {reply : Reply} (fiber : ℕ) (called : call.run env s = some (reply, s')) :
    Effect s (Observation.called fiber call reply).chanEvent s' := by
  cases call with
  | fiberSpawn closure =>
    cases called
    exact .spawned closure
  | fiberJoin id =>
    rw [run] at called
    split at called <;> cases called <;> exact .nothing
  | timeSleepMillis millis =>
    rw [run] at called
    split_ifs at called <;> cases called <;> exact .nothing
  | channelNew capacity =>
    cases called
    exact .opened _
  | channelSend id value =>
    obtain ⟨⟨outcome, after⟩, sent, replied⟩ := Option.bind_eq_some_iff.mp called
    cases outcome <;> cases replied <;> exact chanSend_effect sent
  | channelReceive id =>
    obtain ⟨⟨outcome, after⟩, received, replied⟩ := Option.bind_eq_some_iff.mp called
    cases outcome <;> cases replied <;> exact chanReceive_effect received
  | channelClose id =>
    obtain ⟨after, closed, replied⟩ := Option.bind_eq_some_iff.mp called
    cases replied
    obtain ⟨ch, there, closed⟩ := Option.bind_eq_some_iff.mp closed
    cases closed
    exact .progress rfl (by simp [ChanEvent.apply, there])
  | chanIsReady id =>
    obtain ⟨ready, -, replied⟩ := Option.bind_eq_some_iff.mp called
    cases replied
    exact .nothing
  | socket handle =>
    rw [run] at called
    split_ifs at called <;> cases called <;> exact .nothing
  | socketClose handle =>
    cases called
    exact .polled handle
  | _ =>
    cases called
    exact .nothing

theorem Effect.ok (effect : Effect s event s') (ok : s.Ok running asked) : s'.Ok running asked := by
  cases effect with
  | nothing | drained applied => exact ok
  | spawned closure => exact ok.spawn closure
  | opened capacity => exact ok.setChannels _
  | polled handle => exact ok.wakePoll handle
  | progress wakes applied => exact (ok.setChannels _).wakeAll

/-- Suspending a fiber parks it, on a host operation if that is what it waits for. -/
theorem suspend_park {env : Env} {id : ℕ} {request : ParkRequest} (suspended : suspend env s id request = some s') :
    ∃ vstack frames, frames ≠ [] ∧ (s.park id vstack frames request = some s' ∨
      ∃ finish, request = .await finish ∧ s' = s.parkIo id vstack frames finish) := by
  rw [suspend] at suspended
  split_ifs at suspended
  · exact ⟨_, _, by simp, .inl suspended⟩
  · refine ⟨env.below ++ [.unit], env.frames ++ [env.frame], by simp, ?_⟩
    cases request with
    | await finish =>
      cases suspended
      exact .inr ⟨finish, rfl, rfl⟩
    | _ => exact .inl suspended

theorem suspend_ok {env : Env} {id : ℕ} {request : ParkRequest} (ok : s.Ok (some id) asked)
    (suspended : suspend env s id request = some s') : s'.Ok none (Function.update asked id (some request)) := by
  obtain ⟨vstack, frames, resumable, parked | ⟨finish, rfl, rfl⟩⟩ := suspend_park suspended
  · exact ok.park resumable parked
  · exact ok.parkIo resumable

end

namespace Machine

variable {finish : IoFinish → List UInt8 → Option Value} {m m' : Machine} {seen : Observation}

/-- The steps of the driver. -/
inductive Move (finish : IoFinish → List UInt8 → Option Value) (m : Machine) : Observation → Machine → Prop
  | answered {id : ℕ} {call : Call} {env : Env} {answer : Answer} {s : Scheduler} (runs : m.phase = .running id)
      (ran : call.run env m.sched = some (.ret answer, s)) :
      Move finish m (.called id call (.ret answer))
        ({ m with sched := s }.setControl id { m.control id with retry := none })
  | trapped {id : ℕ} {call : Call} {env : Env} {s : Scheduler} (runs : m.phase = .running id)
      (ran : call.run env m.sched = some (.closedChannel, s)) :
      Move finish m (.called id call .closedChannel) { m with sched := s, phase := .ended .trap }
  | parked {id : ℕ} {call : Call} {env : Env} {request : ParkRequest} {s s' : Scheduler}
      (runs : m.phase = .running id) (ordinary : call.isSelectPark = false)
      (ran : call.run env m.sched = some (.park request, s)) (suspended : suspend env s id request = some s') :
      Move finish m (.called id call (.park request)) ({ m with sched := s', phase := .idle }.setControl id
        ⟨if request.retries then some call else none, some (call, request), (m.control id).selects⟩)
  | selectParked {id : ℕ} {env : Env} {request : ParkRequest} {s' : Scheduler} {select : Select} {outer : List Select}
      (runs : m.phase = .running id) (selects : (m.control id).selects = select :: outer)
      (passed : select.current = none)
      (ran : (Call.selectPark select.handles select.deadline).run env m.sched = some (.park request, m.sched))
      (suspended : suspend env m.sched id request = some s') :
      Move finish m (.called id (.selectPark select.handles select.deadline) (.park request))
        ({ m with sched := s', phase := .idle }.setControl id ⟨if request.retries then
            some (.selectPark select.handles select.deadline) else none,
          some (.selectPark select.handles select.deadline, request), Select.start select.sources :: outer⟩)
  | selectBegun {id : ℕ} (sources : List Source) (runs : m.phase = .running id) :
      Move finish m .silent (m.setControl id
        { m.control id with selects := Select.start sources :: (m.control id).selects })
  | selectSkipped {id : ℕ} {env : Env} {source : Source} {select : Select} {outer : List Select}
      (runs : m.phase = .running id) (selects : (m.control id).selects = select :: outer)
      (method : select.current = some (source, true)) (asleep : source.isReady env m.sched = some false) :
      Move finish m .silent (m.setControl id
        { m.control id with selects := { select with position := select.position + 1 } :: outer })
  | selectReturned {id : ℕ} {env : Env} {source : Source} {select : Select} {outer : List Select}
      (runs : m.phase = .running id) (selects : (m.control id).selects = select :: outer)
      (method : select.current = some (source, true)) (awake : source.isReady env m.sched = some true) :
      Move finish m (.selected id select.position) (m.setControl id { m.control id with selects := outer })
  | selectCollected {id : ℕ} {source : Source} {select : Select} {outer : List Select} (answer : SelectSource)
      (runs : m.phase = .running id) (selects : (m.control id).selects = select :: outer)
      (method : select.current = some (source, false)) :
      Move finish m .silent (m.setControl id { m.control id with selects :=
        { select.collect (source.waitsFor answer) with position := select.position + 1 } :: outer })
  | finished {id : ℕ} (value : Value) (runs : m.phase = .running id) (outermost : (m.control id).selects = []) :
      Move finish m .silent { m with
        sched := m.sched.complete id value
        phase := if id = mainFiber then .ended (.returned value) else .idle }
  | resumed {id : ℕ} {state : FiberState} {s : Scheduler} (idles : m.phase = .idle)
      (picked : m.sched.nextReady = some (id, state, s)) (resumable : Resumable state) :
      Move finish m (.resumed id) { m with sched := s, phase := .running id }
  | corrupt {id : ℕ} {state : FiberState} {s : Scheduler} (idles : m.phase = .idle)
      (picked : m.sched.nextReady = some (id, state, s)) (unfit : ¬ Resumable state) :
      Move finish m .silent { m with sched := s, phase := .ended .trap }
  | woken {now : ℕ} {sockets : List Int64} {completions : List (ℕ × List UInt8)} {s : Scheduler}
      {delivered : List (ℕ × Value)} (idles : m.phase = .idle)
      (delivers : deliverCompletions finish (sockets.foldl Scheduler.wakePoll m.sched) completions =
        some (some (s, delivered))) :
      Move finish m (.delivered delivered) { m with sched := s.wakeDueTimers now }
  | failed (idles : m.phase = .idle) : Move finish m .silent { m with phase := .ended .trap }
  | stopped (idles : m.phase = .idle) (ready : m.sched.nextReady = none)
      (polls : m.sched.pollBlocked.entries.isEmpty = true) (io : m.sched.ioBlocked = 0)
      (timers : m.sched.earliestDeadline = none) :
      Move finish m .silent { m with
        phase := .ended (if m.sched.blocked.isEmpty then .returned .unit else .deadlock) }

theorem callNative_move {id : ℕ} {call : Call} {env : Env} (runs : m.phase = .running id)
    (ordinary : call.isSelectPark = false)
    (called : m.callNative id call env = some (m', seen)) : Move finish m seen m' := by
  obtain ⟨⟨reply, s⟩, ran, replied⟩ := Option.bind_eq_some_iff.mp called
  cases reply with
  | ret answer =>
    cases replied
    exact .answered runs ran
  | closedChannel =>
    cases replied
    exact .trapped runs ran
  | park request =>
    obtain ⟨parked, suspended, replied⟩ := Option.bind_eq_some_iff.mp replied
    cases replied
    exact .parked runs ordinary ran suspended

theorem advance_move {id : ℕ} {env : Env} {answer : SelectSource} (runs : m.phase = .running id)
    (advanced : m.advance id env answer = some (m', seen)) : Move finish m seen m' := by
  rw [Machine.advance] at advanced
  cases selects : (m.control id).selects with
  | nil => simp [selects] at advanced
  | cons select outer =>
    simp only [selects] at advanced
    cases method : select.current with
    | none =>
      simp only [method] at advanced
      rw [callNative] at advanced
      obtain ⟨⟨reply, s⟩, ran, replied⟩ := Option.bind_eq_some_iff.mp advanced
      cases ran
      obtain ⟨parked, suspended, replied⟩ := Option.bind_eq_some_iff.mp replied
      cases replied
      have control (s : Scheduler) (first second : Control) :
          ({ m.setControl id first with sched := s, phase := .idle } : Machine).setControl id second =
            ({ m with sched := s, phase := .idle } : Machine).setControl id second := by
        simp [setControl]
      rw [control]
      have same : (m.setControl id { m.control id with selects := Select.start select.sources :: outer }).control id =
          { m.control id with selects := Select.start select.sources :: outer } := by simp [setControl]
      rw [same]
      exact .selectParked runs selects method rfl suspended
    | some current =>
      obtain ⟨source, asks⟩ := current
      cases asks with
      | true =>
        simp only [method] at advanced
        obtain ⟨ready, asked, advanced⟩ := Option.bind_eq_some_iff.mp advanced
        cases ready with
        | true =>
          cases advanced
          exact .selectReturned runs selects method asked
        | false =>
          cases advanced
          exact .selectSkipped runs selects method asked
      | false =>
        simp only [method] at advanced
        cases advanced
        exact .selectCollected answer runs selects method

theorem wakeExternal_move {now : ℕ} {sockets : List Int64} {completions : List (ℕ × List UInt8)} (idles : m.phase = .idle)
    (woken : m.wakeExternal finish now sockets completions = some (m', seen)) : Move finish m seen m' := by
  obtain ⟨result, delivers, woken⟩ := Option.bind_eq_some_iff.mp woken
  cases result with
  | none =>
    cases woken
    exact .failed idles
  | some result =>
    cases woken
    exact .woken idles delivers

theorem idle_move {now : ℕ} {sockets : List Int64} {completions : List (ℕ × List UInt8)} (idles : m.phase = .idle)
    (turned : m.idle finish now sockets completions = some (m', seen)) : Move finish m seen m' := by
  rw [Machine.idle] at turned
  cases picked : m.sched.nextReady with
  | some next =>
    obtain ⟨id, state, s⟩ := next
    rw [picked] at turned
    cases state with
    | notStarted closure =>
      cases turned
      exact .resumed idles picked trivial
    | suspended vstack frames =>
      cases frames with
      | nil =>
        cases turned
        exact .corrupt idles picked (by simp [Resumable])
      | cons frame frames =>
        cases turned
        exact .resumed idles picked (by simp [Resumable])
    | running =>
      cases turned
      exact .corrupt idles picked (by simp [Resumable])
    | done value =>
      cases turned
      exact .corrupt idles picked (by simp [Resumable])
  | none =>
    simp only [picked] at turned
    by_cases polls : (!m.sched.pollBlocked.entries.isEmpty) = true
    · exact wakeExternal_move idles (by simpa only [if_pos polls] using turned)
    by_cases io : 0 < m.sched.ioBlocked
    · exact wakeExternal_move idles (by simpa only [if_neg polls, if_pos io] using turned)
    cases earliest : m.sched.earliestDeadline with
    | some deadline =>
      exact wakeExternal_move idles (by simpa only [if_neg polls, if_neg io, earliest] using turned)
    | none =>
      simp only [if_neg polls, if_neg io, earliest] at turned
      cases turned
      exact .stopped idles picked (by simpa using polls) (Nat.eq_zero_of_not_pos io) earliest

/-- Every step of the driver is one of the moves. -/
theorem step_move {event : Event} (stepped : m.step finish event = some (m', seen)) : Move finish m seen m' := by
  unfold Machine.step at stepped
  cases phase : m.phase with
  | ended outcome => simp [phase] at stepped
  | idle =>
    cases event with
    | idle now sockets completions => exact idle_move phase (by simpa [phase] using stepped)
    | _ => simp [phase] at stepped
  | running id =>
    cases event with
    | call call env =>
      simp only [phase] at stepped
      split_ifs at stepped with next
      exact callNative_move phase (by simpa using (Bool.and_eq_true_iff.mp next).2) stepped
    | select sources =>
      simp only [phase] at stepped
      split_ifs at stepped
      cases stepped
      exact .selectBegun sources phase
    | advance env answer =>
      simp only [phase] at stepped
      split_ifs at stepped
      exact advance_move phase stepped
    | «return» value =>
      simp only [phase] at stepped
      split_ifs at stepped with may main
      all_goals
        have outermost := List.isEmpty_iff.mp (Bool.and_eq_true_iff.mp may).2
        cases stepped
        simpa [main] using Move.finished value phase outermost
    | idle now sockets completions => simp [phase] at stepped

/-! ## The bookkeeping -/

section

variable {s s' : Scheduler} {running : Option ℕ} {asked : ℕ → Option ParkRequest}

/-- A delivery of completions is a sequence of single ones. -/
theorem deliverCompletions_induct (inv : Scheduler → List (ℕ × Value) → Prop)
    {completions : List (ℕ × List UInt8)} {delivered : List (ℕ × Value)}
    (done : deliverCompletions finish s completions = some (some (s', delivered))) (base : inv s [])
    (deliver : ∀ s id op payload value taken s' past, inv s past → s.takePending id = some (op, taken) →
      finish op payload = some value → taken.deliver id value = some s' → inv s' (past ++ [(id, value)])) :
    inv s' delivered := by
  suffices general : ∀ past, inv s past → inv s' (past ++ delivered) from general [] base
  clear base
  induction completions generalizing s delivered with
  | nil =>
    cases done
    intro past here
    simpa using here
  | cons completion rest ih =>
    intro past here
    obtain ⟨id, payload⟩ := completion
    obtain ⟨⟨op, taken⟩, takes, done⟩ := Option.bind_eq_some_iff.mp done
    cases finished : finish op payload with
    | none => simp [finished] at done
    | some value =>
      simp only [finished] at done
      obtain ⟨after, delivers, done⟩ := Option.bind_eq_some_iff.mp done
      obtain ⟨result, continued, done⟩ := Option.bind_eq_some_iff.mp done
      cases result with
      | none => cases done
      | some result =>
        cases done
        simpa using ih continued _ (deliver _ _ _ _ _ _ _ _ here takes finished delivers)

theorem wakePolls_ok {sockets : List Int64} (ok : s.Ok running asked) :
    (sockets.foldl Scheduler.wakePoll s).Ok running asked := by
  induction sockets generalizing s with
  | nil => exact ok
  | cons handle rest ih => exact ih (ok.wakePoll handle)

end

/-- What each fiber asked for at its last park. -/
def asked (m : Machine) (id : ℕ) : Option ParkRequest := (m.control id).parked.map Prod.snd

/-- Which fiber runs in a phase; a trap leaves the running one where it was. -/
def Runs : Phase → Option ℕ → Prop
  | .running id, running => running = some id
  | .ended .trap, _ => True
  | _, running => running = none

/-- The bookkeeping of a machine. -/
def Ok (m : Machine) : Prop := ∃ running, m.sched.Ok running m.asked ∧ Runs m.phase running

theorem asked_setControl (m : Machine) (id : ℕ) (control : Control) :
    (m.setControl id control).asked = Function.update m.asked id (control.parked.map Prod.snd) := by
  funext i
  by_cases same : i = id
  · subst same
    simp [asked, setControl]
  · simp [asked, setControl, same]

/-- A change of control that leaves the last park alone. -/
theorem asked_setControl_same {id : ℕ} {control : Control} (same : control.parked = (m.control id).parked) :
    (m.setControl id control).asked = m.asked := by
  rw [asked_setControl, same]
  exact Function.update_eq_self id m.asked

theorem Ok.running {id : ℕ} (ok : m.Ok) (runs : m.phase = .running id) : m.sched.Ok (some id) m.asked := by
  obtain ⟨running, ok, phase⟩ := ok
  rw [runs] at phase
  exact phase ▸ ok

theorem Ok.idle (ok : m.Ok) (idles : m.phase = .idle) : m.sched.Ok none m.asked := by
  obtain ⟨running, ok, phase⟩ := ok
  rw [idles] at phase
  exact phase ▸ ok

theorem Ok.setControl {id : ℕ} {control : Control} (ok : m.Ok) (same : control.parked = (m.control id).parked) :
    (m.setControl id control).Ok := by
  obtain ⟨running, ok, phase⟩ := ok
  exact ⟨running, by rw [asked_setControl_same same]; exact ok, phase⟩

theorem Ok.move (ok : m.Ok) (move : Move finish m seen m') : m'.Ok := by
  cases move with
  | answered runs ran =>
    refine Ok.setControl (m := { m with sched := _ }) ⟨_, (Call.run_effect 0 ran).ok (ok.running runs), ?_⟩ rfl
    rw [runs]
    rfl
  | trapped runs ran => exact ⟨_, (Call.run_effect 0 ran).ok (ok.running runs), trivial⟩
  | parked runs ordinary ran suspended =>
    refine ⟨none, ?_, rfl⟩
    rw [asked_setControl]
    exact suspend_ok ((Call.run_effect 0 ran).ok (ok.running runs)) suspended
  | selectParked runs selects passed ran suspended =>
    refine ⟨none, ?_, rfl⟩
    rw [asked_setControl]
    exact suspend_ok (ok.running runs) suspended
  | selectBegun sources runs => exact ok.setControl rfl
  | selectSkipped runs selects method asleep => exact ok.setControl rfl
  | selectReturned runs selects method awake | selectCollected answer runs selects method => exact ok.setControl rfl
  | finished value runs outermost =>
    refine ⟨none, (ok.running runs).complete value, ?_⟩
    dsimp only
    split_ifs <;> rfl
  | resumed idles picked resumable => exact ⟨_, ((ok.idle idles).nextReady picked).1, rfl⟩
  | corrupt idles picked unfit => exact absurd ((ok.idle idles).nextReady picked).2 unfit
  | woken idles delivers =>
    have after := deliverCompletions_induct (fun s _ => s.Ok none m.asked) delivers (wakePolls_ok (ok.idle idles))
      fun s id op payload value taken s' past ok takes finished delivers => ok.deliver takes delivers
    exact ⟨none, after.wakeDueTimers _, idles ▸ rfl⟩
  | failed idles => exact ⟨none, ok.idle idles, trivial⟩
  | stopped idles ready polls io timers =>
    refine ⟨none, ok.idle idles, ?_⟩
    dsimp only
    split_ifs <;> rfl

theorem initial_ok : Machine.initial.Ok := by
  refine ⟨some mainFiber, ⟨⟨fun id => ?_, List.nodup_nil⟩, fun id fiber found => ?_, fun id w listed => ?_,
    fun id current => ?_, fun handle waiters found => ?_, rfl⟩, rfl⟩
  · cases id <;> simp [initial, Scheduler.new, freshFiber]
  · cases id with
    | zero =>
      cases found
      exact .running (fun w => by cases w <;> simp [Listed, initial, Scheduler.new, waiters]) rfl
    | succ id => simp [initial] at found
  · cases w <;> simp [Listed, initial, Scheduler.new, waiters] at listed
  · cases current
    exact Nat.zero_lt_one
  · simp [initial, Scheduler.new] at found

/-- The bookkeeping holds after every run. -/
theorem run_ok {events : List Event} {observed : List Observation}
    (ran : (driveMachine finish).run events = some (m, observed)) : m.Ok :=
  Mealy.run_invariant (fun _ m => m.Ok) initial_ok
    (fun _ _ _ _ _ ok stepped => ok.move (step_move stepped)) ran

end Machine

/-- A call made at time 0 from a function's first instruction. -/
def firstEnv : Env := ⟨0, 0, false, [], [], [], ⟨0, 1, 0⟩⟩

end Thera.Runtime
