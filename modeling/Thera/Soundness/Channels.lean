import Thera.Proofs.Runtime.Drive

/-! # Channels are lossless queues

Seen through its answers alone, a run of the driver is a run of a table of bounded queues: an operation
that parks leaves no trace there, however often it is retried. What the queues do with the values is
then a matter of the table.
-/

namespace Thera.Runtime

open Scheduler

/-! ## The table of queues -/

/-- The runs of a table of channels. -/
def chanTable : Mealy (List Chan) ChanEvent ChanEvent where
  init := []
  step channels event := (event.apply channels).map (·, event)

/-- The values channel `id` accepted, in order. -/
def acceptedOn (id : ℕ) (history : List ChanEvent) : List Value :=
  history.filterMap fun
    | .accepted other value => if other = id then some value else none
    | _ => none

/-- The values receives from channel `id` returned, in order. -/
def receivedOn (id : ℕ) (history : List ChanEvent) : List Value :=
  history.filterMap fun
    | .received other value => if other = id then some value else none
    | _ => none

/-- What the past events say about a channel. -/
structure Recorded (past : List ChanEvent) (id : ℕ) (ch : Chan) : Prop where
  fifo : acceptedOn id past = receivedOn id past ++ ch.buffer
  bounded : ch.buffer.length ≤ ch.capacity
  capacity : ∃ capacity, .opened id capacity ∈ past ∧ ch.capacity = max capacity 1
  closed : ch.closed = true ↔ .closed id ∈ past

/-- What the past must be like when an event happens. -/
def Timely (past : List ChanEvent) : ChanEvent → Prop
  | .accepted id _ => .closed id ∉ past
  | .drained id => .closed id ∈ past ∧ receivedOn id past = acceptedOn id past
  | _ => True

/-- What the past events say about all channels. -/
structure History (past : List ChanEvent) (channels : List Chan) : Prop where
  recorded : ∀ id ch, channels[id]? = some ch → Recorded past id ch
  known : ∀ event ∈ past, event.on < channels.length
  timely : ∀ before event after, past = before ++ event :: after → Timely before event

section

variable {past : List ChanEvent} {event : ChanEvent} {channels channels' : List Chan} {id : ℕ} {ch ch' : Chan}

@[simp] theorem acceptedOn_append (id : ℕ) (past later : List ChanEvent) :
    acceptedOn id (past ++ later) = acceptedOn id past ++ acceptedOn id later := List.filterMap_append ..

@[simp] theorem receivedOn_append (id : ℕ) (past later : List ChanEvent) :
    receivedOn id (past ++ later) = receivedOn id past ++ receivedOn id later := List.filterMap_append ..

@[simp] theorem acceptedOn_accepted (id : ℕ) (value : Value) : acceptedOn id [.accepted id value] = [value] := by
  simp [acceptedOn]

@[simp] theorem receivedOn_received (id : ℕ) (value : Value) : receivedOn id [.received id value] = [value] := by
  simp [receivedOn]

theorem acceptedOn_other (others : ∀ event ∈ past, event.on ≠ id) : acceptedOn id past = [] := by
  refine List.filterMap_eq_nil_iff.mpr fun event member => ?_
  have other := others event member
  cases event with
  | accepted => exact if_neg other
  | _ => rfl

theorem receivedOn_other (others : ∀ event ∈ past, event.on ≠ id) : receivedOn id past = [] := by
  refine List.filterMap_eq_nil_iff.mpr fun event member => ?_
  have other := others event member
  cases event with
  | received => exact if_neg other
  | _ => rfl

theorem Recorded.frame (recorded : Recorded past id ch) (other : event.on ≠ id) : Recorded (past ++ [event]) id ch := by
  obtain ⟨fifo, bounded, ⟨capacity, opened, width⟩, closed⟩ := recorded
  have others : ∀ next ∈ [event], next.on ≠ id := by simpa using other
  refine ⟨?_, bounded, ⟨capacity, List.mem_append_left _ opened, width⟩, ?_⟩
  · simpa [acceptedOn_other others, receivedOn_other others] using fifo
  · rw [closed, List.mem_append, or_iff_left]
    intro here
    exact others _ here rfl

section

variable (history : History past channels)

include history

/-- The next event happens in time. -/
theorem History.timely_snoc (timely : Timely past event) (before : List ChanEvent) (next : ChanEvent)
    (after : List ChanEvent) (split : past ++ [event] = before ++ next :: after) : Timely before next := by
  rcases List.eq_nil_or_concat after with rfl | ⟨after, last, rfl⟩
  · obtain ⟨rfl, same⟩ := List.append_inj' split rfl
    cases same
    exact timely
  · rw [List.concat_eq_append, ← List.cons_append, ← List.append_assoc] at split
    exact history.timely before next after (List.append_inj' split rfl).1

/-- An event that changes one channel. -/
theorem History.update (on : event.on = id) (there : channels[id]? = some ch)
    (changed : Recorded (past ++ [event]) id ch') (timely : Timely past event) :
    History (past ++ [event]) (channels.set id ch') := by
  have bound := (List.getElem?_eq_some_iff.mp there).1
  refine ⟨fun other found here => ?_, fun next member => ?_, history.timely_snoc timely⟩
  · by_cases same : id = other
    · subst same
      rw [List.getElem?_set_self bound] at here
      cases here
      exact changed
    · rw [List.getElem?_set_ne same] at here
      exact (history.recorded other found here).frame (on ▸ same)
  · rw [List.length_set]
    rcases List.mem_append.mp member with old | new
    · exact history.known next old
    · obtain rfl := List.mem_singleton.mp new
      exact on ▸ bound

theorem History.opened (capacity : ℕ) :
    History (past ++ [.opened channels.length capacity]) (channels ++ [⟨[], max capacity 1, false⟩]) := by
  have absent (event : ChanEvent) (member : event ∈ past) : event.on ≠ channels.length :=
    Nat.ne_of_lt (history.known event member)
  refine ⟨fun id found here => ?_, fun next member => ?_, history.timely_snoc trivial⟩
  · obtain old | ⟨rfl, rfl⟩ := List.getElem?_concat_iff.mp here
    · exact (history.recorded id found old).frame (Nat.ne_of_gt (List.getElem?_eq_some_iff.mp old).1)
    · refine ⟨?_, Nat.zero_le _, ⟨capacity, by simp, rfl⟩, ?_⟩
      · rw [acceptedOn_append, receivedOn_append, acceptedOn_other absent, receivedOn_other absent]
        rfl
      · simpa using fun member => absent _ member rfl
  · rw [List.length_append, List.length_singleton]
    rcases List.mem_append.mp member with old | new
    · exact Nat.lt_succ_of_lt (history.known next old)
    · obtain rfl := List.mem_singleton.mp new
      exact Nat.lt_succ_self _

/-- Every event keeps the history. -/
theorem History.apply (applied : event.apply channels = some channels') :
    History (past ++ [event]) channels' := by
  cases event with
  | opened id capacity =>
    simp only [ChanEvent.apply] at applied
    split_ifs at applied with fresh
    cases applied
    subst fresh
    exact history.opened capacity
  | accepted id value =>
    obtain ⟨ch, there, applied⟩ := Option.bind_eq_some_iff.mp applied
    split_ifs at applied with may
    cases applied
    simp only [Bool.and_eq_true, Bool.not_eq_eq_eq_not, Bool.not_true, decide_eq_true_eq] at may
    obtain ⟨fifo, bounded, ⟨capacity, opened, width⟩, closed⟩ := history.recorded id ch there
    refine history.update rfl there ⟨?_, ?_, ⟨capacity, List.mem_append_left _ opened, width⟩, ?_⟩ ?_
    · have none : receivedOn id [.accepted id value] = [] := rfl
      simp [fifo, none]
    · rw [List.length_append, List.length_singleton]
      exact may.2
    · simpa using closed
    · simpa [Timely, may.1] using closed
  | received id value =>
    obtain ⟨ch, there, applied⟩ := Option.bind_eq_some_iff.mp applied
    split_ifs at applied with first
    cases applied
    obtain ⟨fifo, bounded, ⟨capacity, opened, width⟩, closed⟩ := history.recorded id ch there
    obtain ⟨rest, buffer⟩ := List.head?_eq_some_iff.mp first
    refine history.update rfl there ⟨?_, ?_, ⟨capacity, List.mem_append_left _ opened, width⟩, ?_⟩ trivial
    · have none : acceptedOn id [.received id value] = [] := rfl
      simp [fifo, buffer, none]
    · exact Nat.le_trans (by simp) bounded
    · simpa using closed
  | drained id =>
    obtain ⟨ch, there, applied⟩ := Option.bind_eq_some_iff.mp applied
    split_ifs at applied with may
    cases applied
    simp only [Bool.and_eq_true, List.isEmpty_iff] at may
    obtain ⟨fifo, bounded, ⟨capacity, opened, width⟩, closed⟩ := history.recorded id ch there
    have drained : receivedOn id past = acceptedOn id past := by simpa [may.2] using fifo.symm
    have same : channels.set id ch = channels := by
      obtain ⟨bound, rfl⟩ := List.getElem?_eq_some_iff.mp there
      exact List.set_getElem_self bound
    rw [← same]
    refine history.update rfl there ⟨?_, bounded, ⟨capacity, List.mem_append_left _ opened, width⟩, ?_⟩
      ⟨closed.mp may.1, drained⟩
    · rw [acceptedOn_append, receivedOn_append, fifo]
      simp [may.2, acceptedOn, receivedOn]
    · simpa using closed
  | closed id =>
    obtain ⟨ch, there, applied⟩ := Option.bind_eq_some_iff.mp applied
    cases applied
    obtain ⟨fifo, bounded, ⟨capacity, opened, width⟩, closed⟩ := history.recorded id ch there
    refine history.update rfl there ⟨?_, bounded, ⟨capacity, List.mem_append_left _ opened, width⟩, ?_⟩ trivial
    · rw [acceptedOn_append, receivedOn_append, fifo]
      simp [acceptedOn, receivedOn]
    · simp

end

theorem chanTable_history {events history : List ChanEvent} (ran : chanTable.run events = some (channels, history)) :
    History history channels := by
  refine Mealy.run_invariant History ⟨?_, ?_, ?_⟩ ?_ ran
  · simp [chanTable]
  · simp
  · simp
  · intro past channels event channels' seen before stepped
    obtain ⟨after, applied, same⟩ := Option.map_eq_some_iff.mp stepped
    cases same
    exact before.apply applied

end

/-! ## The driver's channels -/

/-- A step of the driver is the table's step for its event, or leaves the channels alone. -/
def Acts (channels channels' : List Chan) : Option ChanEvent → Prop
  | some event => event.apply channels = some channels'
  | none => channels' = channels

theorem wake_channels (s : Scheduler) (ids : List ℕ) : (ids.foldl Scheduler.makeReady s).channels = s.channels := by
  rw [wake_eq]

theorem wakeAll_channels (s : Scheduler) : s.wakeAll.channels = s.channels := wake_channels _ _

theorem wakePoll_channels (s : Scheduler) (handle : Int64) : (s.wakePoll handle).channels = s.channels := by
  rw [wakePoll]
  split
  · exact wake_channels _ _
  · rfl

theorem Effect.acts {s s' : Scheduler} {event : Option ChanEvent} (effect : Effect s event s') :
    Acts s.channels s'.channels event := by
  cases effect with
  | nothing => rfl
  | spawned closure => exact wake_channels _ [_]
  | opened capacity => exact if_pos rfl
  | drained applied => exact applied
  | polled handle => exact wakePoll_channels s handle
  | progress wakes applied =>
    rw [wakeAll_channels]
    exact applied

theorem suspend_channels {s s' : Scheduler} {env : Env} {id : ℕ} {request : ParkRequest}
    (suspended : suspend env s id request = some s') : s'.channels = s.channels := by
  obtain ⟨vstack, frames, -, parked | ⟨finish, rfl, rfl⟩⟩ := suspend_park suspended
  · by_cases yields : request = .yieldReady
    · subst yields
      cases parked
      exact wake_channels _ [id]
    · exact (park_effect yields parked).2.2.2.1
  · rfl

namespace Machine

variable {finish : IoFinish → List UInt8 → Option Value} {m m' : Machine} {seen : Observation}

/-- A parked call is no event: what it would have done is left to the retry. -/
theorem Move.acts (move : Move finish m seen m') (ok : m.Ok) :
    Acts m.sched.channels m'.sched.channels seen.chanEvent := by
  cases move with
  | answered runs ran | trapped runs ran => exact (Call.run_effect _ ran).acts
  | parked runs ordinary ran suspended =>
    have quiet := (Call.run_effect 0 ran).acts
    rw [Observation.chanEvent_unanswered (by simp)] at quiet ⊢
    exact (suspend_channels suspended).trans quiet
  | selectParked runs selects passed ran suspended => exact suspend_channels suspended
  | selectBegun sources runs => rfl
  | selectSkipped runs selects method asleep => rfl
  | selectReturned runs selects method awake | selectCollected answer runs selects method => rfl
  | finished value runs outermost => exact wakeAll_channels _
  | resumed idles picked resumable =>
    obtain ⟨fiber, -, -, -, -, -, -, -, channels, -⟩ := nextReady_effect (ok.idle idles) picked
    exact channels
  | corrupt idles picked unfit => exact absurd ((ok.idle idles).nextReady picked).2 unfit
  | woken idles delivers =>
    have after := deliverCompletions_induct
      (fun s _ => s.Ok none m.asked ∧ s.channels = m.sched.channels) delivers ⟨wakePolls_ok (ok.idle idles), ?_⟩ ?_
    · exact (wake_channels _ _).trans after.2
    · exact List.foldlRecOn (motive := fun s => s.channels = m.sched.channels) _ _ rfl
        fun s same handle _ => (wakePoll_channels s handle).trans same
    · rintro s id op payload value taken s' past ⟨ok, same⟩ takes - delivers
      obtain ⟨fiber, vstack, frames, -, -, -, -, -, -, channels, -⟩ := deliver_effect ok takes delivers
      exact ⟨ok.deliver takes delivers, channels.trans same⟩
  | failed idles | stopped idles ready polls io timers => rfl

/-- Through its answers, every run is a run of the table. -/
theorem run_refines_chanTable {events : List Event} {observed : List Observation}
    (ran : (driveMachine finish).run events = some (m, observed)) :
    chanTable.run (observed.filterMap Observation.chanEvent) =
      some (m.sched.channels, observed.filterMap Observation.chanEvent) := by
  refine (Mealy.run_invariant (fun past m => m.Ok ∧ chanTable.run (past.filterMap Observation.chanEvent) =
    some (m.sched.channels, past.filterMap Observation.chanEvent)) ⟨initial_ok, rfl⟩ ?_ ran).2
  rintro past m event m' seen ⟨ok, before⟩ stepped
  have move := step_move stepped
  refine ⟨ok.move move, ?_⟩
  have acts := move.acts ok
  rw [List.filterMap_append]
  cases happened : seen.chanEvent with
  | none =>
    rw [happened] at acts
    rw [show m'.sched.channels = m.sched.channels from acts]
    simpa [happened] using before
  | some event =>
    rw [happened] at acts
    have applied : chanTable.step m.sched.channels event = some (m'.sched.channels, event) := by
      simp [chanTable, show event.apply m.sched.channels = some m'.sched.channels from acts]
    simpa [happened] using Mealy.run_snoc before applied

end Machine

/-- For every channel and every run, whatever the interleaving: the values received are the first of the
values accepted, in order, and the rest is in the buffer, which never exceeds the channel's capacity; a
receive returns `None` only after a close and with every accepted value received; after a close nothing
is accepted. -/
theorem channels_are_fifo {finish : IoFinish → List UInt8 → Option Value} {events : List Event} {m : Machine}
    {observed : List Observation} (ran : (driveMachine finish).run events = some (m, observed)) (id : ℕ) (ch : Chan)
    (there : m.sched.channels[id]? = some ch) :
    acceptedOn id (observed.filterMap Observation.chanEvent) =
      receivedOn id (observed.filterMap Observation.chanEvent) ++ ch.buffer ∧
    receivedOn id (observed.filterMap Observation.chanEvent) <+: acceptedOn id (observed.filterMap Observation.chanEvent) ∧
    (∃ capacity, .opened id capacity ∈ observed.filterMap Observation.chanEvent ∧
      ch.buffer.length ≤ max capacity 1) ∧
    ∀ past seen later, observed = past ++ seen :: later →
      (seen.chanEvent = some (.drained id) → .closed id ∈ past.filterMap Observation.chanEvent ∧
        receivedOn id (past.filterMap Observation.chanEvent) = acceptedOn id (past.filterMap Observation.chanEvent)) ∧
      ∀ value, seen.chanEvent = some (.accepted id value) → .closed id ∉ past.filterMap Observation.chanEvent := by
  have history := chanTable_history (Machine.run_refines_chanTable ran)
  obtain ⟨fifo, bounded, ⟨capacity, opened, width⟩, -⟩ := history.recorded id ch there
  refine ⟨fifo, ⟨ch.buffer, fifo.symm⟩, ⟨capacity, opened, width ▸ bounded⟩, fun past seen later split => ?_⟩
  have timely (event : ChanEvent) (happened : seen.chanEvent = some event) :
      Timely (past.filterMap Observation.chanEvent) event := by
    refine history.timely _ event (later.filterMap Observation.chanEvent) ?_
    rw [split, List.filterMap_append, List.filterMap_cons_some happened]
  exact ⟨fun drained => timely _ drained, fun value accepted => timely _ accepted⟩

/-- One fiber sends two values on a channel of capacity 1 and closes it, the other drains it; each blocks. -/
def pingPong : List Event :=
  [.call (.channelNew 0) firstEnv, .call (.fiberSpawn .unit) firstEnv, .call (.channelReceive 0) firstEnv, .idle 0 [] [],
    .call (.channelSend 0 (.int 1)) firstEnv, .call (.channelSend 0 (.int 2)) firstEnv, .idle 0 [] [],
    .call (.channelReceive 0) firstEnv, .call (.channelReceive 0) firstEnv, .idle 0 [] [],
    .call (.channelSend 0 (.int 2)) firstEnv, .call (.channelClose 0) firstEnv, .return .unit, .idle 0 [] [],
    .call (.channelReceive 0) firstEnv, .call (.channelReceive 0) firstEnv]

theorem pingPong_is_fifo : ∃ m observed ch, (driveMachine fun _ _ => none).run pingPong = some (m, observed) ∧
    m.sched.channels[0]? = some ch ∧
    acceptedOn 0 (observed.filterMap Observation.chanEvent) = [.int 1, .int 2] ∧
    receivedOn 0 (observed.filterMap Observation.chanEvent) = [.int 1, .int 2] ∧
    acceptedOn 0 (observed.filterMap Observation.chanEvent) =
      receivedOn 0 (observed.filterMap Observation.chanEvent) ++ ch.buffer := by
  have ran : (driveMachine fun _ _ => none).run pingPong = some (_, _) := rfl
  exact ⟨_, _, _, ran, rfl, rfl, rfl, (channels_are_fifo ran 0 _ rfl).1⟩

end Thera.Runtime
