import Thera.Proofs.Runtime.Drive

/-! # A deadlock verdict is truthful

Whatever can enable a blocked operation wakes every blocked fiber, so a fiber that stays blocked waits
for something that has not happened. For `select` this also needs that nothing happens between its
first probe and its park: the methods of a custom source must neither suspend the fiber nor act on a
channel. When the driver then finds nothing to run and nothing to wait for, every unfinished fiber is
parked on a disabled operation, and the main fiber is one of them.
-/

namespace Thera.Runtime

open Scheduler

/-! ## Disabled operations -/

/-- The channel or fiber of a source would make its user wait. -/
def Source.Asleep (s : Scheduler) : Source → Prop
  | fiber id => s.result (asUsize id) = none
  | channel id => ∃ ch, s.channels[asUsize id]? = some ch ∧ ch.buffer = [] ∧ ch.closed = false
  | timer _ | stream _ | custom => True

/-- The call would park again: a receive from an open empty channel, a send to an open full one, a
join of a fiber without a result, a `select` none of whose channels and fibers is ready. -/
def Call.Disabled (s : Scheduler) (selects : List Select) : Call → Prop
  | channelReceive id => ∃ ch, s.channels[asUsize id]? = some ch ∧ ch.buffer = [] ∧ ch.closed = false
  | channelSend id _ => ∃ ch, s.channels[asUsize id]? = some ch ∧ ch.capacity ≤ ch.buffer.length ∧ ch.closed = false
  | fiberJoin id => s.result (asUsize id) = none
  | selectPark _ _ => ∃ select outer, selects = select :: outer ∧ ∀ source ∈ select.sources, source.Asleep s
  | _ => False

/-- No fiber finished. -/
structure NoneFinished (s s' : Scheduler) : Prop where
  known : s.fibers.length ≤ s'.fibers.length
  unfinished : ∀ id, s.result id = none → s'.result id = none

/-- Nothing that could enable an operation happened: no fiber finished and no channel changed. -/
structure Keeps (s s' : Scheduler) : Prop extends NoneFinished s s' where
  channels : ∀ (id : ℕ) (ch : Chan), s.channels[id]? = some ch → s'.channels[id]? = some ch

variable {s s' : Scheduler}

theorem NoneFinished.trans {s'' : Scheduler} (first : NoneFinished s s') (second : NoneFinished s' s'') :
    NoneFinished s s'' :=
  ⟨Nat.le_trans first.known second.known, fun id none => second.unfinished id (first.unfinished id none)⟩

theorem result_wake (s : Scheduler) (ids : List ℕ) (id : ℕ) : (ids.foldl Scheduler.makeReady s).result id = s.result id := by
  rw [result, result, wake_eq, List.getElem?_mapIdx]
  cases s.fibers[id]? with
  | none => rfl
  | some fiber =>
    obtain ⟨state, _, _, _⟩ := fiber
    cases state <;> rfl

namespace Keeps

variable {s s' s'' : Scheduler}

theorem refl (s : Scheduler) : Keeps s s := ⟨⟨Nat.le_refl _, fun _ none => none⟩, fun _ _ there => there⟩

theorem trans (first : Keeps s s') (second : Keeps s' s'') : Keeps s s'' :=
  ⟨first.toNoneFinished.trans second.toNoneFinished,
    fun id ch there => second.channels id ch (first.channels id ch there)⟩

theorem asleep (keeps : Keeps s s') {source : Source} (asleep : source.Asleep s) : source.Asleep s' := by
  cases source with
  | fiber id => exact keeps.unfinished _ asleep
  | channel id => exact asleep.imp fun ch ⟨there, state⟩ => ⟨keeps.channels _ ch there, state⟩
  | _ => trivial

theorem disabled (keeps : Keeps s s') {selects : List Select} {call : Call} (disabled : call.Disabled s selects) :
    call.Disabled s' selects := by
  cases call with
  | channelReceive id => exact disabled.imp fun ch ⟨there, state⟩ => ⟨keeps.channels _ ch there, state⟩
  | channelSend id value => exact disabled.imp fun ch ⟨there, state⟩ => ⟨keeps.channels _ ch there, state⟩
  | fiberJoin id => exact keeps.unfinished _ disabled
  | selectPark handles deadline =>
    obtain ⟨select, outer, same, sources⟩ := disabled
    exact ⟨select, outer, same, fun source member => keeps.asleep (sources source member)⟩
  | _ => exact disabled

/-- Only the state of a fiber decides whether it has finished. -/
theorem of_fibers (known : s.fibers.length ≤ s'.fibers.length) (channels : s'.channels = s.channels)
    (fibers : ∀ (id : ℕ) (fiber : Fiber) (value : Value), s'.fibers[id]? = some fiber → fiber.state = .done value →
      ∃ old : Fiber, s.fibers[id]? = some old ∧ old.state = .done value) : Keeps s s' := by
  refine ⟨⟨known, fun id none => ?_⟩, fun id ch there => channels ▸ there⟩
  rw [result] at none ⊢
  cases found : s'.fibers[id]? with
  | none => rfl
  | some fiber =>
    cases state : fiber.state with
    | done value =>
      obtain ⟨old, there, finished⟩ := fibers id fiber value found state
      obtain ⟨_, _, _, _⟩ := old
      cases finished
      simp [there] at none
    | _ =>
      obtain ⟨_, _, _, _⟩ := fiber
      cases state
      rfl

theorem set {i : ℕ} {new : Fiber} (channels : s'.channels = s.channels) (fibers : s'.fibers = s.fibers.set i new)
    (running : ∀ value, new.state ≠ .done value) : Keeps s s' := by
  refine of_fibers (by simp [fibers]) channels fun id fiber value found state => ?_
  rw [fibers] at found
  by_cases here : i = id
  · subst here
    have bound : i < s.fibers.length := by simpa using (List.getElem?_eq_some_iff.mp found).1
    rw [List.getElem?_set_self bound] at found
    cases found
    exact absurd state (running value)
  · rw [List.getElem?_set_ne here] at found
    exact ⟨fiber, found, state⟩

theorem wake (fibers : s'.fibers = s.fibers) (channels : s'.channels = s.channels) (ids : List ℕ) :
    Keeps s (ids.foldl Scheduler.makeReady s') := by
  refine ⟨⟨by rw [wake_eq, List.length_mapIdx, fibers], fun id none => ?_⟩, fun id ch there => ?_⟩
  · rw [result_wake, result, fibers]
    exact none
  · rw [wake_eq]
    exact channels ▸ there

theorem wakePoll (s : Scheduler) (handle : Int64) : Keeps s (s.wakePoll handle) := by
  rw [Scheduler.wakePoll]
  cases s.pollBlocked.lookup handle with
  | none => exact .refl s
  | some waiters =>
    have fibers : { s with pollBlocked := s.pollBlocked.erase handle }.fibers = s.fibers := rfl
    exact .wake fibers rfl waiters

theorem wakeAll (s : Scheduler) : Keeps s s.wakeAll := .wake (by rfl) (by rfl) s.blocked

end Keeps

theorem wakePoll_blocked (s : Scheduler) (handle : Int64) : (s.wakePoll handle).blocked = s.blocked := by
  rw [Scheduler.wakePoll]
  split
  · rw [wake_eq]
  · rfl

theorem wakeAll_blocked (s : Scheduler) : s.wakeAll.blocked = [] := by
  rw [wakeAll, wake_eq]

namespace Effect

variable {s s' : Scheduler} {event : Option ChanEvent}

/-- A call that wakes nobody enables nothing. -/
theorem keeps (effect : Effect s event s') (calm : event.any ChanEvent.wakes = false) :
    Keeps s s' ∧ s'.blocked = s.blocked := by
  cases effect with
  | nothing | drained applied => exact ⟨.refl s, rfl⟩
  | spawned closure =>
    have appended : Keeps s { s with fibers := s.fibers ++ [freshFiber (.notStarted closure)] } := by
      refine .of_fibers (by simp) rfl fun id fiber value found state => ?_
      obtain found | ⟨-, rfl⟩ := List.getElem?_concat_iff.mp found
      · exact ⟨fiber, found, state⟩
      · cases state
    exact ⟨appended.trans (.wake rfl rfl [s.fibers.length]), by rw [spawn, makeReady_eq]⟩
  | opened capacity =>
    refine ⟨⟨⟨Nat.le_refl _, fun id none => none⟩, fun id ch there => ?_⟩, rfl⟩
    exact (List.prefix_append _ _).getElem?_some there
  | polled handle => exact ⟨.wakePoll s handle, wakePoll_blocked s handle⟩
  | progress wakes applied => exact absurd (wakes.symm.trans calm) (by decide)

/-- A call enables nothing, or wakes every blocked fiber. -/
theorem noneFinished (effect : Effect s event s') :
    NoneFinished s s' ∧ (event.any ChanEvent.wakes = true → s'.blocked = []) := by
  cases wakes : event.any ChanEvent.wakes with
  | false => exact ⟨(effect.keeps wakes).1.toNoneFinished, by simp⟩
  | true =>
    cases effect with
    | @progress _ channels =>
      have woken := Keeps.wakeAll { s with channels }
      exact ⟨⟨woken.known, woken.unfinished⟩, fun _ => wakeAll_blocked _⟩
    | _ => cases wakes

end Effect

/-- A call that asks for a place among the blocked fibers is disabled, and did nothing. -/
theorem Call.run_blocks {env : Env} {call : Call} {request : ParkRequest} (selects : List Select)
    (ordinary : call.isSelectPark = false) (called : call.run env s = some (.park request, s'))
    (blocks : request.Names .blocked) : s' = s ∧ call.Disabled s selects := by
  cases call with
  | fiberJoin id =>
    rw [run] at called
    split at called
    · cases called
    · next none =>
      cases called
      exact ⟨rfl, none⟩
  | channelSend id value =>
    obtain ⟨⟨outcome, after⟩, sent, replied⟩ := Option.bind_eq_some_iff.mp called
    cases outcome <;> cases replied
    obtain ⟨ch, there, sent⟩ := Option.bind_eq_some_iff.mp sent
    split_ifs at sent with closed room <;> cases sent
    exact ⟨rfl, ch, there, Nat.le_of_not_lt room, by simpa using closed⟩
  | channelReceive id =>
    obtain ⟨⟨outcome, after⟩, received, replied⟩ := Option.bind_eq_some_iff.mp called
    cases outcome <;> cases replied
    obtain ⟨ch, there, received⟩ := Option.bind_eq_some_iff.mp received
    cases buffer : ch.buffer with
    | nil =>
      simp only [buffer] at received
      cases closed : ch.closed <;> simp only [closed] at received <;> cases received
      exact ⟨rfl, ch, there, buffer, closed⟩
    | cons value rest =>
      simp only [buffer] at received
      cases received
  | timeSleepMillis millis =>
    rw [run] at called
    split_ifs at called <;> cases called
    cases blocks
  | socket handle =>
    rw [run] at called
    split_ifs at called <;> cases called
    cases blocks
  | channelClose id =>
    obtain ⟨after, closed, replied⟩ := Option.bind_eq_some_iff.mp called
    cases replied
  | chanIsReady id =>
    obtain ⟨ready, -, replied⟩ := Option.bind_eq_some_iff.mp called
    cases replied
  | selectPark handles deadline => cases ordinary
  | _ => cases called <;> cases blocks

/-! ## Quiet probes -/

/-- Whether a call that ends like this can make a channel ready: an accepted send, or a close. -/
def Call.feeds (call : Call) (reply : Reply) : Bool :=
  match call, reply with
  | channelSend .., .ret _ | channelClose _, .ret _ => true
  | _, _ => false

/-- A call made in a method of a custom source neither suspends its fiber nor feeds a channel. -/
def quietProbes (m : Machine) : Observation → Bool
  | .called id call reply =>
      match (m.control id).selects, reply with
      | [], _ => true
      | _ :: outer, .park _ => call.isSelectPark && outer.isEmpty
      | _ :: _, reply => !call.feeds reply
  | _ => true

/-- Only feeding a channel makes one ready. -/
theorem Call.run_asleep {env : Env} {call : Call} {reply : Reply} (called : call.run env s = some (reply, s'))
    (starves : call.feeds reply = false) {source : Source} (asleep : source.Asleep s) : source.Asleep s' := by
  have effect := run_effect 0 called
  cases wakes : (Observation.called 0 call reply).chanEvent.any ChanEvent.wakes with
  | false => exact (effect.keeps wakes).1.asleep asleep
  | true =>
    cases source with
    | fiber id => exact effect.noneFinished.1.unfinished _ asleep
    | channel id =>
      -- What wakes without feeding is a receive that got a value, so its channel was not asleep.
      obtain ⟨id', value, received⟩ : ∃ id' value, (Observation.called 0 call reply).chanEvent = some (.received id' value) := by
        unfold Observation.chanEvent at wakes ⊢
        split at wakes <;> simp_all [ChanEvent.wakes, feeds]
      obtain ⟨ch, there, empty, opened⟩ := asleep
      rw [received] at effect
      cases effect with
      | progress _ applied =>
        obtain ⟨ch', there', applied⟩ := Option.bind_eq_some_iff.mp applied
        split_ifs at applied with first
        cases applied
        have other : id' ≠ asUsize id := by
          rintro rfl
          cases there.symm.trans there'
          simp [empty] at first
        exact ⟨ch, (Keeps.wakeAll _).channels _ _ ((List.getElem?_set_ne other).trans there), empty, opened⟩
    | _ => trivial

theorem Source.isReady_false (source : Source) {env : Env} (no : source.isReady env s = some false) :
    source.Asleep s := by
  cases source with
  | fiber id => simpa [isReady, Asleep] using no
  | channel id =>
    obtain ⟨ch, there, no⟩ := Option.bind_eq_some_iff.mp no
    exact ⟨ch, there, by simpa using no⟩
  | _ => trivial

namespace Select

variable (select : Select) {source : Source}

theorem current_ready (method : select.current = some (source, true)) :
    select.sources[select.position]? = some source := by
  rw [current] at method
  split at method
  · next found =>
    cases method
    exact found
  · simp at method

theorem current_collect (method : select.current = some (source, false)) : select.sources.length ≤ select.position := by
  by_contra amid
  simp [current, List.getElem?_eq_getElem (Nat.lt_of_not_le amid)] at method

theorem current_none (passed : select.current = none) : select.sources.length ≤ select.position := by
  by_contra amid
  simp [current, List.getElem?_eq_getElem (Nat.lt_of_not_le amid)] at passed

theorem collect_sources (answer : SelectSource) : (select.collect answer).sources = select.sources := by
  cases answer <;> rfl

end Select

/-- A park enables nothing, and blocks at most the parked fiber. -/
theorem suspend_keeps {env : Env} {id : ℕ} {request : ParkRequest} {asked : ℕ → Option ParkRequest}
    (ok : s.Ok (some id) asked) (suspended : suspend env s id request = some s') :
    Keeps s s' ∧ ∀ i ∈ s'.blocked, i ∈ s.blocked ∨ i = id ∧ request.Names .blocked := by
  obtain ⟨there, -⟩ := ok.runningFiber
  obtain ⟨vstack, frames, -, parked | ⟨finish, rfl, rfl⟩⟩ := suspend_park suspended
  · by_cases yields : request = .yieldReady
    · subst yields
      cases parked
      have saved : Keeps s (s.modifyFiber id fun fiber => { fiber with state := .suspended vstack frames }) :=
        .set rfl (modify_eq_set there _) (by simp)
      refine ⟨saved.trans (.wake rfl rfl [id]), fun i member => .inl ?_⟩
      rw [makeReady_eq] at member
      exact member
    · obtain ⟨fibers, -, -, channels, -, listed, -⟩ := park_effect yields parked
      exact ⟨.set channels (fibers.trans (modify_eq_set there _)) (by simp), fun i => (listed i .blocked).mp⟩
  · exact ⟨.set rfl (modify_eq_set there _) (by simp), fun i => .inl⟩

/-! ## Nobody left to run -/

namespace Scheduler

variable {s s' : Scheduler} {running : Option ℕ} {asked : ℕ → Option ParkRequest}

theorem unlist_length (s : Scheduler) (id : ℕ) : (s.unlist id).fibers.length = s.fibers.length := by
  rw [unlist]
  split
  · rfl
  · next sources listed =>
    obtain ⟨polls, dropped, -⟩ := pollDrop_all { s with
      fibers := s.fibers.modify id fun fiber => { fiber with parkSources := none }
      blocked := s.blocked.filter (· ≠ id)
      timers := if sources.timer then s.timers.filter fun timer => timer.2 ≠ id else s.timers } id sources.handles
    exact (congrArg (·.fibers.length) dropped).trans (List.length_modify ..)

theorem Ok.nextReady_none (ok : s.Ok running asked) (none : s.nextReady = none) : s.ready = [] := by
  cases queue : s.ready with
  | nil => rfl
  | cons first rest =>
    obtain ⟨fiber, there, queued⟩ := (ok.flagged first).mp (queue ▸ List.mem_cons_self ..)
    simp only [Scheduler.nextReady, queue] at none
    split at none
    · cases none
    · next missing =>
      have bound := (List.getElem?_eq_some_iff.mp there).1
      rw [List.getElem?_eq_none_iff, unlist_length] at missing
      simp only [modifyFiber, List.length_modify] at missing
      omega

theorem earliestDeadline_none (none : s.earliestDeadline = none) : s.timers = [] := by
  simpa [earliestDeadline] using none

theorem unfinished_of_result {id : ℕ} {fiber : Fiber} (there : s.fibers[id]? = some fiber) (none : s.result id = none)
    (value : Value) : fiber.state ≠ .done value := by
  obtain ⟨state, _, _, _⟩ := fiber
  rintro rfl
  simp [result, there] at none

/-- With nothing queued and no external source to wait for, every unfinished fiber is blocked. -/
theorem Ok.stuck (ok : s.Ok none asked) (ready : s.ready = []) (polls : s.pollBlocked.entries = [])
    (io : s.ioBlocked = 0) (timers : s.timers = []) {id : ℕ} {fiber : Fiber} (there : s.fibers[id]? = some fiber)
    (unfinished : ∀ value, fiber.state ≠ .done value) : id ∈ s.blocked := by
  have unqueued : fiber.queued ≠ true := fun queued => by
    have member := (ok.flagged id).mpr ⟨fiber, there, queued⟩
    simp [ready] at member
  cases ok.fibers id fiber there with
  | notStarted => exact absurd rfl unqueued
  | running unlisted runs => cases runs
  | done value => exact absurd rfl (unfinished value)
  | woken => exact absurd rfl unqueued
  | waiting request vstack frames parked exact_ blocks =>
    refine (exact_ .blocked).mpr ?_
    cases request with
    | blockRetry | multi deadline handles => trivial
    | yieldReady => exact absurd rfl blocks
    | timer deadline =>
      have listed : (deadline, id) ∈ s.timers := (exact_ (.timer deadline)).mpr rfl
      simp [timers] at listed
    | ready handle =>
      have listed : id ∈ s.waiters handle := (exact_ (.poll handle)).mpr rfl
      simp [waiters, AList.lookup, polls] at listed
    | await finish =>
      have counted : 0 < s.ioBlocked := by
        rw [ok.counted]
        exact List.countP_pos_iff.mpr ⟨_, List.mem_of_getElem? there, rfl⟩
      omega

end Scheduler

/-! ## Over runs -/

namespace Machine

variable {quiet : Bool} {finish : IoFinish → List UInt8 → Option Value} {m m' : Machine} {seen : Observation}

/-- A fiber is parked on a disabled operation; for `select` only in a quiet run. -/
def Waits (quiet : Bool) (m : Machine) (id : ℕ) : Prop :=
  ∃ call request, (m.control id).parked = some (call, request) ∧
    ((call.isSelectPark = true → quiet = true) → call.Disabled m.sched (m.control id).selects)

/-- What a phase says about the main fiber, and a deadlock about the rest. -/
def Verdict (s : Scheduler) : Phase → Prop
  | .ended (.returned value) => s.result mainFiber = some value
  | .ended .deadlock => s.result mainFiber = none ∧ s.ready = [] ∧ s.pollBlocked.entries = [] ∧ s.ioBlocked = 0 ∧
      s.timers = []
  | _ => s.result mainFiber = none

/-- No wake-up is lost. -/
structure Alert (quiet : Bool) (m : Machine) : Prop where
  waits : ∀ id ∈ m.sched.blocked, m.Waits quiet id
  /-- What a `select` has probed is still asleep. -/
  probed : quiet = true → ∀ id, ∀ select ∈ (m.control id).selects,
    ∀ source ∈ select.sources.take select.position, source.Asleep m.sched
  /-- Only the running fiber is amid a pass. -/
  passes : quiet = true → ∀ id, ∀ select ∈ (m.control id).selects, 0 < select.position →
    m.phase = .running id ∨ m.phase = .ended .trap
  verdict : Verdict m.sched m.phase
  started : mainFiber < m.sched.fibers.length

variable {id : ℕ} {s : Scheduler}

theorem Waits.mono (waits : m.Waits quiet id) (keeps : Keeps m.sched m'.sched)
    (control : m'.control id = m.control id) : m'.Waits quiet id := by
  obtain ⟨call, request, parked, disabled⟩ := waits
  exact ⟨call, request, control ▸ parked, fun may => control ▸ keeps.disabled (disabled may)⟩

theorem setControl_self (m : Machine) (id : ℕ) (control : Control) : (m.setControl id control).control id = control := by
  simp [setControl]

theorem setControl_other {i : ℕ} (other : i ≠ id) (control : Control) :
    (m.setControl id control).control i = m.control i := by
  simp [setControl, other]

theorem Ok.not_blocked {i : ℕ} (ok : m.Ok) (runs : m.phase = .running id) (blocked : i ∈ m.sched.blocked) : i ≠ id := by
  rintro rfl
  exact (ok.running runs).runningFiber.2 .blocked blocked

section

variable (alert : m.Alert quiet)

include alert

/-- While `id` runs, the other fibers are not amid a pass. -/
theorem Alert.other {i : ℕ} (runs : m.phase = .running id) (still : quiet = true) (other : i ≠ id) {select : Select}
    (member : select ∈ (m.control i).selects) : select.position = 0 := by
  by_contra amid
  rcases alert.passes still i select member (Nat.pos_of_ne_zero amid) with here | trapped
  · rw [runs] at here
    cases here
    exact other rfl
  · rw [runs] at trapped
    cases trapped

/-- A change of the running fiber's `select` calls alone. -/
theorem Alert.setSelects {selects : List Select} (ok : m.Ok) (runs : m.phase = .running id)
    (probed : quiet = true → ∀ select ∈ selects, ∀ source ∈ select.sources.take select.position, source.Asleep m.sched) :
    (m.setControl id { m.control id with selects }).Alert quiet := by
  refine ⟨fun i blocked => (alert.waits i blocked).mono (.refl _) (setControl_other (ok.not_blocked runs blocked) _),
    fun still i select member => ?_, fun still i select member amid => ?_, alert.verdict, alert.started⟩
  · by_cases here : i = id
    · subst here
      rw [setControl_self] at member
      exact probed still select member
    · rw [setControl_other here] at member
      exact alert.probed still i select member
  · by_cases here : i = id
    · exact .inl (here ▸ runs)
    · rw [setControl_other here] at member
      rw [alert.other runs still here member] at amid
      cases amid

/-- No fiber is amid a pass while the driver picks the next one. -/
theorem Alert.idle (idles : m.phase = .idle) (still : quiet = true) {select : Select}
    (member : select ∈ (m.control id).selects) : select.position = 0 := by
  by_contra amid
  rcases alert.passes still id select member (Nat.pos_of_ne_zero amid) with here | trapped
  · rw [idles] at here
    cases here
  · rw [idles] at trapped
    cases trapped

/-- A change of the scheduler between two fibers that enables nothing. -/
theorem Alert.keep {phase : Phase} (idles : m.phase = .idle) (keeps : Keeps m.sched s)
    (fewer : ∀ i ∈ s.blocked, i ∈ m.sched.blocked) (verdict : Verdict s phase) :
    ({ m with sched := s, phase } : Machine).Alert quiet where
  waits i blocked := (alert.waits i (fewer i blocked)).mono keeps rfl
  probed still i select member source probed := keeps.asleep (alert.probed still i select member source probed)
  passes still _ _ member amid := absurd (alert.idle idles still member) (Nat.ne_of_gt amid)
  verdict := verdict
  started := Nat.lt_of_lt_of_le alert.started keeps.known

/-- The running fiber's park: it waits, and is not amid a pass. -/
theorem Alert.park {control : Control} (ok : m.Ok) (runs : m.phase = .running id) (keeps : Keeps m.sched s)
    (blocks : ∀ i ∈ s.blocked, i ∈ m.sched.blocked ∨ i = id ∧ ({ m with sched := s, phase := .idle }.setControl id control).Waits quiet i)
    (passed : quiet = true → ∀ select ∈ control.selects, select.position = 0) :
    ({ m with sched := s, phase := .idle }.setControl id control).Alert quiet := by
  have rewound (still : quiet = true) (i : ℕ) (select : Select)
      (member : select ∈ (({ m with sched := s, phase := .idle } : Machine).setControl id control |>.control i).selects) :
      select.position = 0 := by
    by_cases here : i = id
    · subst here
      rw [setControl_self] at member
      exact passed still select member
    · rw [setControl_other here] at member
      exact alert.other runs still here member
  refine ⟨fun i blocked => ?_, fun still i select member source probed => ?_, fun still i select member amid => ?_, ?_,
    Nat.lt_of_lt_of_le alert.started keeps.known⟩
  · rcases blocks i blocked with before | ⟨rfl, waits⟩
    · exact (alert.waits i before).mono keeps (setControl_other (ok.not_blocked runs before) control)
    · exact waits
  · rw [rewound still i select member, List.take_zero] at probed
    cases probed
  · exact absurd (rewound still i select member) (Nat.ne_of_gt amid)
  · have unfinished := alert.verdict
    rw [runs] at unfinished
    exact keeps.unfinished _ unfinished

theorem Alert.answered {call : Call} {env : Env} {answer : Answer} (ok : m.Ok) (runs : m.phase = .running id)
    (ran : call.run env m.sched = some (.ret answer, s))
    (guard : quiet = true → quietProbes m (.called id call (.ret answer)) = true) :
    ({ m with sched := s }.setControl id { m.control id with retry := none }).Alert quiet := by
  have effect := Call.run_effect id ran
  refine ⟨fun i blocked => ?_, fun still i select member => ?_, fun still i select member amid => ?_, ?_,
    Nat.lt_of_lt_of_le alert.started effect.noneFinished.1.known⟩
  · cases wakes : (Observation.called id call (.ret answer)).chanEvent.any ChanEvent.wakes with
    | false =>
      obtain ⟨keeps, same⟩ := effect.keeps wakes
      have before : i ∈ m.sched.blocked := same ▸ blocked
      exact (alert.waits i before).mono keeps (setControl_other (ok.not_blocked runs before) _)
    | true =>
      change i ∈ s.blocked at blocked
      simp [effect.noneFinished.2 wakes] at blocked
  · intro source probed
    by_cases here : i = id
    · subst here
      rw [setControl_self] at member
      have starves := guard still
      cases selects : (m.control i).selects with
      | nil => simp [selects] at member
      | cons top outer =>
        simp only [quietProbes, selects, Bool.not_eq_eq_eq_not, Bool.not_true] at starves
        exact Call.run_asleep ran starves (alert.probed still i select member source probed)
    · rw [setControl_other here] at member
      rw [alert.other runs still here member, List.take_zero] at probed
      cases probed
  · by_cases here : i = id
    · exact .inl (here ▸ runs)
    · rw [setControl_other here] at member
      exact absurd (alert.other runs still here member) (Nat.ne_of_gt amid)
  · have unfinished := alert.verdict
    change Verdict s m.phase
    rw [runs] at unfinished ⊢
    exact effect.noneFinished.1.unfinished _ unfinished

theorem Alert.finished (ok : m.Ok) (runs : m.phase = .running id) (outermost : (m.control id).selects = [])
    (value : Value) :
    ({ m with sched := m.sched.complete id value,
              phase := if id = mainFiber then .ended (.returned value) else .idle } : Machine).Alert quiet := by
  have rewound (still : quiet = true) (i : ℕ) (select : Select) (member : select ∈ (m.control i).selects) :
      select.position = 0 := by
    by_cases here : i = id
    · subst here
      simp [outermost] at member
    · exact alert.other runs still here member
  have bound := (ok.running runs).current id rfl
  refine ⟨fun i blocked => ?_, fun still i select member source probed => ?_, fun still i select member amid => ?_, ?_, ?_⟩
  · have none : (m.sched.complete id value).blocked = [] := wakeAll_blocked _
    change i ∈ (m.sched.complete id value).blocked at blocked
    simp [none] at blocked
  · rw [rewound still i select member, List.take_zero] at probed
    cases probed
  · exact absurd (rewound still i select member) (Nat.ne_of_gt amid)
  · have result (i : ℕ) : (m.sched.complete id value).result i = if id = i then some value else m.sched.result i := by
      refine (result_wake _ _ i).trans ?_
      simp only [Scheduler.result, modifyFiber, List.getElem?_modify]
      by_cases here : id = i
      · subst here
        simp [bound]
      · simp [here]
    by_cases main : id = mainFiber
    · subst main
      simpa [Verdict] using result mainFiber
    · have unfinished := alert.verdict
      rw [runs] at unfinished
      simpa [main, Verdict, result] using unfinished
  · have length : (m.sched.complete id value).fibers.length = m.sched.fibers.length := by
      rw [complete, wakeAll, wake_eq, List.length_mapIdx, modifyFiber, List.length_modify]
    exact length ▸ alert.started

end

/-- Waking what the outside world made ready enables nothing. -/
theorem wakeExternal_keeps {now : ℕ} {sockets : List Int64} {completions : List (ℕ × List UInt8)}
    {delivered : List (ℕ × Value)} (ok : m.sched.Ok none m.asked)
    (delivers : deliverCompletions finish (sockets.foldl Scheduler.wakePoll m.sched) completions = some (some (s, delivered))) :
    Keeps m.sched (s.wakeDueTimers now) ∧ (s.wakeDueTimers now).blocked = m.sched.blocked := by
  have polled : Keeps m.sched (sockets.foldl Scheduler.wakePoll m.sched) ∧
      (sockets.foldl Scheduler.wakePoll m.sched).blocked = m.sched.blocked :=
    List.foldlRecOn (motive := fun s => Keeps m.sched s ∧ s.blocked = m.sched.blocked) _ _ ⟨.refl _, rfl⟩
      fun s kept handle _ => ⟨kept.1.trans (.wakePoll s handle), (wakePoll_blocked s handle).trans kept.2⟩
  have after := deliverCompletions_induct
    (fun s _ => s.Ok none m.asked ∧ Keeps m.sched s ∧ s.blocked = m.sched.blocked) delivers ⟨wakePolls_ok ok, polled⟩ ?_
  · refine ⟨after.2.1.trans (.wake (by rfl) (by rfl) _), ?_⟩
    rw [wakeDueTimers, wake_eq]
    exact after.2.2
  · rintro s id op payload value taken s' past ⟨ok, keeps, blocked⟩ takes - delivers
    obtain ⟨fiber, vstack, frames, -, -, -, fibers, -, -, channels, -, same, -⟩ := deliver_effect ok takes delivers
    exact ⟨ok.deliver takes delivers, keeps.trans (.set channels fibers (by simp)), same.trans blocked⟩

/-- Every quiet step keeps the invariant. -/
theorem Alert.move (alert : m.Alert quiet) (ok : m.Ok) (move : Move finish m seen m')
    (guard : quiet = true → quietProbes m seen = true) : m'.Alert quiet := by
  cases move with
  | answered runs ran => exact alert.answered ok runs ran guard
  | trapped runs ran =>
    have keeps := (Call.run_effect 0 ran).keeps (by rw [Observation.chanEvent_unanswered (by simp), Option.any_none])
    have unfinished := alert.verdict
    rw [runs] at unfinished
    exact ⟨fun i blocked => (alert.waits i (keeps.2 ▸ blocked)).mono keeps.1 rfl,
      fun still i select member source probed => keeps.1.asleep (alert.probed still i select member source probed),
      fun _ _ _ _ _ => .inr rfl, keeps.1.unfinished _ unfinished, Nat.lt_of_lt_of_le alert.started keeps.1.known⟩
  | @parked id call env request s s' runs ordinary ran suspended =>
    have before := (Call.run_effect 0 ran).keeps (by rw [Observation.chanEvent_unanswered (by simp), Option.any_none])
    have after := suspend_keeps ((Call.run_effect 0 ran).ok (ok.running runs)) suspended
    have keeps := before.1.trans after.1
    refine alert.park ok runs keeps (fun i blocked => ?_) fun still select member => ?_
    · refine (after.2 i blocked).imp (fun there => before.2 ▸ there) fun ⟨here, blocks⟩ => ⟨here, ?_⟩
      subst here
      have disabled := (Call.run_blocks (m.control i).selects ordinary ran blocks).2
      refine ⟨call, request, by rw [setControl_self], fun _ => ?_⟩
      rw [setControl_self]
      exact keeps.disabled disabled
    · have silent := guard still
      cases selects : (m.control id).selects with
      | nil => simp [selects] at member
      | cons top outer => simp [quietProbes, selects, ordinary] at silent
  | @selectParked id env request s' select outer runs selects passed ran suspended =>
    obtain ⟨keeps, blocks⟩ := suspend_keeps (ok.running runs) suspended
    refine alert.park ok runs keeps (fun i blocked => ?_) fun still other member => ?_
    · refine (blocks i blocked).imp_right fun ⟨here, _⟩ => ⟨here, ?_⟩
      subst here
      refine ⟨_, request, by rw [setControl_self], fun quiets => ?_⟩
      rw [setControl_self]
      refine ⟨_, outer, rfl, fun source member => keeps.asleep ?_⟩
      have whole := List.take_of_length_le (select.current_none passed)
      exact alert.probed (quiets rfl) i select (selects ▸ List.mem_cons_self ..) source (by rwa [whole])
    · have silent := guard still
      simp only [quietProbes, selects, Bool.and_eq_true, List.isEmpty_iff] at silent
      obtain rfl : other = Select.start select.sources := by simpa [silent.2] using member
      rfl
  | selectBegun sources runs =>
    refine alert.setSelects ok runs fun still select member => ?_
    rcases List.mem_cons.mp member with rfl | there
    · simp [Select.start]
    · exact alert.probed still _ select there
  | @selectSkipped id env source select outer runs selects method asleep =>
    refine alert.setSelects ok runs fun still other member => ?_
    have before := alert.probed still id
    rw [selects] at before
    rcases List.mem_cons.mp member with rfl | there
    · intro other probed
      rw [List.take_add_one, select.current_ready method, List.mem_append] at probed
      rcases probed with earlier | now
      · exact before select (List.mem_cons_self ..) other earlier
      · obtain rfl : other = source := by simpa using now
        exact other.isReady_false asleep
    · exact before other (List.mem_cons_of_mem _ there)
  | @selectReturned id env source select outer runs selects method awake =>
    refine alert.setSelects ok runs fun still other member => ?_
    exact alert.probed still id other (selects ▸ List.mem_cons_of_mem _ member)
  | @selectCollected id source select outer answer runs selects method =>
    refine alert.setSelects ok runs fun still other member => ?_
    have before := alert.probed still id
    rw [selects] at before
    rcases List.mem_cons.mp member with rfl | there
    · intro other probed
      rw [Select.collect_sources] at probed
      refine before select (List.mem_cons_self ..) other ?_
      rw [List.take_of_length_le (select.current_collect method)]
      exact List.mem_of_mem_take probed
    · exact before other (List.mem_cons_of_mem _ there)
  | finished value runs outermost => exact alert.finished ok runs outermost value
  | resumed idles picked resumable =>
    obtain ⟨fiber, there, -, -, -, -, fibers, -, channels, listed, -⟩ := nextReady_effect (ok.idle idles) picked
    have keeps : Keeps m.sched _ := .set channels fibers (by simp)
    have unfinished := alert.verdict
    rw [idles] at unfinished
    exact alert.keep idles keeps (fun i blocked => ((listed i .blocked).mp blocked).1) (keeps.unfinished _ unfinished)
  | corrupt idles picked unfit => exact absurd ((ok.idle idles).nextReady picked).2 unfit
  | woken idles delivers =>
    obtain ⟨keeps, blocked⟩ := wakeExternal_keeps (ok.idle idles) delivers
    have unfinished := alert.verdict
    rw [idles] at unfinished
    have verdict : Verdict _ Phase.idle := keeps.unfinished _ unfinished
    have kept := alert.keep idles keeps (fun i there => blocked ▸ there) verdict
    rw [← idles] at kept
    exact kept
  | failed idles =>
    have unfinished := alert.verdict
    rw [idles] at unfinished
    exact alert.keep idles (.refl _) (fun i there => there) unfinished
  | stopped idles ready polls io timers =>
    refine alert.keep idles (.refl _) (fun i there => there) ?_
    have unfinished := alert.verdict
    rw [idles] at unfinished
    have quiescent := (ok.idle idles).stuck ((ok.idle idles).nextReady_none ready) (List.isEmpty_iff.mp polls) io
      (earliestDeadline_none timers) (List.getElem?_eq_getElem alert.started) (unfinished_of_result
        (List.getElem?_eq_getElem alert.started) unfinished)
    rw [if_neg (by simpa using List.ne_nil_of_mem quiescent)]
    exact ⟨unfinished, (ok.idle idles).nextReady_none ready, List.isEmpty_iff.mp polls, io, earliestDeadline_none timers⟩

theorem initial_alert : Machine.initial.Alert quiet := by
  refine ⟨fun id blocked => ?_, fun _ id select member => ?_, fun _ id select member => ?_, rfl, Nat.zero_lt_one⟩
  · simp [initial, Scheduler.new] at blocked
  · simp [initial] at member
  · simp [initial] at member

/-- The invariant holds after every run, and after a quiet run also for `select`. -/
theorem run_alert {events : List Event} {observed : List Observation}
    (ran : ((driveMachine finish).restrict fun m seen => !quiet || quietProbes m seen).run events = some (m, observed)) :
    m.Ok ∧ m.Alert quiet := by
  refine Mealy.run_invariant (fun _ m => m.Ok ∧ m.Alert quiet) ⟨initial_ok, initial_alert⟩ ?_ ran
  intro past m event m' seen before stepped
  obtain ⟨stepped, guard⟩ := Mealy.restrict_step.mp stepped
  have move := step_move stepped
  exact ⟨before.1.move move, before.2.move before.1 move fun still => by simpa [still] using guard⟩

end Machine

/-- When the driver reports a deadlock, the main fiber is unfinished and every unfinished fiber is parked
on a disabled operation, for `select` provided the run's probes are quiet. It returns a value only when
the main fiber has finished with it. -/
theorem deadlock_is_genuine {finish : IoFinish → List UInt8 → Option Value} {events : List Event} {m : Machine}
    {observed : List Observation} (ran : (driveMachine finish).run events = some (m, observed)) :
    (m.phase = .ended .deadlock → m.sched.result mainFiber = none ∧
      ∀ id fiber, m.sched.fibers[id]? = some fiber → (∀ value, fiber.state ≠ .done value) →
        ∃ call request, (m.control id).parked = some (call, request) ∧
          ((call.isSelectPark = true →
              ((driveMachine finish).restrict quietProbes).run events = some (m, observed)) →
            call.Disabled m.sched (m.control id).selects)) ∧
    ∀ value, m.phase = .ended (.returned value) → m.sched.result mainFiber = some value := by
  have ran' := ran
  have unrestricted : (driveMachine finish).restrict (fun _ _ => true) = driveMachine finish := Mealy.restrict_true
  rw [← unrestricted] at ran'
  obtain ⟨⟨running, ok, runs⟩, alert⟩ : m.Ok ∧ m.Alert false := Machine.run_alert ran'
  refine ⟨fun ended => ?_, fun value ended => ?_⟩
  · have verdict := alert.verdict
    rw [ended] at verdict runs
    cases runs
    obtain ⟨unfinished, ready, polls, io, timers⟩ := verdict
    refine ⟨unfinished, fun id fiber there live => ?_⟩
    have blocked := ok.stuck ready polls io timers there live
    obtain ⟨call, request, parked, disabled⟩ := alert.waits id blocked
    refine ⟨call, request, parked, fun quiet => ?_⟩
    cases select : call.isSelectPark with
    | false => exact disabled (by simp [select])
    | true =>
      obtain ⟨-, quietly⟩ : m.Ok ∧ m.Alert true := Machine.run_alert (quiet select)
      obtain ⟨call', request', parked', disabled'⟩ := quietly.waits id blocked
      cases parked.symm.trans parked'
      exact disabled' fun _ => rfl
  · have verdict := alert.verdict
    rwa [ended] at verdict

/-- The main fiber opens a channel and receives from it; nobody is left to send. -/
def lonelyReceive : List Event :=
  [.call (.channelNew 1) firstEnv, .call (.channelReceive 0) firstEnv, .idle 0 [] []]

theorem lonelyReceive_is_genuine : ∃ m observed,
    (driveMachine fun _ _ => none).run lonelyReceive = some (m, observed) ∧ m.phase = .ended .deadlock ∧
      m.sched.result mainFiber = none := by
  have ran : (driveMachine fun _ _ => none).run lonelyReceive = some (_, _) := rfl
  exact ⟨_, _, ran, rfl, ((deadlock_is_genuine ran).1 rfl).1⟩

/-- The main fiber selects over a channel and a source whose `is_ready` yields; while it does, the other
fiber sends a value on the channel and finishes. -/
def yieldingProbe : List Event :=
  [.call (.channelNew 1) firstEnv, .call (.fiberSpawn .unit) firstEnv, .select [.channel 0, .custom],
    .advance firstEnv .progress, .call .fiberYield firstEnv, .idle 0 [] [],
    .call (.channelSend 0 .unit) firstEnv, .return .unit, .idle 0 [] [],
    .advance firstEnv .progress, .advance firstEnv .progress, .advance firstEnv .progress,
    .advance firstEnv .progress, .idle 0 [] []]

/-- The driver then reports a deadlock although the channel that `select` waits for holds a value. -/
theorem yieldingProbe_loses_wakeup : ∃ m observed,
    (driveMachine fun _ _ => none).run yieldingProbe = some (m, observed) ∧ m.phase = .ended .deadlock ∧
      (m.control mainFiber).parked = some (.selectPark [] (-1), .multi none []) ∧
      (m.control mainFiber).selects = [Select.start [.channel 0, .custom]] ∧
      m.sched.chanReady (asUsize 0) = some true := by
  have ran : (driveMachine fun _ _ => none).run yieldingProbe = some (_, _) := rfl
  exact ⟨_, _, ran, rfl, rfl, rfl, rfl⟩

end Thera.Runtime
