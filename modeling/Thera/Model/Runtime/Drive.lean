import Thera.Model.Runtime.Scheduler
import Thera.ToMathlib.Mealy

/-! # Driving fibers

The native calls that reach the scheduler, `select` over them, and the loop that runs the current
fiber to its next suspension and picks the next one. What a fiber computes between two such calls does
not touch the scheduler: an event says which call the running fiber makes next, with whatever the
outside world contributes to it (clock, sockets, finished host operations). A call whose park rewinds
it is the first thing its fiber does when it resumes.
-/

namespace Thera.Runtime

/-- A Thera `Int` used as an index, `as usize`. -/
def asUsize (n : Int64) : ℕ := n.toUInt64.toNat

/-! ## Native calls -/

/-- The native calls that can suspend a fiber or touch the scheduler. `socket` stands for the socket
natives that park until their handle is ready, `host` for those that ship a job to the worker pool. -/
inductive Call where
  | fiberSpawn (closure : Value)
  | fiberJoin (id : Int64)
  | fiberIsDone (id : Int64)
  | fiberYield
  | timeSleepMillis (millis : Int64)
  | channelNew (capacity : Int64)
  | channelSend (id : Int64) (value : Value)
  | channelReceive (id : Int64)
  | channelClose (id : Int64)
  | chanIsReady (id : Int64)
  | selectPark (handles : List Int64) (deadlineMillis : Int64)
  | socket (handle : Int64)
  | socketClose (handle : Int64)
  | host (finish : IoFinish)
  deriving DecidableEq

def Call.isSelectPark : Call → Bool
  | selectPark .. => true
  | _ => false

/-- What a native call returns. -/
inductive Answer where
  | unit
  | int (n : ℕ)
  | bool (b : Bool)
  | value (v : Value)
  | option (v : Option Value)
  deriving DecidableEq

/-- How a native call ends. -/
inductive Reply where
  | ret (answer : Answer)
  | park (request : ParkRequest)
  | closedChannel
  deriving DecidableEq

/-- What a call finds outside the scheduler, and the running fiber's stacks when it makes the call. -/
structure Env where
  /-- The monotonic clock. -/
  now : ℕ
  /-- The wall clock in milliseconds. -/
  epochMillis : ℕ
  /-- What the sockets or a method written in Thera say. -/
  yes : Bool
  /-- The value stack below the call's arguments. -/
  below : List Value
  args : List Value
  frames : List Frame
  frame : Frame
  deriving DecidableEq

/-- Run a native call. -/
def Call.run (env : Env) (s : Scheduler) : Call → Option (Reply × Scheduler)
  | fiberSpawn closure =>
      let (id, s) := s.spawn closure
      some (.ret (.int id), s)
  | fiberJoin id =>
      match s.result (asUsize id) with
      | some value => some (.ret (.value value), s)
      | none => some (.park .blockRetry, s)
  | fiberIsDone id => some (.ret (.bool (s.result (asUsize id)).isSome), s)
  | fiberYield => some (.park .yieldReady, s)
  | timeSleepMillis millis =>
      if 0 < millis.toInt then some (.park (.timer (env.now + millis.toInt.toNat)), s) else some (.ret .unit, s)
  | channelNew capacity =>
      let (id, s) := s.channelNew capacity.toInt.toNat
      some (.ret (.int id), s)
  | channelSend id value => do
      match ← s.chanSend (asUsize id) value with
      | (.sent, s) => some (.ret .unit, s)
      | (.full, s) => some (.park .blockRetry, s)
      | (.closed, s) => some (.closedChannel, s)
  | channelReceive id => do
      match ← s.chanReceive (asUsize id) with
      | (.got value, s) => some (.ret (.option (some value)), s)
      | (.drained, s) => some (.ret (.option none), s)
      | (.empty, s) => some (.park .blockRetry, s)
  | channelClose id => do some (.ret .unit, ← s.chanClose (asUsize id))
  | chanIsReady id => do some (.ret (.bool (← s.chanReady (asUsize id))), s)
  | selectPark handles deadlineMillis =>
      let deadline := if deadlineMillis.toInt < 0 then none
        else some (env.now + (deadlineMillis.toInt - env.epochMillis).toNat)
      some (.park (.multi deadline handles), s)
  | socket handle => if env.yes then some (.ret (.value .unit), s) else some (.park (.ready handle), s)
  | socketClose handle => some (.ret (.value .unit), s.wakePoll handle)
  | host finish => some (.park (.await finish), s)

/-- Whether the park rewinds the call, so that it runs again on resume. -/
def ParkRequest.retries : ParkRequest → Bool
  | blockRetry | ready _ => true
  | _ => false

/-- Hand a parked fiber to the scheduler: the arguments stay on the stack under a rewound program counter,
or the call's result takes their place. -/
def suspend (env : Env) (s : Scheduler) (id : ℕ) (request : ParkRequest) : Option Scheduler :=
  if request.retries then
    s.park id (env.below ++ env.args) (env.frames ++ [{ env.frame with pc := env.frame.pc - 1 }]) request
  else
    let vstack := env.below ++ [.unit]
    let frames := env.frames ++ [env.frame]
    match request with
    | .await finish => some (s.parkIo id vstack frames finish)
    | request => s.park id vstack frames request

/-! ## Select -/

/-- How `select` should wait for a source that is not ready. -/
inductive SelectSource where
  | progress
  | socket (handle : Int64)
  | deadline (millis : Int64)
  deriving DecidableEq

/-- A `Selectable`. The methods of a custom one are user code. -/
inductive Source where
  | fiber (id : Int64)
  | channel (id : Int64)
  | timer (deadlineMillis : Int64)
  | stream (handle : Int64)
  | custom
  deriving DecidableEq

/-- A `select` in progress. A pass asks every source whether it is ready, then every source how to
wait for it, and parks on the union. -/
structure Select where
  sources : List Source
  /-- Methods that have answered in this pass. -/
  position : ℕ
  handles : List Int64
  deadline : Int64
  deriving DecidableEq

namespace Select

/-- The start of a pass. -/
def start (sources : List Source) : Select := ⟨sources, 0, [], -1⟩

/-- The source whose method is next, with whether that is `is_ready`. -/
def current (select : Select) : Option (Source × Bool) :=
  match select.sources[select.position]? with
  | some source => some (source, true)
  | none => (select.sources[select.position - select.sources.length]?).map fun source => (source, false)

/-- Whether user code runs as part of this `select`. -/
def inCustom (select : Select) : Bool :=
  match select.current with
  | some (.custom, _) => true
  | _ => false

/-- Take one source's way of waiting into the union. -/
def collect (select : Select) : SelectSource → Select
  | .progress => select
  | .socket handle => { select with handles := select.handles ++ [handle] }
  | .deadline millis =>
      { select with deadline := if select.deadline.toInt < 0 then millis else min select.deadline millis }

end Select

/-- `is_ready` of a source. -/
def Source.isReady (env : Env) (s : Scheduler) : Source → Option Bool
  | fiber id => some (s.result (asUsize id)).isSome
  | channel id => s.chanReady (asUsize id)
  | timer deadlineMillis => some (deadlineMillis.toInt ≤ env.epochMillis)
  | stream _ | custom => some env.yes

/-- `source` of a source; a custom one answers what it likes. -/
def Source.waitsFor (answer : SelectSource) : Source → SelectSource
  | fiber _ | channel _ => .progress
  | timer deadlineMillis => .deadline deadlineMillis
  | stream handle => .socket handle
  | custom => answer

/-! ## The machine -/

/-- Where a fiber's program is, as far as the scheduler can tell. -/
structure Control where
  /-- The call its program counter was rewound to. -/
  retry : Option Call
  /-- The call it last parked in, and how. -/
  parked : Option (Call × ParkRequest)
  /-- The `select` calls it is in, innermost first. -/
  selects : List Select
  deriving DecidableEq

/-- How a run of `drive` ends. -/
inductive Outcome where
  | returned (value : Value)
  | deadlock
  | trap
  deriving DecidableEq

inductive Phase where
  | running (id : ℕ)
  | idle
  | ended (outcome : Outcome)
  deriving DecidableEq

structure Machine where
  sched : Scheduler
  phase : Phase
  control : ℕ → Control

/-- What happens next. -/
inductive Event where
  /-- The running fiber makes a native call. -/
  | call (call : Call) (env : Env)
  /-- The running fiber enters `select`. -/
  | select (sources : List Source)
  /-- The innermost `select` gets its next method's answer, or parks. -/
  | advance (env : Env) (answer : SelectSource)
  /-- The running fiber's function returns. -/
  | return (value : Value)
  /-- The driver takes a turn of its idle loop; sockets and host operations may have become ready. -/
  | idle (now : ℕ) (sockets : List Int64) (completions : List (ℕ × List UInt8))
  deriving DecidableEq

/-- What a step shows. -/
inductive Observation where
  | called (id : ℕ) (call : Call) (reply : Reply)
  | selected (id : ℕ) (index : ℕ)
  | resumed (id : ℕ)
  | delivered (completions : List (ℕ × Value))
  | silent
  deriving DecidableEq

namespace Machine

def initial : Machine where
  sched := { Scheduler.new with fibers := [Scheduler.freshFiber .running] }
  phase := .running mainFiber
  control _ := ⟨none, none, []⟩

def setControl (m : Machine) (id : ℕ) (control : Control) : Machine :=
  { m with control := Function.update m.control id control }

/-- The `call.native` arm of the interpreter loop, for the running fiber. -/
def callNative (m : Machine) (id : ℕ) (call : Call) (env : Env) : Option (Machine × Observation) := do
  let (reply, s) ← call.run env m.sched
  let control := m.control id
  match reply with
  | .ret _ => some ({ m with sched := s }.setControl id { control with retry := none }, .called id call reply)
  | .closedChannel => some ({ m with sched := s, phase := .ended .trap }, .called id call reply)
  | .park request =>
      let s ← suspend env s id request
      let retry := if request.retries then some call else none
      some ({ m with sched := s, phase := .idle }.setControl id { control with retry, parked := some (call, request) },
        .called id call reply)

/-- Whether the running fiber may go on with its own code. -/
def free (control : Control) : Bool := control.retry.isNone

/-- Whether the code the fiber runs is user code, outside `select` or in a custom source's method. -/
def inUserCode (control : Control) : Bool :=
  match control.selects with
  | [] => true
  | select :: _ => select.inCustom

/-- One step of the innermost `select` of the running fiber. -/
def advance (m : Machine) (id : ℕ) (env : Env) (answer : SelectSource) : Option (Machine × Observation) := do
  let control := m.control id
  match control.selects with
  | [] => none
  | select :: outer =>
      match select.current with
      | some (source, true) =>
          if ← source.isReady env m.sched then
            some (m.setControl id { control with selects := outer }, .selected id select.position)
          else
            let select := { select with position := select.position + 1 }
            some (m.setControl id { control with selects := select :: outer }, .silent)
      | some (source, false) =>
          let select := { select.collect (source.waitsFor answer) with position := select.position + 1 }
          some (m.setControl id { control with selects := select :: outer }, .silent)
      | none =>
          -- Nothing was ready: park, and start over on resume.
          let call := Call.selectPark select.handles select.deadline
          let m := m.setControl id { control with selects := Select.start select.sources :: outer }
          m.callNative id call env

/-- Hand finished host operations to the fibers that issued them; `none` inside is a trap. -/
def deliverCompletions (finish : IoFinish → List UInt8 → Option Value) (s : Scheduler) :
    List (ℕ × List UInt8) → Option (Option (Scheduler × List (ℕ × Value)))
  | [] => some (some (s, []))
  | (id, payload) :: rest => do
      let (op, s) ← s.takePending id
      match finish op payload with
      | none => some none
      | some value =>
          let s ← s.deliver id value
          match ← deliverCompletions finish s rest with
          | none => some none
          | some (s, delivered) => some (some (s, (id, value) :: delivered))

/-- Wake what an external source made ready. -/
def wakeExternal (finish : IoFinish → List UInt8 → Option Value) (m : Machine) (now : ℕ) (sockets : List Int64)
    (completions : List (ℕ × List UInt8)) : Option (Machine × Observation) := do
  let s := sockets.foldl Scheduler.wakePoll m.sched
  match ← deliverCompletions finish s completions with
  | none => some ({ m with phase := .ended .trap }, .silent)
  | some (s, delivered) => some ({ m with sched := s.wakeDueTimers now }, .delivered delivered)

/-- One turn of the loop that picks the next fiber. -/
def idle (finish : IoFinish → List UInt8 → Option Value) (m : Machine) (now : ℕ) (sockets : List Int64)
    (completions : List (ℕ × List UInt8)) : Option (Machine × Observation) :=
  match m.sched.nextReady with
  | some (id, state, s) =>
      match state with
      | .notStarted _ | .suspended _ (_ :: _) => some ({ m with sched := s, phase := .running id }, .resumed id)
      -- "resumed a fiber with an empty stack", "scheduled a running or finished fiber"
      | .suspended _ [] | .running | .done _ => some ({ m with sched := s, phase := .ended .trap }, .silent)
  | none =>
      if !m.sched.pollBlocked.entries.isEmpty then m.wakeExternal finish now sockets completions
      else if 0 < m.sched.ioBlocked then m.wakeExternal finish now [] completions
      else
        match m.sched.earliestDeadline with
        -- Only timers are pending: sleep to the first deadline.
        | some deadline => m.wakeExternal finish (max now deadline) [] []
        | none =>
            let outcome := if m.sched.blocked.isEmpty then .returned .unit else .deadlock
            some ({ m with phase := .ended outcome }, .silent)

/-- One step of `drive`. -/
def step (finish : IoFinish → List UInt8 → Option Value) (m : Machine) (event : Event) : Option (Machine × Observation) :=
  match m.phase, event with
  | .running id, .call call env =>
      let control := m.control id
      let next := match control.retry with
        | some again => decide (call = again)
        | none => inUserCode control
      -- `select_park` is private to `select`.
      if next && !call.isSelectPark then m.callNative id call env else none
  | .running id, .select sources =>
      let control := m.control id
      if free control && inUserCode control then
        some (m.setControl id { control with selects := Select.start sources :: control.selects }, .silent)
      else none
  | .running id, .advance env answer => if free (m.control id) then m.advance id env answer else none
  | .running id, .return value =>
      let control := m.control id
      if free control && control.selects.isEmpty then
        let phase := if id = mainFiber then .ended (.returned value) else .idle
        some ({ m with sched := m.sched.complete id value, phase }, .silent)
      else none
  | .idle, .idle now sockets completions => m.idle finish now sockets completions
  | _, _ => none

end Machine

/-- The runs of `drive`. -/
def driveMachine (finish : IoFinish → List UInt8 → Option Value) : Mealy Machine Event Observation where
  init := .initial
  step := Machine.step finish

end Thera.Runtime
