import Thera.Model.Runtime.Value

/-! # The cooperative scheduler

One fiber runs at a time; every other one is queued to run, finished, or parked in the wait structures
its park request named. An instant is a number of milliseconds on the monotonic clock. The closure
that turns a finished host operation's payload into a value is named by a number, the job itself runs
elsewhere. A fiber id that is out of range, which would panic, leaves the state as it is.
-/

namespace Thera.Runtime

/-- An activation record; its locals and operands start at `base` of the value stack. -/
structure Frame where
  func : ℕ
  pc : ℕ
  base : ℕ
  deriving DecidableEq

abbrev IoFinish := ℕ

/-- How a parked fiber resumes, set by the native that suspended it. -/
inductive ParkRequest where
  | blockRetry
  | yieldReady
  | timer (deadline : ℕ)
  | await (finish : IoFinish)
  | ready (handle : Int64)
  | multi (deadline : Option ℕ) (handles : List Int64)
  deriving DecidableEq

/-- The lists a `multi` park added a fiber to, beyond `blocked`. -/
structure ParkSources where
  timer : Bool
  handles : List Int64
  deriving DecidableEq

inductive FiberState where
  | notStarted (closure : Value)
  | suspended (vstack : List Value) (frames : List Frame)
  | running
  | done (value : Value)
  deriving DecidableEq

structure Fiber where
  state : FiberState
  /-- Set while the fiber waits for a host operation. -/
  pending : Option IoFinish
  /-- Whether the fiber already sits in `ready`. -/
  queued : Bool
  /-- Where a `multi` park listed the fiber. -/
  parkSources : Option ParkSources
  deriving DecidableEq

/-- A bounded channel. -/
structure Chan where
  buffer : List Value
  capacity : ℕ
  closed : Bool
  deriving DecidableEq

inductive SendOutcome where
  | sent
  | full
  | closed
  deriving DecidableEq

inductive RecvOutcome where
  | got (value : Value)
  | empty
  | drained
  deriving DecidableEq

structure Scheduler where
  fibers : List Fiber
  ready : List ℕ
  blocked : List ℕ
  /-- Deadlines with the fibers that wait for them. -/
  timers : List (ℕ × ℕ)
  ioBlocked : ℕ
  pollBlocked : AList fun _ : Int64 => List ℕ
  channels : List Chan

def mainFiber : ℕ := 0

namespace Scheduler

def new : Scheduler := ⟨[], [], [], [], 0, ∅, []⟩

/-- A fiber that is in no queue or list. -/
def freshFiber (state : FiberState) : Fiber := ⟨state, none, false, none⟩

/-- Make `id` runnable, the only way into `ready`. -/
def makeReady (s : Scheduler) (id : ℕ) : Scheduler :=
  match s.fibers[id]? with
  | some fiber =>
      if fiber.queued then s
      else { s with fibers := s.fibers.set id { fiber with queued := true }, ready := s.ready ++ [id] }
  | none => s

/-- Move every blocked fiber back to the ready queue. -/
def wakeAll (s : Scheduler) : Scheduler := s.blocked.foldl makeReady { s with blocked := [] }

/-- The fibers parked on a socket. -/
def waiters (s : Scheduler) (handle : Int64) : List ℕ := (s.pollBlocked.lookup handle).getD []

/-- Wake every fiber parked on socket `handle`. -/
def wakePoll (s : Scheduler) (handle : Int64) : Scheduler :=
  match s.pollBlocked.lookup handle with
  | some waiters => waiters.foldl makeReady { s with pollBlocked := s.pollBlocked.erase handle }
  | none => s

/-- Create a channel; a capacity of 0 is raised to 1. -/
def channelNew (s : Scheduler) (capacity : ℕ) : ℕ × Scheduler :=
  (s.channels.length, { s with channels := s.channels ++ [⟨[], max capacity 1, false⟩] })

/-- Try to send without blocking. -/
def chanSend (s : Scheduler) (id : ℕ) (value : Value) : Option (SendOutcome × Scheduler) := do
  let ch ← s.channels[id]?
  if ch.closed then some (.closed, s)
  else if ch.buffer.length < ch.capacity then
    let s := { s with channels := s.channels.set id { ch with buffer := ch.buffer ++ [value] } }
    some (.sent, s.wakeAll)
  else some (.full, s)

/-- Try to receive without blocking. -/
def chanReceive (s : Scheduler) (id : ℕ) : Option (RecvOutcome × Scheduler) := do
  let ch ← s.channels[id]?
  match ch.buffer with
  | value :: buffer =>
      let s := { s with channels := s.channels.set id { ch with buffer } }
      some (.got value, s.wakeAll)
  | [] => some (if ch.closed then .drained else .empty, s)

def chanClose (s : Scheduler) (id : ℕ) : Option Scheduler := do
  let ch ← s.channels[id]?
  let s := { s with channels := s.channels.set id { ch with closed := true } }
  some s.wakeAll

/-- Whether a receive would return without blocking. -/
def chanReady (s : Scheduler) (id : ℕ) : Option Bool := do
  let ch ← s.channels[id]?
  some (!ch.buffer.isEmpty || ch.closed)

def spawn (s : Scheduler) (closure : Value) : ℕ × Scheduler :=
  let id := s.fibers.length
  let s := { s with fibers := s.fibers ++ [freshFiber (.notStarted closure)] }
  (id, s.makeReady id)

/-- The result of fiber `id`, if it has finished. -/
def result (s : Scheduler) (id : ℕ) : Option Value :=
  match s.fibers[id]? with
  | some ⟨.done value, _, _, _⟩ => some value
  | _ => none

/-- Replace a fiber's record. -/
def modifyFiber (s : Scheduler) (id : ℕ) (f : Fiber → Fiber) : Scheduler :=
  { s with fibers := s.fibers.modify id f }

/-- Record that `id` finished, and wake everyone blocked. -/
def complete (s : Scheduler) (id : ℕ) (value : Value) : Scheduler :=
  (s.modifyFiber id fun fiber => { fiber with state := .done value }).wakeAll

/-- List `id` under a socket. -/
def pollPush (s : Scheduler) (id : ℕ) (handle : Int64) : Scheduler :=
  { s with pollBlocked := s.pollBlocked.insert handle (s.waiters handle ++ [id]) }

/-- Save a suspended fiber's stacks and route it per its park request. `await` does not come here. -/
def park (s : Scheduler) (id : ℕ) (vstack : List Value) (frames : List Frame) (req : ParkRequest) :
    Option Scheduler :=
  let s := s.modifyFiber id fun fiber => { fiber with state := .suspended vstack frames }
  match req with
  | .yieldReady => some (s.makeReady id)
  | .blockRetry => some { s with blocked := s.blocked ++ [id] }
  | .timer deadline => some { s with timers := s.timers ++ [(deadline, id)] }
  | .ready handle => some (s.pollPush id handle)
  | .multi deadline handles =>
      let s := { s with blocked := s.blocked ++ [id] }
      let s := { s with timers := s.timers ++ deadline.toList.map fun deadline => (deadline, id) }
      let s := handles.foldl (fun s handle => s.pollPush id handle) s
      some (s.modifyFiber id fun fiber => { fiber with parkSources := some ⟨deadline.isSome, handles⟩ })
  | .await _ => none

/-- Park `id` on a host operation; the placeholder return is on top of `vstack`. -/
def parkIo (s : Scheduler) (id : ℕ) (vstack : List Value) (frames : List Frame) (finish : IoFinish) : Scheduler :=
  let s := s.modifyFiber id fun fiber => { fiber with state := .suspended vstack frames, pending := some finish }
  { s with ioBlocked := s.ioBlocked + 1 }

/-- Take `id` off a socket's list, and the socket off the map if nobody is left. -/
def pollDrop (s : Scheduler) (id : ℕ) (handle : Int64) : Scheduler :=
  match s.pollBlocked.lookup handle with
  | some waiters =>
      let waiters := waiters.filter (· ≠ id)
      if waiters.isEmpty then { s with pollBlocked := s.pollBlocked.erase handle }
      else { s with pollBlocked := s.pollBlocked.insert handle waiters }
  | none => s

/-- Drop `id` from every list a `multi` park listed it in. -/
def unlist (s : Scheduler) (id : ℕ) : Scheduler :=
  match s.fibers[id]?.bind Fiber.parkSources with
  | none => s
  | some sources =>
      let s := s.modifyFiber id fun fiber => { fiber with parkSources := none }
      let s := { s with blocked := s.blocked.filter (· ≠ id) }
      let s := { s with timers := if sources.timer then s.timers.filter fun timer => timer.2 ≠ id else s.timers }
      sources.handles.foldl (fun s handle => s.pollDrop id handle) s

/-- Take the `finish` of a fiber whose completion arrives; there has to be one. -/
def takePending (s : Scheduler) (id : ℕ) : Option (IoFinish × Scheduler) := do
  let fiber ← s.fibers[id]?
  let finish ← fiber.pending
  some (finish, s.modifyFiber id fun fiber => { fiber with pending := none })

/-- Overwrite the placeholder of a fiber parked on a host operation, and make it runnable. -/
def deliver (s : Scheduler) (id : ℕ) (value : Value) : Option Scheduler := do
  match (← s.fibers[id]?).state with
  | .suspended (bottom :: above) frames =>
      let vstack := (bottom :: above).dropLast ++ [value]
      let s := s.modifyFiber id fun fiber => { fiber with state := .suspended vstack frames }
      some ({ s with ioBlocked := s.ioBlocked - 1 }.makeReady id)
  | _ => none

def earliestDeadline (s : Scheduler) : Option ℕ := (s.timers.map Prod.fst).min?

/-- Move every timer whose deadline has passed back to the ready queue. -/
def wakeDueTimers (s : Scheduler) (now : ℕ) : Scheduler :=
  let due := s.timers.filter fun timer => timer.1 ≤ now
  (due.map Prod.snd).foldl makeReady { s with timers := s.timers.filter fun timer => ¬ timer.1 ≤ now }

/-- Dequeue the next ready fiber, sweep its lists and mark it running; its former state is returned. -/
def nextReady (s : Scheduler) : Option (ℕ × FiberState × Scheduler) :=
  match s.ready with
  | [] => none
  | id :: ready =>
      let s := { s with ready }.modifyFiber id fun fiber => { fiber with queued := false }
      let s := s.unlist id
      match s.fibers[id]? with
      | some fiber => some (id, fiber.state, s.modifyFiber id fun fiber => { fiber with state := .running })
      | none => none

end Scheduler

end Thera.Runtime
