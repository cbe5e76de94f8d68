import Thera.Model.Runtime.Scheduler
import Thera.ToMathlib.Growing

/-! # Scheduler bookkeeping

Where a fiber is listed, what a park request names, and the invariant that couples the two with the
ready queue. Waking is the same argument for all three wait structures: whoever leaves a list is
queued, and a fiber that waits in one list only leaves it for good.
-/

namespace Thera.Runtime

/-- The places a parked fiber can be listed in. -/
inductive WaitList where
  | blocked
  | timer (deadline : ℕ)
  | poll (handle : Int64)

/-- Whether `id` is in a wait structure. -/
def Scheduler.Listed (s : Scheduler) (id : ℕ) : WaitList → Prop
  | .blocked => id ∈ s.blocked
  | .timer deadline => (deadline, id) ∈ s.timers
  | .poll handle => id ∈ s.waiters handle

namespace ParkRequest

/-- The wait structures a park request asks for. -/
def Names : ParkRequest → WaitList → Prop
  | blockRetry, .blocked => True
  | timer deadline, .timer deadline' => deadline' = deadline
  | ready handle, .poll handle' => handle' = handle
  | multi _ _, .blocked => True
  | multi deadline _, .timer deadline' => deadline = some deadline'
  | multi _ handles, .poll handle => handle ∈ handles
  | _, _ => False

/-- The sweep a park leaves behind. -/
def sources : ParkRequest → Option ParkSources
  | multi deadline handles => some ⟨deadline.isSome, handles⟩
  | _ => none

/-- The host operation a park waits for. -/
def pending : ParkRequest → Option IoFinish
  | await finish => some finish
  | _ => none

/-- A park with a single source names at most one structure. -/
theorem names_unique {req : ParkRequest} (single : req.sources = none) {w w' : WaitList} (left : req.Names w)
    (right : req.Names w') : w = w' := by
  cases req <;> cases w <;> cases w' <;> simp_all [Names, sources]

end ParkRequest

/-- A fiber's record agrees with where it is listed, whether it runs and what it last asked for. -/
inductive FiberOk (listed : WaitList → Prop) (runs : Prop) (asked : Option ParkRequest) : Fiber → Prop
  | notStarted (closure : Value) (unlisted : ∀ w, ¬ listed w) (stopped : ¬ runs) :
      FiberOk listed runs asked ⟨.notStarted closure, none, true, none⟩
  | running (unlisted : ∀ w, ¬ listed w) (runs : runs) : FiberOk listed _ asked ⟨.running, none, false, none⟩
  | done (value : Value) (unlisted : ∀ w, ¬ listed w) (stopped : ¬ runs) :
      FiberOk listed runs asked ⟨.done value, none, false, none⟩
  | waiting (req : ParkRequest) (vstack : List Value) (frames : List Frame) (parked : asked = some req)
      (exact_ : ∀ w, listed w ↔ req.Names w) (blocks : req ≠ .yieldReady) (resumable : frames ≠ [])
      (stopped : ¬ runs) : FiberOk listed runs asked ⟨.suspended vstack frames, req.pending, false, req.sources⟩
  | woken (req : ParkRequest) (vstack : List Value) (frames : List Frame) (parked : asked = some req)
      (within : ∀ w, listed w → req.Names w) (swept : req.sources = none → ∀ w, ¬ listed w)
      (resumable : frames ≠ []) (stopped : ¬ runs) :
      FiberOk listed runs asked ⟨.suspended vstack frames, none, true, req.sources⟩

/-- A fiber that left a wait structure, and was queued for it. -/
theorem FiberOk.wake {listed listed' taken : WaitList → Prop} {runs : Prop} {asked : Option ParkRequest} {fiber : Fiber}
    (ok : FiberOk listed runs asked fiber) (rest : ∀ w, listed' w ↔ listed w ∧ ¬ taken w)
    (left : ∃ w, listed w ∧ taken w) : FiberOk listed' runs asked { fiber with queued := true } := by
  obtain ⟨w, was, gone⟩ := left
  have fewer (w : WaitList) (still : listed' w) : listed w := ((rest w).mp still).1
  cases ok with
  | notStarted closure unlisted | running unlisted | done value unlisted => exact absurd was (unlisted w)
  | waiting req vstack frames parked exact_ blocks resumable stopped =>
    have named := (exact_ w).mp was
    have host : req.pending = none := by
      cases req <;> cases w <;> simp_all [ParkRequest.Names, ParkRequest.pending]
    rw [host]
    refine .woken req vstack frames parked (fun w' still => (exact_ w').mp (fewer w' still)) (fun single w' still => ?_)
      resumable stopped
    -- The one structure the park named is the one the fiber left.
    cases req.names_unique single named ((exact_ w').mp (fewer w' still))
    exact ((rest w).mp still).2 gone
  | woken req vstack frames parked within swept resumable stopped =>
    exact .woken req vstack frames parked (fun w' still => within w' (fewer w' still))
      (fun single w' still => swept single w' (fewer w' still)) resumable stopped

namespace Scheduler

/-- The ready queue holds exactly the fibers with the flag, each once. -/
structure Queue (s : Scheduler) : Prop where
  flagged : ∀ id, id ∈ s.ready ↔ ∃ fiber, s.fibers[id]? = some fiber ∧ fiber.queued = true
  once : s.ready.Nodup

/-- No list of a socket is empty. -/
def Occupied (polls : AList fun _ : Int64 => List ℕ) : Prop :=
  ∀ handle waiters, polls.lookup handle = some waiters → waiters ≠ []

/-- The bookkeeping invariant, for the fiber that runs and what each fiber asked for at its last park. -/
structure Ok (s : Scheduler) (running : Option ℕ) (asked : ℕ → Option ParkRequest) : Prop extends Queue s where
  fibers : ∀ id fiber, s.fibers[id]? = some fiber → FiberOk (s.Listed id) (running = some id) (asked id) fiber
  known : ∀ id w, s.Listed id w → id < s.fibers.length
  current : ∀ id, running = some id → id < s.fibers.length
  nonempty : ∀ handle waiters, s.pollBlocked.lookup handle = some waiters → waiters ≠ []
  counted : s.ioBlocked = s.fibers.countP fun fiber => fiber.pending.isSome

/-! ## Queueing -/

theorem modify_eq_set {fibers : List Fiber} {id : ℕ} {fiber : Fiber} (there : fibers[id]? = some fiber)
    (f : Fiber → Fiber) : fibers.modify id f = fibers.set id (f fiber) := by
  rw [List.modify_eq_set_getElem?, there]
  rfl

theorem modify_set (fibers : List Fiber) (id : ℕ) (fiber : Fiber) (f : Fiber → Fiber) :
    (fibers.set id fiber).modify id f = fibers.set id (f fiber) := by
  apply List.ext_getElem?
  intro i
  rw [List.getElem?_modify, List.getElem?_set, List.getElem?_set]
  split_ifs <;> simp

/-- Queueing a fiber changes its flag and the queue only. -/
theorem makeReady_eq (s : Scheduler) (id : ℕ) : s.makeReady id = { s with
    fibers := s.fibers.modify id fun fiber => { fiber with queued := true }, ready := (s.makeReady id).ready } := by
  rw [makeReady]
  cases found : s.fibers[id]? with
  | none => simp [List.modify_eq_set_getElem?, found]
  | some fiber =>
    rw [modify_eq_set found]
    by_cases queued : fiber.queued = true
    · obtain ⟨bound, rfl⟩ := List.getElem?_eq_some_iff.mp found
      simp only [if_pos queued]
      rw [← queued, List.set_getElem_self]
    · simp only [if_neg queued]

theorem Queue.makeReady {s : Scheduler} (queue : s.Queue) (id : ℕ) (known : id < s.fibers.length) :
    (s.makeReady id).Queue := by
  obtain ⟨fiber, found⟩ : ∃ fiber, s.fibers[id]? = some fiber := ⟨_, List.getElem?_eq_getElem known⟩
  rw [Scheduler.makeReady, found]
  by_cases queued : fiber.queued = true
  · simpa [queued] using queue
  · have absent : id ∉ s.ready := fun member => by
      obtain ⟨other, there, flag⟩ := (queue.flagged id).mp member
      cases found.symm.trans there
      exact queued flag
    simp only [queued, Bool.false_eq_true, if_false]
    refine ⟨fun i => ?_, List.nodup_append.mpr ⟨queue.once, List.nodup_singleton _, ?_⟩⟩
    · rw [List.mem_append, List.mem_singleton, queue.flagged i]
      by_cases same : i = id
      · subst same
        simp [known]
      · simp [same, Ne.symm same]
    · rintro a member b last rfl
      exact absent (List.mem_singleton.mp last ▸ member)

/-- Queueing several fibers changes their flags and the queue only. -/
theorem wake_eq (s : Scheduler) (ids : List ℕ) : ids.foldl Scheduler.makeReady s = { s with
    fibers := s.fibers.mapIdx fun i fiber => { fiber with queued := fiber.queued || decide (i ∈ ids) },
    ready := (ids.foldl Scheduler.makeReady s).ready } := by
  induction ids generalizing s with
  | nil =>
    have same : (s.fibers.mapIdx fun i fiber => { fiber with queued := fiber.queued || decide (i ∈ ([] : List ℕ)) }) =
        s.fibers := List.ext_getElem? (by simp)
    rw [same]
    rfl
  | cons id rest ih =>
    rw [List.foldl_cons, ih, makeReady_eq]
    congr 1
    apply List.ext_getElem?
    intro i
    rw [List.getElem?_mapIdx, List.getElem?_mapIdx, List.getElem?_modify]
    by_cases same : id = i
    · subst same
      cases s.fibers[id]? <;> simp
    · cases s.fibers[i]? <;> simp [same, Ne.symm same]

theorem wake_listed (s : Scheduler) (ids : List ℕ) (i : ℕ) : (ids.foldl Scheduler.makeReady s).Listed i = s.Listed i := by
  rw [wake_eq]
  funext w
  cases w <;> rfl

theorem makeReady_listed (s : Scheduler) (id i : ℕ) : (s.makeReady id).Listed i = s.Listed i := wake_listed s [id] i

theorem Queue.wake {s : Scheduler} (queue : s.Queue) {ids : List ℕ} (known : ∀ id ∈ ids, id < s.fibers.length) :
    (ids.foldl Scheduler.makeReady s).Queue := by
  induction ids generalizing s with
  | nil => exact queue
  | cons id rest ih =>
    refine ih (queue.makeReady id (known id (List.mem_cons_self ..))) fun i member => ?_
    rw [makeReady_eq, List.length_modify]
    exact known i (List.mem_cons_of_mem _ member)

/-! ## Waking -/

variable {s s' : Scheduler} {running : Option ℕ} {asked : ℕ → Option ParkRequest}

/-- Taking some entries off the wait structures and queueing exactly the fibers concerned keeps the invariant. -/
theorem Ok.wake (ok : s.Ok running asked) {ids : List ℕ} (taken : WaitList → Prop) (fibers : s'.fibers = s.fibers)
    (ready : s'.ready = s.ready) (io : s'.ioBlocked = s.ioBlocked)
    (listed : ∀ id w, s'.Listed id w ↔ s.Listed id w ∧ ¬ taken w)
    (woken : ∀ id, id ∈ ids ↔ ∃ w, s.Listed id w ∧ taken w) (nonempty : Occupied s'.pollBlocked) :
    (ids.foldl Scheduler.makeReady s').Ok running asked := by
  have known : ∀ id ∈ ids, id < s'.fibers.length := by
    intro id member
    obtain ⟨w, was, -⟩ := (woken id).mp member
    exact fibers ▸ ok.known id w was
  refine ⟨Queue.wake ⟨?_, ready ▸ ok.once⟩ known, fun id fiber found => ?_, fun id w there => ?_, ?_, ?_, ?_⟩
  · rw [fibers, ready]
    exact ok.flagged
  · rw [wake_eq, List.getElem?_mapIdx, fibers] at found
    obtain ⟨old, there, rfl⟩ := Option.map_eq_some_iff.mp found
    rw [wake_listed]
    by_cases member : id ∈ ids
    · simpa [member] using (ok.fibers id old there).wake (listed id) ((woken id).mp member)
    · have same : s'.Listed id = s.Listed id := by
        funext w
        rw [listed]
        exact propext (and_iff_left_of_imp fun was gone => member ((woken id).mpr ⟨w, was, gone⟩))
      simpa [member, same] using ok.fibers id old there
  · rw [wake_listed, listed] at there
    rw [wake_eq, List.length_mapIdx, fibers]
    exact ok.known id w there.1
  · rw [wake_eq, List.length_mapIdx, fibers]
    exact ok.current
  · rw [wake_eq]
    exact nonempty
  · have count (fibers : List Fiber) : (fibers.countP fun fiber => fiber.pending.isSome) =
        (fibers.map (·.pending)).countP Option.isSome := by rw [List.countP_map]; rfl
    rw [wake_eq, io, ok.counted, count, count, fibers]
    congr 1
    apply List.ext_getElem?
    simp [Function.comp_def]

theorem Ok.wakeAll (ok : s.Ok running asked) : s.wakeAll.Ok running asked := by
  refine ok.wake (· = .blocked) rfl rfl rfl (fun id w => ?_) (fun id => ?_) ok.nonempty
  · cases w <;> simp [Listed, waiters]
  · simp [Listed]

theorem waiters_insert (s : Scheduler) (handle handle' : Int64) (parked : List ℕ) :
    { s with pollBlocked := s.pollBlocked.insert handle parked }.waiters handle' =
      if handle' = handle then parked else s.waiters handle' := by
  by_cases same : handle' = handle
  · subst same
    simp [waiters]
  · simp [waiters, same, AList.lookup_insert_ne same]

theorem waiters_erase (s : Scheduler) (handle handle' : Int64) :
    { s with pollBlocked := s.pollBlocked.erase handle }.waiters handle' =
      if handle' = handle then [] else s.waiters handle' := by
  by_cases same : handle' = handle
  · subst same
    simp [waiters]
  · simp [waiters, same, AList.lookup_erase_ne same]

section

variable {polls : AList fun _ : Int64 => List ℕ}

theorem Occupied.insert (occupied : Occupied polls) (handle : Int64) {parked : List ℕ} (some : parked ≠ []) :
    Occupied (polls.insert handle parked) := by
  intro handle' waiters found
  by_cases same : handle' = handle
  · subst same
    rw [AList.lookup_insert] at found
    exact Option.some.inj found ▸ some
  · rw [AList.lookup_insert_ne same] at found
    exact occupied handle' waiters found

theorem Occupied.erase (occupied : Occupied polls) (handle : Int64) : Occupied (polls.erase handle) := by
  intro handle' waiters found
  by_cases same : handle' = handle
  · subst same
    simp at found
  · rw [AList.lookup_erase_ne same] at found
    exact occupied handle' waiters found

end

theorem Ok.wakePoll (ok : s.Ok running asked) (handle : Int64) : (s.wakePoll handle).Ok running asked := by
  rw [Scheduler.wakePoll]
  cases found : s.pollBlocked.lookup handle with
  | none => exact ok
  | some parked =>
    refine ok.wake (· = .poll handle) rfl rfl rfl (fun id w => ?_) (fun id => ?_) (Occupied.erase ok.nonempty handle)
    · cases w with
      | blocked | timer deadline => simp [Listed]
      | poll handle' =>
        rw [Listed, waiters_erase]
        by_cases same : handle' = handle <;> simp [Listed, same]
    · simp [Listed, waiters, found]

theorem Ok.wakeDueTimers (ok : s.Ok running asked) (now : ℕ) : (s.wakeDueTimers now).Ok running asked := by
  refine ok.wake (fun w => ∃ deadline ≤ now, w = .timer deadline) rfl rfl rfl (fun id w => ?_) (fun id => ?_) ok.nonempty
  · cases w <;> simp [Listed, waiters]
  · simp [Listed]

/-! ## Changing one fiber -/

variable {id : ℕ} {fiber : Fiber} {vstack : List Value} {frames : List Frame} {finish : IoFinish}

/-- A change to one fiber and its lists keeps the invariant if the fiber's new record agrees with them. -/
theorem Ok.update {running' : Option ℕ} {asked' : ℕ → Option ParkRequest} (ok : s.Ok running asked) {old : Fiber}
    (new : Fiber) (there : s.fibers[id]? = some old) (fibers : s'.fibers = s.fibers.set id new) (queue : s'.Queue)
    (others : ∀ i w, i ≠ id → (s'.Listed i w ↔ s.Listed i w))
    (mine : FiberOk (s'.Listed id) (running' = some id) (asked' id) new)
    (runs : ∀ i, i ≠ id → (running' = some i ↔ running = some i)) (asks : ∀ i, i ≠ id → asked' i = asked i)
    (nonempty : Occupied s'.pollBlocked)
    (counted : s'.ioBlocked + (if old.pending.isSome then 1 else 0) = s.ioBlocked + if new.pending.isSome then 1 else 0) :
    s'.Ok running' asked' := by
  obtain ⟨bound, same⟩ := List.getElem?_eq_some_iff.mp there
  have length : s'.fibers.length = s.fibers.length := by rw [fibers, List.length_set]
  refine ⟨queue, fun i fiber found => ?_, fun i w listed => ?_, fun i current => ?_, nonempty, ?_⟩
  · by_cases here : i = id
    · subst here
      rw [fibers, List.getElem?_set_self bound] at found
      cases found
      exact mine
    · rw [fibers, List.getElem?_set_ne (Ne.symm here)] at found
      have listed : s'.Listed i = s.Listed i := funext fun w => propext (others i w here)
      rw [listed, asks i here, propext (runs i here)]
      exact ok.fibers i fiber found
  · by_cases here : i = id
    · exact here ▸ length ▸ bound
    · exact length ▸ ok.known i w ((others i w here).mp listed)
  · by_cases here : i = id
    · exact here ▸ length ▸ bound
    · exact length ▸ ok.current i ((runs i here).mp current)
  · have positive : (if old.pending.isSome then 1 else 0) ≤ s.fibers.countP fun fiber => fiber.pending.isSome := by
      split_ifs with some
      · exact List.countP_pos_iff.mpr ⟨old, List.mem_of_getElem? there, some⟩
      · exact Nat.zero_le _
    rw [fibers, List.countP_set bound, same]
    have := ok.counted
    omega

theorem Ok.runningFiber (ok : s.Ok (some id) asked) :
    s.fibers[id]? = some ⟨.running, none, false, none⟩ ∧ ∀ w, ¬ s.Listed id w := by
  obtain ⟨fiber, there⟩ : ∃ fiber, s.fibers[id]? = some fiber := ⟨_, List.getElem?_eq_getElem (ok.current id rfl)⟩
  cases ok.fibers id fiber there with
  | running unlisted => exact ⟨there, unlisted⟩
  | notStarted _ _ stopped | done _ _ stopped | waiting _ _ _ _ _ _ _ stopped | woken _ _ _ _ _ _ _ stopped =>
    exact absurd rfl stopped

/-- The queue does not depend on what else changes about a fiber. -/
theorem Queue.set (queue : s.Queue) {old new : Fiber} (there : s.fibers[id]? = some old)
    (fibers : s'.fibers = s.fibers.set id new) (ready : s'.ready = s.ready) (same : new.queued = old.queued) :
    s'.Queue := by
  obtain ⟨bound, -⟩ := List.getElem?_eq_some_iff.mp there
  refine ⟨fun i => ?_, ready ▸ queue.once⟩
  rw [ready, queue.flagged i, fibers]
  by_cases here : i = id
  · subst here
    rw [List.getElem?_set_self bound, there]
    simp [same]
  · rw [List.getElem?_set_ne (Ne.symm here)]

/-! ## Spawning and finishing -/

theorem Ok.spawn (ok : s.Ok running asked) (closure : Value) : (s.spawn closure).2.Ok running asked := by
  have spawned : (s.spawn closure).2 = { s with
      fibers := s.fibers ++ [⟨.notStarted closure, none, true, none⟩], ready := s.ready ++ [s.fibers.length] } := by
    simp [Scheduler.spawn, Scheduler.makeReady, freshFiber]
  rw [spawned]
  refine ⟨⟨fun id => ?_, ?_⟩, fun id fiber found => ?_, fun id w listed => ?_, fun id current => ?_, ok.nonempty, ?_⟩
  · rw [List.mem_append, List.mem_singleton, ok.flagged id]
    simp [List.getElem?_concat_iff, or_and_right, exists_or]
  · refine List.nodup_append.mpr ⟨ok.once, List.nodup_singleton _, ?_⟩
    rintro a member b last rfl
    obtain ⟨fiber, found, -⟩ := (ok.flagged a).mp member
    have bound := (List.getElem?_eq_some_iff.mp found).1
    exact Nat.lt_irrefl _ (List.mem_singleton.mp last ▸ bound)
  · obtain found | ⟨rfl, rfl⟩ := List.getElem?_concat_iff.mp found
    · exact ok.fibers id fiber found
    · exact .notStarted closure (fun w listed => Nat.lt_irrefl _ (ok.known _ w listed))
        fun current => Nat.lt_irrefl _ (ok.current _ current)
  · simpa using Nat.lt_succ_of_lt (ok.known id w listed)
  · simpa using Nat.lt_succ_of_lt (ok.current id current)
  · simp [ok.counted]

theorem Ok.complete (ok : s.Ok (some id) asked) (value : Value) : (s.complete id value).Ok none asked := by
  obtain ⟨there, unlisted⟩ := ok.runningFiber
  refine Ok.wakeAll (ok.update ⟨.done value, none, false, none⟩ there (modify_eq_set there _)
    (ok.toQueue.set there (modify_eq_set there _) rfl rfl) (fun i w other => Iff.rfl)
    (.done value unlisted (by simp)) (fun i other => by simpa using Ne.symm other) (fun i _ => rfl) ok.nonempty rfl)

/-! ## Parking -/

/-- Only the sockets' lists changed, to hold the fibers `listed`. -/
def Repolled (s s' : Scheduler) (listed : ℕ → Int64 → Prop) : Prop :=
  ∃ pollBlocked, s' = { s with pollBlocked } ∧ (∀ i handle, i ∈ { s with pollBlocked }.waiters handle ↔ listed i handle) ∧
    (Occupied s.pollBlocked → Occupied pollBlocked)

/-- What an action does to the lists of several sockets, from what it does to one. -/
theorem Repolled.all {act : Scheduler → Int64 → Scheduler} {after : Prop → Prop → Prop}
    (once : ∀ s first, Repolled s (act s first) fun i handle => after (i ∈ s.waiters handle) (i = id ∧ handle = first))
    (never : ∀ p, after p False ↔ p) (twice : ∀ p q r, after (after p q) r ↔ after p (q ∨ r)) (s : Scheduler)
    (handles : List Int64) :
    Repolled s (handles.foldl act s) fun i handle => after (i ∈ s.waiters handle) (i = id ∧ handle ∈ handles) := by
  induction handles generalizing s with
  | nil => exact ⟨s.pollBlocked, rfl, by simp [never], fun nonempty => nonempty⟩
  | cons first rest ih =>
    obtain ⟨middle, acted, listed, nonempty⟩ := once s first
    obtain ⟨pollBlocked, acted', listed', nonempty'⟩ := ih { s with pollBlocked := middle }
    refine ⟨pollBlocked, by rw [List.foldl_cons, acted, acted'], fun i handle => (listed' i handle).trans ?_,
      fun before => nonempty' (nonempty before)⟩
    simp only [listed, twice, List.mem_cons, and_or_left]

/-- What listing a fiber under several sockets does. -/
theorem pollPush_all (s : Scheduler) (id : ℕ) (handles : List Int64) :
    Repolled s (handles.foldl (fun s handle => s.pollPush id handle) s)
      fun i handle => i ∈ s.waiters handle ∨ i = id ∧ handle ∈ handles := by
  refine .all (fun s first => ⟨_, rfl, fun i handle => ?_, fun occupied => occupied.insert first (by simp)⟩) (by simp)
    (by simp [or_assoc]) s handles
  rw [waiters_insert]
  by_cases same : handle = first <;> simp [same]

/-- What a park other than a yield does: the fiber is suspended and listed where its request says. -/
theorem park_effect {req : ParkRequest} (blocks : req ≠ .yieldReady) (done : s.park id vstack frames req = some s') :
    s'.fibers = s.fibers.modify id (fun fiber =>
        ⟨.suspended vstack frames, fiber.pending, fiber.queued, req.sources.or fiber.parkSources⟩) ∧
      s'.ready = s.ready ∧ s'.ioBlocked = s.ioBlocked ∧ s'.channels = s.channels ∧ req.pending = none ∧
      (∀ i w, s'.Listed i w ↔ s.Listed i w ∨ i = id ∧ req.Names w) ∧
      (Occupied s.pollBlocked → Occupied s'.pollBlocked) := by
  cases req with
  | yieldReady => exact absurd rfl blocks
  | await finish => cases done
  | blockRetry =>
    cases done
    refine ⟨rfl, rfl, rfl, rfl, rfl, fun i w => ?_, fun nonempty => nonempty⟩
    cases w <;> simp [Listed, ParkRequest.Names, waiters, modifyFiber]
  | timer deadline =>
    cases done
    refine ⟨rfl, rfl, rfl, rfl, rfl, fun i w => ?_, fun nonempty => nonempty⟩
    cases w <;> simp [Listed, ParkRequest.Names, waiters, modifyFiber, and_comm]
  | ready handle =>
    cases done
    refine ⟨rfl, rfl, rfl, rfl, rfl, fun i w => ?_, fun nonempty => nonempty.insert handle (by simp)⟩
    cases w with
    | poll handle' =>
      rw [Listed, pollPush, waiters_insert]
      by_cases same : handle' = handle
      · subst same
        simp [Listed, ParkRequest.Names, waiters, modifyFiber]
      · simp [Listed, ParkRequest.Names, waiters, modifyFiber, same]
    | _ => simp [Listed, ParkRequest.Names, modifyFiber, pollPush]
  | multi deadline handles =>
    obtain ⟨pollBlocked, pushed, listed, nonempty⟩ := pollPush_all { s with
      fibers := s.fibers.modify id fun fiber => { fiber with state := .suspended vstack frames },
      blocked := s.blocked ++ [id], timers := s.timers ++ deadline.toList.map fun deadline => (deadline, id) } id handles
    simp only [park, modifyFiber] at done
    rw [pushed] at done
    cases done
    refine ⟨List.modify_modify_eq .., rfl, rfl, rfl, rfl, fun i w => ?_, nonempty⟩
    cases w with
    | blocked => simp [Listed, ParkRequest.Names]
    | timer d => simp [Listed, ParkRequest.Names, and_comm, eq_comm]
    | poll handle => exact listed i handle

theorem Ok.park (ok : s.Ok (some id) asked) {req : ParkRequest} (resumable : frames ≠ [])
    (done : s.park id vstack frames req = some s') : s'.Ok none (Function.update asked id (some req)) := by
  obtain ⟨there, unlisted⟩ := ok.runningFiber
  have runs (i : ℕ) (other : i ≠ id) : none = some i ↔ some id = some i := by simpa using Ne.symm other
  have asks (i : ℕ) (other : i ≠ id) : Function.update asked id (some req) i = asked i := Function.update_of_ne other ..
  by_cases yields : req = .yieldReady
  · subst yields
    cases done
    have parked : (s.modifyFiber id fun fiber => { fiber with state := .suspended vstack frames }).fibers =
        s.fibers.set id ⟨.suspended vstack frames, none, false, none⟩ := modify_eq_set there _
    have bound : id < s.fibers.length := ok.current id rfl
    refine ok.update ⟨.suspended vstack frames, none, true, none⟩ there ?_
      ((ok.toQueue.set there parked rfl rfl).makeReady id (by rw [parked]; simpa using bound)) (fun i w other => ?_) ?_
      runs asks ?_ ?_
    · rw [makeReady_eq, parked, modify_set]
    · rw [makeReady_listed]
      exact Iff.rfl
    · rw [makeReady_listed, Function.update_self]
      exact .woken .yieldReady vstack frames rfl (fun w listed => absurd listed (unlisted w)) (fun _ => unlisted)
        resumable (by simp)
    · rw [makeReady_eq]
      exact ok.nonempty
    · rw [makeReady_eq]
      rfl
  · obtain ⟨fibers, ready, io, -, host, listed, nonempty⟩ := park_effect yields done
    rw [modify_eq_set there, Option.or_none] at fibers
    refine ok.update ⟨.suspended vstack frames, none, false, req.sources⟩ there fibers
      (ok.toQueue.set there fibers ready rfl) (fun i w other => by simp [listed, other]) ?_ runs asks
      (nonempty ok.nonempty) (by simp [io])
    have waits : FiberOk (s'.Listed id) (none = some id) (some req)
        ⟨.suspended vstack frames, req.pending, false, req.sources⟩ :=
      .waiting req vstack frames rfl (fun w => by simp [listed, unlisted]) yields resumable (by simp)
    rw [Function.update_self]
    rwa [host] at waits

theorem Ok.parkIo (ok : s.Ok (some id) asked) (resumable : frames ≠ []) :
    (s.parkIo id vstack frames finish).Ok none (Function.update asked id (some (.await finish))) := by
  obtain ⟨there, unlisted⟩ := ok.runningFiber
  have fibers : (s.parkIo id vstack frames finish).fibers =
      s.fibers.set id ⟨.suspended vstack frames, some finish, false, none⟩ := modify_eq_set there _
  refine ok.update _ there fibers (ok.toQueue.set there fibers rfl rfl) (fun i w other => by cases w <;> exact Iff.rfl) ?_
    (fun i other => by simpa using Ne.symm other) (fun i other => Function.update_of_ne other ..) ok.nonempty rfl
  rw [Function.update_self]
  refine .waiting (.await finish) vstack frames rfl (fun w => ?_) (by simp) resumable (by simp)
  have no := unlisted w
  cases w <;> exact ⟨fun listed => absurd listed no, False.elim⟩

/-! ## Resuming -/

/-- What taking a fiber off several sockets' lists does. -/
theorem pollDrop_all (s : Scheduler) (id : ℕ) (handles : List Int64) :
    Repolled s (handles.foldl (fun s handle => s.pollDrop id handle) s)
      fun i handle => i ∈ s.waiters handle ∧ ¬ (i = id ∧ handle ∈ handles) := by
  refine @Repolled.all id _ (· ∧ ¬ ·) (fun s first => ?_) (by simp) (by simp [and_assoc]) s handles
  rw [pollDrop]
  cases found : s.pollBlocked.lookup first with
  | none =>
    refine ⟨s.pollBlocked, rfl, fun i handle => ⟨fun member => ⟨member, ?_⟩, And.left⟩, fun nonempty => nonempty⟩
    rintro ⟨-, rfl⟩
    simp [waiters, found] at member
  | some parked =>
    have here : s.waiters first = parked := by rw [waiters, found]; rfl
    by_cases last : (parked.filter (· ≠ id)).isEmpty
    · refine ⟨s.pollBlocked.erase first, by simp only [last, if_true], fun i handle => ?_,
        fun nonempty => nonempty.erase first⟩
      rw [waiters_erase]
      by_cases same : handle = first
      · subst same
        have only : ∀ i ∈ parked, i = id := by simpa using last
        simpa [here] using only i
      · simp [same]
    · refine ⟨s.pollBlocked.insert first (parked.filter (· ≠ id)), by simp only [last]; rfl, fun i handle => ?_,
        fun nonempty => nonempty.insert first (by simpa using last)⟩
      rw [waiters_insert]
      by_cases same : handle = first <;> simp [same, here]

/-- Sweeping a fiber whose lists are those of its request leaves it in none. -/
theorem unlist_effect {req : ParkRequest} (there : s.fibers[id]? = some fiber)
    (sources : fiber.parkSources = req.sources) (within : ∀ w, s.Listed id w → req.Names w)
    (swept : req.sources = none → ∀ w, ¬ s.Listed id w) :
    (s.unlist id).fibers = s.fibers.set id { fiber with parkSources := none } ∧ (s.unlist id).ready = s.ready ∧
      (s.unlist id).ioBlocked = s.ioBlocked ∧ (s.unlist id).channels = s.channels ∧
      (∀ i w, (s.unlist id).Listed i w ↔ s.Listed i w ∧ i ≠ id) ∧
      (Occupied s.pollBlocked → Occupied (s.unlist id).pollBlocked) := by
  by_cases single : req.sources = none
  · have same : s.unlist id = s := by rw [unlist, there, Option.bind_some, sources, single]
    rw [same]
    refine ⟨?_, rfl, rfl, rfl, fun i w => ⟨fun listed => ⟨listed, ?_⟩, And.left⟩, fun nonempty => nonempty⟩
    · obtain ⟨bound, rfl⟩ := List.getElem?_eq_some_iff.mp there
      rw [single] at sources
      rw [← sources]
      exact (List.set_getElem_self bound).symm
    · rintro rfl
      exact swept single w listed
  · obtain ⟨deadline, handles, rfl⟩ : ∃ deadline handles, req = .multi deadline handles := by
      cases req <;> simp_all [ParkRequest.sources]
    obtain ⟨pollBlocked, dropped, listed, nonempty⟩ := pollDrop_all { s with
      fibers := s.fibers.set id { fiber with parkSources := none }, blocked := s.blocked.filter (· ≠ id),
      timers := if deadline.isSome then s.timers.filter fun timer => timer.2 ≠ id else s.timers } id handles
    have state : s.unlist id = { s with
        fibers := s.fibers.set id { fiber with parkSources := none }, blocked := s.blocked.filter (· ≠ id),
        timers := if deadline.isSome then s.timers.filter fun timer => timer.2 ≠ id else s.timers, pollBlocked } := by
      rw [← dropped, unlist, there, Option.bind_some, sources]
      simp only [ParkRequest.sources, modifyFiber, modify_eq_set there]
    rw [state]
    refine ⟨rfl, rfl, rfl, rfl, fun i w => ?_, nonempty⟩
    cases w with
    | blocked => simp [Listed]
    | timer d =>
      cases deadline with
      | some deadline => simp [Listed]
      | none =>
        -- Without a deadline in the request the fiber has no timer entry to sweep.
        refine ⟨fun there => ⟨there, ?_⟩, And.left⟩
        rintro rfl
        simpa [ParkRequest.Names] using within (.timer d) there
    | poll handle =>
      refine (listed i handle).trans ⟨fun ⟨member, kept⟩ => ⟨member, ?_⟩,
        fun ⟨member, other⟩ => ⟨member, fun both => other both.1⟩⟩
      rintro rfl
      exact kept ⟨rfl, within (.poll handle) member⟩

/-- A fiber taken from the queue has something to run. -/
def Resumable : FiberState → Prop
  | .notStarted _ => True
  | .suspended _ frames => frames ≠ []
  | .running | .done _ => False

/-- A queued fiber is waiting to start or was woken from its last park. -/
theorem Ok.queuedFiber (ok : s.Ok running asked) (there : s.fibers[id]? = some fiber) (queued : fiber.queued = true) :
    fiber.pending = none ∧ Resumable fiber.state ∧
      ∃ req : ParkRequest, fiber.parkSources = req.sources ∧ (∀ w, s.Listed id w → req.Names w) ∧
        (req.sources = none → ∀ w, ¬ s.Listed id w) := by
  cases ok.fibers id fiber there with
  | notStarted closure unlisted =>
    exact ⟨rfl, trivial, .yieldReady, rfl, fun w listed => absurd listed (unlisted w), fun _ => unlisted⟩
  | running | done | waiting => cases queued
  | woken req vstack frames parked within swept resumable => exact ⟨rfl, resumable, req, rfl, within, swept⟩

/-- What resuming the first fiber of the queue does. -/
theorem nextReady_effect (ok : s.Ok none asked) {state : FiberState} (picked : s.nextReady = some (id, state, s')) :
    ∃ fiber, s.fibers[id]? = some fiber ∧ fiber.queued = true ∧ fiber.state = state ∧ fiber.pending = none ∧
      s.ready = id :: s'.ready ∧ s'.fibers = s.fibers.set id ⟨.running, none, false, none⟩ ∧
      s'.ioBlocked = s.ioBlocked ∧ s'.channels = s.channels ∧ (∀ i w, s'.Listed i w ↔ s.Listed i w ∧ i ≠ id) ∧
      Occupied s'.pollBlocked := by
  cases queue : s.ready with
  | nil => simp [nextReady, queue] at picked
  | cons first rest =>
    obtain ⟨fiber, there, queued⟩ := (ok.flagged first).mp (queue ▸ List.mem_cons_self ..)
    obtain ⟨host, -, req, sources, within, swept⟩ := ok.queuedFiber there queued
    have bound := (List.getElem?_eq_some_iff.mp there).1
    have unflagged : ({ s with ready := rest }.modifyFiber first fun fiber => { fiber with queued := false }).fibers =
        s.fibers.set first { fiber with queued := false } := modify_eq_set there _
    have here : ({ s with ready := rest }.modifyFiber first fun fiber => { fiber with queued := false }).fibers[first]? =
        some { fiber with queued := false } := by rw [unflagged, List.getElem?_set_self bound]
    obtain ⟨fibers, ready, io, channels, listed, nonempty⟩ := unlist_effect here sources within swept
    rw [unflagged, List.set_set] at fibers
    simp only [nextReady, queue] at picked
    rw [fibers, List.getElem?_set_self bound] at picked
    cases picked
    refine ⟨fiber, there, queued, rfl, host, (congrArg (List.cons _) ready).symm, ?_, io, channels, fun i w => ?_,
      nonempty ok.nonempty⟩
    · rw [modifyFiber, fibers, modify_set, host]
    · refine Iff.trans ?_ (listed i w)
      cases w <;> exact Iff.rfl

theorem Ok.nextReady (ok : s.Ok none asked) {state : FiberState} (picked : s.nextReady = some (id, state, s')) :
    s'.Ok (some id) asked ∧ Resumable state := by
  obtain ⟨fiber, there, queued, rfl, host, ready, fibers, io, -, listed, nonempty⟩ := nextReady_effect ok picked
  have once := ok.once
  rw [ready, List.nodup_cons] at once
  have bound := (List.getElem?_eq_some_iff.mp there).1
  refine ⟨ok.update ⟨.running, none, false, none⟩ there fibers ⟨fun i => ?_, once.2⟩
    (fun i w other => by simp [listed, other]) (.running (fun w => by simp [listed]) rfl)
    (fun i other => by simpa using Ne.symm other) (fun i _ => rfl) nonempty (by simp [io, host]),
    (ok.queuedFiber there queued).2.1⟩
  have flagged := ok.flagged i
  rw [ready, List.mem_cons] at flagged
  by_cases here : i = id
  · subst here
    rw [fibers, List.getElem?_set_self bound]
    simpa using once.1
  · rw [fibers, List.getElem?_set_ne (Ne.symm here), ← flagged]
    simp [here]

/-! ## Delivering -/

/-- A fiber with a pending host operation is parked on it and listed nowhere. -/
theorem Ok.pendingFiber (ok : s.Ok running asked) (there : s.fibers[id]? = some fiber)
    (pending : fiber.pending = some finish) :
    asked id = some (.await finish) ∧ (∀ w, ¬ s.Listed id w) ∧ running ≠ some id ∧
      ∃ vstack frames, fiber = ⟨.suspended vstack frames, some finish, false, none⟩ ∧ frames ≠ [] := by
  cases ok.fibers id fiber there with
  | notStarted | running | done | woken => cases pending
  | waiting req vstack frames parked exact_ blocks resumable stopped =>
    cases req <;> simp only [ParkRequest.pending, reduceCtorEq, Option.some.injEq] at pending
    subst pending
    exact ⟨parked, fun w listed => by have named := (exact_ w).mp listed; cases w <;> exact named, stopped,
      vstack, frames, rfl, resumable⟩

/-- What delivering a host operation's result does. -/
theorem deliver_effect (ok : s.Ok running asked) {value : Value} {taken : Scheduler}
    (takes : s.takePending id = some (finish, taken)) (done : taken.deliver id value = some s') :
    ∃ fiber vstack frames, s.fibers[id]? = some fiber ∧ fiber.pending = some finish ∧ frames ≠ [] ∧
      s'.fibers = s.fibers.set id ⟨.suspended vstack frames, none, true, none⟩ ∧ s'.Queue ∧
      s'.ioBlocked = s.ioBlocked - 1 ∧ s'.channels = s.channels ∧ s'.pollBlocked = s.pollBlocked ∧
      s'.blocked = s.blocked ∧ ∀ i, s'.Listed i = s.Listed i := by
  obtain ⟨fiber, there, takes⟩ := Option.bind_eq_some_iff.mp takes
  obtain ⟨op, pending, same⟩ := Option.bind_eq_some_iff.mp takes
  cases same
  obtain ⟨-, -, -, vstack, frames, rfl, resumable⟩ := ok.pendingFiber there pending
  have bound := (List.getElem?_eq_some_iff.mp there).1
  have emptied : (s.modifyFiber id fun fiber => { fiber with pending := none }).fibers =
      s.fibers.set id ⟨.suspended vstack frames, none, false, none⟩ := modify_eq_set there _
  rw [deliver, emptied, List.getElem?_set_self bound] at done
  cases vstack with
  | nil => cases done
  | cons bottom above =>
    cases done
    have placed : ((s.modifyFiber id fun fiber => { fiber with pending := none }).modifyFiber id fun fiber =>
        { fiber with state := .suspended ((bottom :: above).dropLast ++ [value]) frames }).fibers =
        s.fibers.set id ⟨.suspended ((bottom :: above).dropLast ++ [value]) frames, none, false, none⟩ := by
      rw [modifyFiber, emptied, modify_set]
    rw [makeReady_eq]
    refine ⟨_, (bottom :: above).dropLast ++ [value], frames, there, pending, resumable, ?_, ?_, rfl, rfl, rfl, rfl, fun i => ?_⟩
    · change (((s.modifyFiber id _).modifyFiber id _).fibers).modify id _ = _
      rw [placed, modify_set]
    · rw [← makeReady_eq]
      refine Queue.makeReady ?_ id ?_
      · exact ok.toQueue.set there placed rfl rfl
      · change id < ((s.modifyFiber id _).modifyFiber id _).fibers.length
        rw [placed]
        simpa using bound
    · funext w
      cases w <;> rfl

theorem Ok.deliver (ok : s.Ok running asked) {value : Value} {taken : Scheduler}
    (takes : s.takePending id = some (finish, taken)) (done : taken.deliver id value = some s') :
    s'.Ok running asked := by
  obtain ⟨fiber, vstack, frames, there, pending, resumable, fibers, queue, io, -, polls, -, listed⟩ :=
    deliver_effect ok takes done
  obtain ⟨parked, unlisted, stopped, -⟩ := ok.pendingFiber there pending
  have counted : 0 < s.ioBlocked := by
    rw [ok.counted]
    exact List.countP_pos_iff.mpr ⟨fiber, List.mem_of_getElem? there, by simp [pending]⟩
  refine ok.update _ there fibers queue (fun i w _ => by rw [listed]) ?_ (fun i _ => Iff.rfl) (fun i _ => rfl)
    (polls ▸ ok.nonempty) (by simp [pending]; omega)
  rw [listed]
  exact .woken (.await finish) vstack frames parked (fun w there => absurd there (unlisted w)) (fun _ => unlisted)
    resumable stopped

end Scheduler

end Thera.Runtime
