import Thera.Soundness.Collection

/-! # The heap byte counter and the memory ceiling

`alloc` adds an object's bytes to the counter and a collection resets it to the bytes that survive,
but the natives that grow a list, a map or a byte builder in place leave it alone. A run carries the
balance of those mutations since the last collection: it is exactly what the counter misses, so the
counter covers the occupied slots, and a safepoint enforces the ceiling, when it is not positive.
-/

namespace Thera.Runtime

/-- The estimated bytes of all occupied slots. -/
def Heap.occupiedBytes (heapBytes : Obj → ℕ) (heap : Heap) : ℕ :=
  (heap.slots.map fun slot => slot.elim 0 heapBytes).sum

/-- The bytes an in-place mutation adds to the object it changes. -/
def HeapOp.growth (heapBytes : Obj → ℕ) (heap : Heap) : HeapOp → ℤ
  | mutate handle f =>
      match heap.get? handle with
      | some obj => heapBytes (f obj) - heapBytes obj
      | none => 0
  | _ => 0

def HeapOp.collects : HeapOp → Bool
  | collect _ => true
  | _ => false

/-- `RunsTo heapBytes heap growth`: the interpreter reaches `heap`, collecting at safepoints only, and
since the last collection the objects it mutated in place grew by `growth` bytes in total. -/
inductive RunsTo (heapBytes : Obj → ℕ) : Heap → ℤ → Prop
  | initial (maxHeap : ℕ) : RunsTo heapBytes (.initial maxHeap) 0
  | client {heap after : Heap} {growth : ℤ} (op : HeapOp) (before : RunsTo heapBytes heap growth)
      (mutator : op.collects = false) (live : op.Live heap) (done : op.apply heapBytes heap = some after)
      (room : after.slots.length ≤ 2 ^ 32) : RunsTo heapBytes after (growth + op.growth heapBytes heap)
  | pauseGc {heap : Heap} {growth : ℤ} (before : RunsTo heapBytes heap growth) :
      RunsTo heapBytes heap.pauseGc growth
  | resumeGc {heap after : Heap} {growth : ℤ} (before : RunsTo heapBytes heap growth)
      (done : heap.resumeGc = some after) : RunsTo heapBytes after growth
  | pollGc {heap after : Heap} {growth : ℤ} (roots : List Value) (before : RunsTo heapBytes heap growth)
      (live : ∀ v ∈ roots, v.LiveIn heap) (done : heap.pollGc heapBytes roots = some (.ok after)) :
      RunsTo heapBytes after (if heap.shouldCollect then 0 else growth)

variable {heapBytes : Obj → ℕ}

/-! ## The occupied bytes -/

private theorem sum_set (weight : Option Obj → ℕ) {slots : List (Option Obj)} {i : ℕ} {old : Option Obj}
    (new : Option Obj) (present : slots[i]? = some old) :
    ((slots.set i new).map weight).sum + weight old = (slots.map weight).sum + weight new := by
  induction slots generalizing i with
  | nil => cases present
  | cons slot slots ih =>
    cases i with
    | zero =>
      cases present
      simp only [List.set_cons_zero, List.map_cons, List.sum_cons]
      omega
    | succ i =>
      have tail := ih present
      simp only [List.set_cons_succ, List.map_cons, List.sum_cons]
      omega

variable {heap after : Heap} {roots : List Value} {growth : ℤ}

theorem Heap.Sound.occupied_alloc (sound : heap.Sound) (obj : Obj) :
    (heap.alloc heapBytes obj).2.occupiedBytes heapBytes = heap.occupiedBytes heapBytes + heapBytes obj := by
  unfold Heap.alloc Heap.occupiedBytes
  split
  next i free holes =>
    -- the reused slot is a hole, so nothing is overwritten
    have hole := (sound.mem_free i).mp (holes ▸ List.mem_cons_self)
    simpa using sum_set (fun slot => slot.elim 0 heapBytes) (some obj) hole
  next => simp

theorem Heap.Sound.occupied_internStr (heapBytes : Obj → ℕ) (sound : heap.Sound) (s : String) :
    ∃ added, (heap.internStr heapBytes s).2.occupiedBytes heapBytes = heap.occupiedBytes heapBytes + added ∧
      (heap.internStr heapBytes s).2.heapBytes = heap.heapBytes + added := by
  unfold Heap.internStr
  split
  next => exact ⟨0, rfl, rfl⟩
  next =>
    refine ⟨heapBytes (.str s), sound.occupied_alloc (.str s), ?_⟩
    change (heap.alloc heapBytes (.str s)).2.heapBytes = _
    unfold Heap.alloc
    split <;> rfl

theorem Heap.occupied_withObjMut (heapBytes : Obj → ℕ) {handle : UInt32} {f : Obj → Obj}
    (done : heap.withObjMut handle f = some after) :
    (after.occupiedBytes heapBytes : ℤ) =
        heap.occupiedBytes heapBytes + (HeapOp.mutate handle f).growth heapBytes heap ∧
      after.heapBytes = heap.heapBytes := by
  obtain ⟨obj, present, changed⟩ := Option.bind_eq_some_iff.mp done
  cases changed
  refine ⟨?_, rfl⟩
  have balance := sum_set (fun slot => slot.elim 0 heapBytes) (some (f obj))
    (Heap.get?_eq_some.mp present)
  simp only [Option.elim] at balance
  simp only [HeapOp.growth, present, Heap.occupiedBytes, Option.elim]
  omega

/-- A collection leaves the counter at the bytes it kept. -/
theorem Heap.collect_heapBytes (done : heap.collect heapBytes roots = some after) :
    after.heapBytes = after.occupiedBytes heapBytes ∧ after.maxHeap = heap.maxHeap := by
  obtain ⟨marked, -, rfl⟩ := Option.map_eq_some_iff.mp done
  exact ⟨rfl, rfl⟩

/-! ## What a safepoint does -/

theorem Heap.pollGc_idle (quiet : heap.shouldCollect = false) :
    heap.pollGc heapBytes roots = some (.ok heap) := by
  simp [pollGc, quiet]

theorem Heap.pollGc_collects (due : heap.shouldCollect = true) (done : heap.collect heapBytes roots = some after) :
    heap.pollGc heapBytes roots =
      some (if heap.maxHeap < after.occupiedBytes heapBytes then
        .error ⟨after.occupiedBytes heapBytes, heap.maxHeap⟩ else .ok after) := by
  obtain ⟨counted, limit⟩ := collect_heapBytes done
  by_cases above : heap.maxHeap < after.occupiedBytes heapBytes <;>
    simp [pollGc, due, done, overCeiling, counted, limit, above]

/-! ## The balance of a run -/

/-- What holds along every run: the counter and the balance of the in-place growth make up the
occupied bytes, and a counter beyond the ceiling has armed a collection. -/
structure Balanced (heapBytes : Obj → ℕ) (heap : Heap) (growth : ℤ) : Prop where
  sound : heap.Sound
  counted : (heap.occupiedBytes heapBytes : ℤ) = heap.heapBytes + growth
  armed : heap.maxHeap < heap.heapBytes → heap.gcPending = true

private theorem armed_alloc (obj : Obj)
    (above : (heap.alloc heapBytes obj).2.maxHeap < (heap.alloc heapBytes obj).2.heapBytes) :
    (heap.alloc heapBytes obj).2.gcPending = true := by
  revert above
  unfold Heap.alloc
  split <;>
  · intro above
    have reached : heap.maxHeap ≤ heap.heapBytes + heapBytes obj := Nat.le_of_lt above
    simp [reached]

private theorem heapBytes_alloc (heap : Heap) (obj : Obj) :
    (heap.alloc heapBytes obj).2.heapBytes = heap.heapBytes + heapBytes obj := by
  unfold Heap.alloc
  split <;> rfl

theorem Balanced.client (op : HeapOp) (ok : Balanced heapBytes heap growth) (mutator : op.collects = false)
    (live : op.Live heap) (done : op.apply heapBytes heap = some after) (room : after.slots.length ≤ 2 ^ 32) :
    Balanced heapBytes after (growth + op.growth heapBytes heap) := by
  have sound := op.sound ok.sound live done room
  have counted := ok.counted
  cases op with
  | alloc obj =>
    cases done
    refine ⟨sound, ?_, armed_alloc obj⟩
    rw [ok.sound.occupied_alloc obj, heapBytes_alloc]
    simp only [HeapOp.growth]
    omega
  | internStr s =>
    cases done
    obtain ⟨added, occupied, bytes⟩ := ok.sound.occupied_internStr heapBytes s
    refine ⟨sound, ?_, ?_⟩
    · rw [occupied, bytes]
      simp only [HeapOp.growth]
      omega
    · unfold Heap.internStr
      split
      next => exact ok.armed
      next => exact armed_alloc (.str s)
  | mutate handle f =>
    obtain ⟨occupied, bytes⟩ := Heap.occupied_withObjMut heapBytes done
    refine ⟨sound, ?_, ?_⟩
    · rw [occupied, bytes]
      omega
    · obtain ⟨obj, -, changed⟩ := Option.bind_eq_some_iff.mp done
      cases changed
      exact ok.armed
  | setGlobals count =>
    cases done
    exact ⟨sound, (counted.trans (congrArg _ (Int.add_zero growth).symm) :), ok.armed⟩
  | globalSet idx v =>
    simp only [HeapOp.apply, Heap.globalSet, Option.ite_none_right_eq_some, Option.some.injEq] at done
    obtain ⟨-, rfl⟩ := done
    exact ⟨sound, (counted.trans (congrArg _ (Int.add_zero growth).symm) :), ok.armed⟩
  | collect roots => cases mutator

theorem Balanced.pollGc (ok : Balanced heapBytes heap growth) (live : ∀ v ∈ roots, v.LiveIn heap)
    (done : heap.pollGc heapBytes roots = some (.ok after)) :
    Balanced heapBytes after (if heap.shouldCollect then 0 else growth) := by
  cases due : heap.shouldCollect with
  | false =>
    rw [Heap.pollGc_idle due] at done
    cases done
    exact ok
  | true =>
    obtain ⟨kept, collected, effect⟩ := ok.sound.collected heapBytes live
    obtain ⟨counted, limit⟩ := Heap.collect_heapBytes collected
    rw [Heap.pollGc_collects due collected] at done
    split at done
    next => cases done
    next fits =>
      cases done
      refine ⟨ok.sound.collect live effect, by simp [counted], fun above => absurd above ?_⟩
      rw [counted, limit]
      exact fits

theorem RunsTo.balanced (run : RunsTo heapBytes heap growth) : Balanced heapBytes heap growth := by
  induction run with
  | initial maxHeap => exact ⟨Heap.Sound.initial maxHeap, rfl, fun above => absurd above (Nat.not_lt_zero _)⟩
  | client op _ mutator live done room ih => exact ih.client op mutator live done room
  | pauseGc _ ih => exact ⟨{ ih.sound with }, ih.counted, ih.armed⟩
  | resumeGc _ done ih =>
    simp only [Heap.resumeGc, Option.ite_none_right_eq_some, Option.some.injEq] at done
    obtain ⟨-, rfl⟩ := done
    exact ⟨{ ih.sound with }, ih.counted, ih.armed⟩
  | pollGc roots _ live done ih => exact ih.pollGc live done

/-- The safepoint enforces the ceiling: when the occupied slots exceed it and collection is not
paused, it collects, and traps if what it keeps still exceeds the ceiling. -/
def Heap.Enforced (heapBytes : Obj → ℕ) (heap : Heap) : Prop :=
  heap.maxHeap < heap.occupiedBytes heapBytes → heap.gcPaused = 0 → ∀ roots, (∀ v ∈ roots, v.LiveIn heap) →
    ∃ after, heap.collect heapBytes roots = some after ∧ heap.pollGc heapBytes roots =
      some (if heap.maxHeap < after.occupiedBytes heapBytes then
        .error ⟨after.occupiedBytes heapBytes, heap.maxHeap⟩ else .ok after)

theorem Balanced.enforced (ok : Balanced heapBytes heap growth) (shrunk : growth ≤ 0) :
    heap.Enforced heapBytes := by
  intro above unpaused roots live
  obtain ⟨after, collected, -⟩ := ok.sound.collected heapBytes live
  have counted := ok.counted
  have pending := ok.armed (by omega)
  exact ⟨after, collected, Heap.pollGc_collects (by simp [Heap.shouldCollect, pending, unpaused]) collected⟩

/-- The capacity of a vector after `n` pushes onto an empty one. -/
def pushCapacity : ℕ → ℕ
  | 0 => 0
  | n + 1 => if n < pushCapacity n then pushCapacity n else max 4 (2 * pushCapacity n)

/-- The estimate for an object whose payload is a vector of values filled by pushing. -/
def pushedBytes (obj : Obj) : ℕ := 72 + 16 * pushCapacity obj.childValues.length

/-- What `list_push` does to its object. -/
def pushUnit : Obj → Obj
  | .list items => .list (items ++ [.unit])
  | obj => obj

/-- A heap under the default ceiling of 1 GiB whose one list was pushed to `n` times. -/
def pushedHeap (n : ℕ) : Heap :=
  { Heap.initial (2 ^ 30) with slots := [some (.list (List.replicate n .unit))], heapBytes := 72 }

private theorem pushedHeap_start : RunsTo pushedBytes (pushedHeap 0) 0 :=
  .client (.alloc (.list [])) (.initial (2 ^ 30)) rfl (fun v member => absurd member List.not_mem_nil) rfl (by decide)

private theorem le_pushCapacity (n : ℕ) : n ≤ pushCapacity n := by
  induction n with
  | zero => exact Nat.zero_le _
  | succ n ih =>
    rw [pushCapacity]
    split <;> omega

private theorem pushedHeap_run (n : ℕ) : ∃ growth, RunsTo pushedBytes (pushedHeap n) growth := by
  induction n with
  | zero => exact ⟨0, pushedHeap_start⟩
  | succ n ih =>
    obtain ⟨growth, run⟩ := ih
    refine ⟨_, .client (.mutate 0 pushUnit) run rfl ?_ ?_ (by simp [pushedHeap])⟩
    · rintro obj present v member handle rfl
      cases present
      simp [pushUnit, Obj.childValues, List.mem_replicate] at member
    · simp [HeapOp.apply, Heap.withObjMut, pushedHeap, Heap.get?, pushUnit, List.replicate_succ']

end Thera.Runtime
