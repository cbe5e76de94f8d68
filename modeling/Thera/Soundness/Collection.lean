import Thera.Proofs.Runtime.Heap

/-! # Collection is exact

The heap's clients allocate, mutate objects in place, intern constants, write globals and collect. A
run lists such operations; each hands over only values that name occupied slots at that moment, and
the slab never outgrows the 32 bits of a handle. In every heap such a run reaches, a collection keeps
precisely what is reachable and an allocation never hands out a handle that still is.
-/

namespace Thera.Runtime

/-- What a client does with the heap. `mutate` covers `with_obj_mut` and a `take_obj` with the
`restore_obj` that ends it. -/
inductive HeapOp where
  | alloc (obj : Obj)
  | internStr (s : String)
  | mutate (handle : UInt32) (f : Obj → Obj)
  | setGlobals (count : ℕ)
  | globalSet (idx : UInt32) (v : Value)
  | collect (roots : List Value)

namespace HeapOp

/-- The heap after the operation; a panic leaves none. -/
def apply (heapBytes : Obj → ℕ) (heap : Heap) : HeapOp → Option Heap
  | alloc obj => some (heap.alloc heapBytes obj).2
  | internStr s => some (heap.internStr heapBytes s).2
  | mutate handle f => heap.withObjMut handle f
  | setGlobals count => some (heap.setGlobals count)
  | globalSet idx v => heap.globalSet idx v
  | collect roots => heap.collect heapBytes roots

/-- Every value the operation stores or starts from names an occupied slot. -/
def Live (heap : Heap) : HeapOp → Prop
  | alloc obj => ∀ v ∈ obj.childValues, v.LiveIn heap
  | mutate handle f => ∀ obj, heap.get? handle = some obj → ∀ v ∈ (f obj).childValues, v.LiveIn heap
  | globalSet _ v => v.LiveIn heap
  | collect roots => ∀ v ∈ roots, v.LiveIn heap
  | internStr _ | setGlobals _ => True

end HeapOp

/-- The heaps a thread can reach through operations on live values within the handle width. -/
inductive Reached (heapBytes : Obj → ℕ) : Heap → Prop
  | initial (maxHeap : ℕ) : Reached heapBytes (.initial maxHeap)
  | step {heap after : Heap} (op : HeapOp) (before : Reached heapBytes heap) (live : op.Live heap)
      (done : op.apply heapBytes heap = some after) (room : after.slots.length ≤ 2 ^ 32) : Reached heapBytes after

variable {heapBytes : Obj → ℕ}

theorem HeapOp.sound {heap after : Heap} (op : HeapOp) (sound : heap.Sound) (live : op.Live heap)
    (done : op.apply heapBytes heap = some after) (room : after.slots.length ≤ 2 ^ 32) : after.Sound := by
  cases op with
  | alloc obj =>
    cases done
    exact sound.alloc live room
  | internStr s =>
    cases done
    exact sound.internStr s room
  | mutate handle f => exact sound.withObjMut live done
  | setGlobals count =>
    cases done
    exact sound.setGlobals count
  | globalSet idx v => exact sound.globalSet live done
  | collect roots =>
    obtain ⟨collected, same, effect⟩ := sound.collected heapBytes live
    cases same.symm.trans done
    exact sound.collect live effect

theorem Reached.sound {heap : Heap} (reached : Reached heapBytes heap) : heap.Sound := by
  induction reached with
  | initial maxHeap => exact Heap.Sound.initial maxHeap
  | step op _ live done room ih => exact op.sound ih live done room

/-- In every reached heap and from every set of live roots: a collection succeeds, keeps each
reachable slot occupied with its contents, empties every other slot and leaves exactly the empty
slots on the free list, each once; and an allocation returns no reachable handle. -/
theorem collect_exact {heap : Heap} (reached : Reached heapBytes heap) (roots : List Value)
    (live : ∀ v ∈ roots, v.LiveIn heap) :
    (∃ after, heap.collect heapBytes roots = some after ∧
      (∀ handle, heap.Reachable roots handle →
        ∃ obj, heap.get? handle = some obj ∧ after.get? handle = some obj) ∧
      (∀ handle, ¬ heap.Reachable roots handle → after.get? handle = none) ∧
      after.slots.length = heap.slots.length ∧ after.free.Nodup ∧
      ∀ i : UInt32, i ∈ after.free ↔ after.slots[i.toNat]? = some none) ∧
    ∀ obj, (heap.alloc heapBytes obj).2.slots.length ≤ 2 ^ 32 →
      ¬ heap.Reachable roots (heap.alloc heapBytes obj).1 := by
  have sound := reached.sound
  constructor
  · obtain ⟨after, collected, effect⟩ := sound.collected heapBytes live
    refine ⟨after, collected, fun handle reachable => ?_, effect.swept, effect.length, effect.freeNodup,
      effect.mem_free⟩
    obtain ⟨obj, present⟩ := Option.isSome_iff_exists.mp (sound.reachable live reachable)
    exact ⟨obj, present, (effect.kept handle reachable).trans present⟩
  · intro obj room reachable
    have present := sound.reachable live reachable
    rw [(sound.allocated obj room).fresh] at present
    cases present

/-- A string, a second one nothing refers to, and a list that holds the first. -/
def sampleHeap : Heap :=
  (((Heap.initial 4096).alloc (fun _ => 64) (.str "live")).2.alloc (fun _ => 64) (.str "dead")).2.alloc
    (fun _ => 64) (.list [.ref 0]) |>.2

private theorem sampleHeap_reached : Reached (fun _ => 64) sampleHeap := by
  refine .step (.alloc (.list [.ref 0])) (.step (.alloc (.str "dead")) (.step (.alloc (.str "live"))
    (.initial 4096) ?_ rfl (by decide)) ?_ rfl (by decide)) ?_ rfl (by decide)
  · exact fun v member => absurd member List.not_mem_nil
  · exact fun v member => absurd member List.not_mem_nil
  · intro v member handle same
    obtain rfl : v = .ref 0 := by simpa [Obj.childValues] using member
    cases same
    decide

theorem sampleHeap_collect_exact :
    ∃ after, sampleHeap.collect (fun _ => 64) [.ref 2] = some after ∧ after.get? 0 = some (.str "live") := by
  obtain ⟨⟨after, collected, kept, -⟩, -⟩ := collect_exact sampleHeap_reached [.ref 2] (by
    intro v member handle same
    obtain rfl : v = .ref 2 := by simpa using member
    cases same
    decide)
  have listed : sampleHeap.Reachable [.ref 2] 2 := .root (by decide)
  obtain ⟨obj, before, stored⟩ := kept 0 (.child listed (by decide : _ = some (.list [.ref 0])) (by decide))
  have same : obj = .str "live" := Option.some.inj (before.symm.trans (by decide))
  exact ⟨after, collected, same ▸ stored⟩

/-! ## Dangling roots and wrapped handles -/

/-- `count` strings allocated one after the other. -/
def filledHeap : ℕ → Heap
  | 0 => .initial 4096
  | count + 1 => ((filledHeap count).alloc (fun _ => 64) (.str "")).2

private theorem filledHeap_slots (count : ℕ) :
    (filledHeap count).slots = List.replicate count (some (.str "")) ∧ (filledHeap count).free = [] := by
  induction count with
  | zero => exact ⟨rfl, rfl⟩
  | succ count ih =>
    rw [filledHeap, Heap.alloc, ih.2]
    exact ⟨by rw [ih.1, ← List.replicate_succ'], rfl⟩

private theorem filledHeap_reached (count : ℕ) (room : count ≤ 2 ^ 32) :
    Reached (fun _ => 64) (filledHeap count) := by
  induction count with
  | zero => exact .initial 4096
  | succ count ih =>
    refine .step (.alloc (.str "")) (ih (Nat.le_of_succ_le room)) (fun v member => absurd member List.not_mem_nil) rfl ?_
    rw [(filledHeap_slots (count + 1)).1, List.length_replicate]
    exact room

private theorem filledHeap_alloc (count : ℕ) (positive : 0 < count) :
    (filledHeap count).get? 0 = some (.str "") ∧
      ((filledHeap count).alloc (fun _ => 64) (.str "")).1 = UInt32.ofNat count := by
  obtain ⟨slots, free⟩ := filledHeap_slots count
  rw [Heap.alloc, free, slots, Heap.get?, slots, List.length_replicate]
  exact ⟨by simp [positive], rfl⟩

/-- The heap after a string was allocated and a collection without roots swept it again. -/
def sweptHeap : Heap := { (filledHeap 1) with
  slots := [none], free := [0], heapBytes := 0, nextGcBytes := minGcBytes, gcPending := false }

/-- Both limits are real. A root that dangles stays empty and its handle is handed out again; and
once `2 ^ 32` slots are taken the next handle wraps to the one a live root still names. -/
theorem reachable_handle_reused :
    (∃ heap, Reached (fun _ => 64) heap ∧ heap.Reachable [.ref 0] 0 ∧
      (∃ after, heap.collect (fun _ => 64) [.ref 0] = some after ∧ after.get? 0 = none) ∧
      (heap.alloc (fun _ => 64) (.str "")).1 = 0) ∧
    ∃ heap, Reached (fun _ => 64) heap ∧ (∀ v ∈ [Value.ref 0], v.LiveIn heap) ∧ heap.Reachable [.ref 0] 0 ∧
      (heap.alloc (fun _ => 64) (.str "")).1 = 0 := by
  constructor
  · refine ⟨sweptHeap, .step (.collect []) (filledHeap_reached 1 (by decide))
      (fun v member => absurd member List.not_mem_nil) (by decide) (by decide), .root (by decide), ?_, by decide⟩
    exact ⟨_, rfl, by decide⟩
  · have general (count : ℕ) (positive : 0 < count) (wraps : UInt32.ofNat count = 0) (room : count ≤ 2 ^ 32) :
        ∃ heap, Reached (fun _ => 64) heap ∧ (∀ v ∈ [Value.ref 0], v.LiveIn heap) ∧ heap.Reachable [.ref 0] 0 ∧
          (heap.alloc (fun _ => 64) (.str "")).1 = 0 := by
      obtain ⟨present, handle⟩ := filledHeap_alloc count positive
      refine ⟨filledHeap count, filledHeap_reached count room, ?_, .root (by simp [Heap.allRoots]), handle.trans wraps⟩
      intro v member handle same
      obtain rfl : v = .ref 0 := by simpa using member
      cases same
      rw [present]
      rfl
    exact general (2 ^ 32) (by decide) (by decide) (Nat.le_refl _)

end Thera.Runtime
