import Thera.Model.Runtime.Value
import Thera.ToMathlib.Tracing

/-! # The runtime heap and its collector

A slab of slots addressed by `u32` handles, with a stack of free holes that `alloc` reuses. The
thread-local cells of the source (the slab, the collection flags, the intern table and the module
globals) are the fields of one record; the mark bitmap is scratch space and belongs to `collect`.
What an object weighs depends on the capacity of its buffers, so the byte estimate `heapBytes` is a
parameter. A step that panics in the source has no result.
-/

namespace Thera.Runtime

structure Heap where
  /-- Object slots; `none` is a free hole. -/
  slots : List (Option Obj)
  /-- Free holes, most recently freed first. -/
  free : List UInt32
  heapBytes : ℕ
  nextGcBytes : ℕ
  gcPending : Bool
  gcPaused : ℕ
  maxHeap : ℕ
  /-- Interned string constants. -/
  intern : List (String × Value)
  globals : List Value
deriving DecidableEq, Repr

def minGcBytes : ℕ := 2 ^ 20

namespace Heap

/-- The heap of a fresh thread under a ceiling of `maxHeap` bytes. -/
def initial (maxHeap : ℕ) : Heap where
  slots := []
  free := []
  heapBytes := 0
  nextGcBytes := minGcBytes
  gcPending := false
  gcPaused := 0
  maxHeap := maxHeap
  intern := []
  globals := []

/-- The object a handle names, if its slot is occupied. -/
def get? (heap : Heap) (handle : UInt32) : Option Obj := heap.slots[handle.toNat]?.join

section

variable (heapBytes : Obj → ℕ)

/-- Allocate `obj`, reusing a free hole when there is one. Handles are cut to 32 bits. -/
def alloc (heap : Heap) (obj : Obj) : UInt32 × Heap :=
  let bytes := heap.heapBytes + heapBytes obj
  let pending := heap.gcPending || decide (heap.nextGcBytes ≤ bytes) || decide (heap.maxHeap ≤ bytes)
  match heap.free with
  | i :: free =>
      (i, { heap with
        slots := heap.slots.set i.toNat (some obj), free, heapBytes := bytes, gcPending := pending })
  | [] =>
      (UInt32.ofNat heap.slots.length, { heap with
        slots := heap.slots ++ [some obj], heapBytes := bytes, gcPending := pending })

/-- The interned heap string for a constant: allocated on first use, cached thereafter. -/
def internStr (heap : Heap) (s : String) : Value × Heap :=
  match heap.intern.lookup s with
  | some v => (v, heap)
  | none =>
      let (handle, heap) := heap.alloc heapBytes (.str s)
      (.ref handle, { heap with intern := heap.intern ++ [(s, .ref handle)] })

/-- Replace the object at `handle`; a dangling handle panics. -/
def withObjMut (heap : Heap) (handle : UInt32) (f : Obj → Obj) : Option Heap := do
  let obj ← heap.get? handle
  some { heap with slots := heap.slots.set handle.toNat (some (f obj)) }

def setGlobals (heap : Heap) (count : ℕ) : Heap := { heap with globals := List.replicate count .unit }

def globalGet (heap : Heap) (idx : UInt32) : Option Value := heap.globals[idx.toNat]?

/-- Write a module global; an index out of range changes nothing and is reported. -/
def globalSet (heap : Heap) (idx : UInt32) (v : Value) : Option Heap :=
  if idx.toNat < heap.globals.length then some { heap with globals := heap.globals.set idx.toNat v } else none

/-! ## Collection -/

def shouldCollect (heap : Heap) : Bool := heap.gcPending && heap.gcPaused == 0

/-- The live bytes and the ceiling, when the live set exceeds it. -/
def overCeiling (heap : Heap) : Option (ℕ × ℕ) :=
  if heap.maxHeap < heap.heapBytes then some (heap.heapBytes, heap.maxHeap) else none

/-- The positions of the handles among some values, in order. -/
def positions (values : List Value) : List ℕ := values.filterMap fun v => v.handle?.map UInt32.toNat

/-- The slots an occupied slot refers to. -/
def successors (heap : Heap) (slot : ℕ) : List ℕ :=
  match heap.slots[slot]? with
  | some (some obj) => positions obj.childValues
  | _ => []

/-- Everything a collection starts from: the given roots, the interned constants and the globals. -/
def allRoots (heap : Heap) (roots : List Value) : List Value :=
  roots ++ heap.intern.map Prod.snd ++ heap.globals

/-- The next-collection threshold: twice the survivors, or four times when little was reclaimed. -/
def nextThreshold (heapBytes liveBytes floor : ℕ) : ℕ :=
  let reclaimed := heapBytes - liveBytes
  let grow := if 0 < heapBytes ∧ reclaimed * 4 < heapBytes then 4 else 2
  max (liveBytes * grow) floor

/-- Occupied slots that were not marked, in slot order. -/
def garbage (slots : List (Option Obj)) (marked : List Bool) : List UInt32 :=
  ((List.range slots.length).filter fun i => slots[i]?.join.isSome && marked[i]? != some true).map UInt32.ofNat

def survivors (slots : List (Option Obj)) (marked : List Bool) : List (Option Obj) :=
  List.zipWith (fun slot mark => if mark then slot else none) slots marked

/-- Free every occupied slot that was not marked and retarget the threshold. The trace takes every
marked slot off its worklist once, so the live bytes it sums up are those of the survivors. -/
def sweep (heap : Heap) (marked : List Bool) : Heap :=
  let liveBytes := ((survivors heap.slots marked).map fun slot => slot.elim 0 heapBytes).sum
  { heap with
    slots := survivors heap.slots marked
    free := (garbage heap.slots marked).reverse ++ heap.free
    nextGcBytes := nextThreshold heap.heapBytes liveBytes minGcBytes
    heapBytes := liveBytes
    gcPending := false }

/-- A non-moving mark-sweep from `roots`; tracing a handle beyond the slab panics. -/
def collect (heap : Heap) (roots : List Value) : Option Heap :=
  (Tracing.trace heap.successors heap.slots.length (positions (heap.allRoots roots))).map (heap.sweep heapBytes)

def pauseGc (heap : Heap) : Heap := { heap with gcPaused := heap.gcPaused + 1 }

/-- Resume what was paused; the count does not go below zero. -/
def resumeGc (heap : Heap) : Option Heap :=
  if 0 < heap.gcPaused then some { heap with gcPaused := heap.gcPaused - 1 } else none

/-- The trap of a collection that leaves more live bytes than the ceiling allows. -/
structure OutOfMemory where
  liveBytes : ℕ
  limitBytes : ℕ
deriving DecidableEq, Repr

/-- The interpreter's safepoint: collect from `roots` if that is due, then enforce the ceiling. -/
def pollGc (heap : Heap) (roots : List Value) : Option (Except OutOfMemory Heap) :=
  if heap.shouldCollect then do
    let heap ← heap.collect heapBytes roots
    match heap.overCeiling with
    | some (liveBytes, limitBytes) => some (.error ⟨liveBytes, limitBytes⟩)
    | none => some (.ok heap)
  else some (.ok heap)

end

end Heap

end Thera.Runtime
