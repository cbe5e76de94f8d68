import Thera.Model.Runtime.Heap

/-! # The heap invariant

`Sound` couples the slab with its free list and says that no reference dangles. Every heap operation
keeps it as long as the values handed in name occupied slots, which is what the source asks of its
callers, and as long as the slab stays within the 32 bits of a handle.
-/

namespace Thera.Runtime

/-- The value refers to no slot, or to an occupied one. -/
def Value.LiveIn (heap : Heap) (v : Value) : Prop := ∀ handle, v = .ref handle → (heap.get? handle).isSome

theorem Value.LiveIn.mono {before after : Heap} {v : Value} (live : v.LiveIn before)
    (grows : ∀ handle, (before.get? handle).isSome → (after.get? handle).isSome) : v.LiveIn after :=
  fun handle same => grows handle (live handle same)

namespace Heap

/-- Reachability from the roots, the intern table and the globals through `for_each_child`. -/
inductive Reachable (heap : Heap) (roots : List Value) : UInt32 → Prop
  | root {handle : UInt32} (member : .ref handle ∈ heap.allRoots roots) : Reachable heap roots handle
  | child {parent handle : UInt32} {obj : Obj} (from_ : Reachable heap roots parent)
      (present : heap.get? parent = some obj) (member : .ref handle ∈ obj.childValues) :
      Reachable heap roots handle

/-- The slab and its free list agree, and no reference held by the heap dangles. -/
structure Sound (heap : Heap) : Prop where
  addressable : heap.slots.length ≤ 2 ^ 32
  freeNodup : heap.free.Nodup
  mem_free : ∀ i : UInt32, i ∈ heap.free ↔ heap.slots[i.toNat]? = some none
  children : ∀ handle obj, heap.get? handle = some obj → ∀ v ∈ obj.childValues, v.LiveIn heap
  interned : ∀ entry ∈ heap.intern, entry.2.LiveIn heap
  globals : ∀ v ∈ heap.globals, v.LiveIn heap

variable {heap : Heap} {handle : UInt32} {roots : List Value} {slots : List (Option Obj)} {marked : List Bool}

theorem get?_eq_some {obj : Obj} :
    heap.get? handle = some obj ↔ heap.slots[handle.toNat]? = some (some obj) := by
  rw [get?, Option.join_eq_some_iff]

theorem mem_positions {values : List Value} {slot : ℕ} :
    slot ∈ positions values ↔ ∃ handle : UInt32, .ref handle ∈ values ∧ handle.toNat = slot := by
  simp only [positions, List.mem_filterMap, Option.map_eq_some_iff, Value.handle?_eq_some]
  constructor
  · rintro ⟨v, member, handle, rfl, same⟩
    exact ⟨handle, member, same⟩
  · rintro ⟨handle, member, same⟩
    exact ⟨_, member, handle, rfl, same⟩

theorem mem_successors {parent : UInt32} {slot : ℕ} :
    slot ∈ heap.successors parent.toNat ↔
      ∃ obj, heap.get? parent = some obj ∧ ∃ handle : UInt32, .ref handle ∈ obj.childValues ∧ handle.toNat = slot := by
  simp only [get?_eq_some, successors]
  cases heap.slots[parent.toNat]? with
  | none => simp
  | some content =>
    cases content with
    | none => simp
    | some obj => simp [mem_positions]

theorem reaches_iff {slot : ℕ} :
    Tracing.Reaches heap.successors (positions (heap.allRoots roots)) slot ↔
      ∃ handle : UInt32, handle.toNat = slot ∧ heap.Reachable roots handle := by
  constructor
  · intro reached
    induction reached with
    | root member =>
      obtain ⟨handle, root, same⟩ := mem_positions.mp member
      exact ⟨handle, same, .root root⟩
    | step _ edge ih =>
      obtain ⟨parent, rfl, reached⟩ := ih
      obtain ⟨obj, present, handle, child, same⟩ := mem_successors.mp edge
      exact ⟨handle, same, .child reached present child⟩
  · rintro ⟨handle, rfl, reached⟩
    induction reached with
    | root member => exact .root (mem_positions.mpr ⟨_, member, rfl⟩)
    | child _ present member ih => exact .step ih (mem_successors.mpr ⟨_, present, _, member, rfl⟩)

/-- From live roots a sound heap reaches only occupied slots. -/
theorem Sound.reachable (sound : heap.Sound) (live : ∀ v ∈ roots, v.LiveIn heap)
    (reached : heap.Reachable roots handle) : (heap.get? handle).isSome := by
  induction reached with
  | root member =>
    rcases List.mem_append.mp member with early | global
    · rcases List.mem_append.mp early with root | constant
      · exact live _ root _ rfl
      · obtain ⟨entry, stored, same⟩ := List.mem_map.mp constant
        exact sound.interned entry stored _ same
    · exact sound.globals _ global _ rfl
  | child _ present member _ => exact sound.children _ _ present _ member _ rfl

theorem lt_of_get? (present : (heap.get? handle).isSome) : handle.toNat < heap.slots.length := by
  obtain ⟨obj, found⟩ := Option.isSome_iff_exists.mp present
  exact (List.getElem?_eq_some_iff.mp (get?_eq_some.mp found)).1

/-! ## What a collection does -/

theorem getElem?_survivors (length : marked.length = slots.length) (k : ℕ) :
    (survivors slots marked)[k]? = slots[k]?.map fun slot => if marked[k]? = some true then slot else none := by
  rw [survivors, List.getElem?_zipWith]
  by_cases bound : k < slots.length
  · rw [List.getElem?_eq_getElem bound, List.getElem?_eq_getElem (length ▸ bound)]
    simp
  · rw [List.getElem?_eq_none_iff.mpr (by omega), List.getElem?_eq_none_iff.mpr (by omega)]
    rfl

theorem mem_garbage (addressable : slots.length ≤ 2 ^ 32) (i : UInt32) :
    i ∈ garbage slots marked ↔ slots[i.toNat]?.join.isSome ∧ marked[i.toNat]? ≠ some true := by
  simp only [garbage, List.mem_map, List.mem_filter, List.mem_range, Bool.and_eq_true, bne_iff_ne]
  constructor
  · rintro ⟨k, ⟨bound, occupied, unmarked⟩, rfl⟩
    rw [UInt32.toNat_ofNat_of_lt' (Nat.lt_of_lt_of_le bound addressable)]
    exact ⟨occupied, unmarked⟩
  · rintro ⟨occupied, unmarked⟩
    refine ⟨i.toNat, ⟨?_, occupied, unmarked⟩, UInt32.ofNat_toNat⟩
    by_contra outside
    rw [List.getElem?_eq_none_iff.mpr (by omega)] at occupied
    cases occupied

theorem nodup_garbage (addressable : slots.length ≤ 2 ^ 32) : (garbage slots marked).Nodup := by
  refine List.Nodup.map_on (fun i left j right same => ?_) (List.nodup_range.filter _)
  have boundLeft := List.mem_range.mp (List.mem_filter.mp left).1
  have boundRight := List.mem_range.mp (List.mem_filter.mp right).1
  have nats := congrArg UInt32.toNat same
  rwa [UInt32.toNat_ofNat_of_lt' (Nat.lt_of_lt_of_le boundLeft addressable),
    UInt32.toNat_ofNat_of_lt' (Nat.lt_of_lt_of_le boundRight addressable)] at nats

theorem get?_sweep {heapBytes : Obj → ℕ} (length : marked.length = heap.slots.length) (handle : UInt32) :
    (heap.sweep heapBytes marked).get? handle =
      if marked[handle.toNat]? = some true then heap.get? handle else none := by
  change (survivors heap.slots marked)[handle.toNat]?.join = _
  rw [getElem?_survivors length, get?]
  cases heap.slots[handle.toNat]? with
  | none | some slot => simp

/-- The exact effect of a collection on the slab and the free list. -/
structure Collected (heap : Heap) (roots : List Value) (after : Heap) : Prop where
  length : after.slots.length = heap.slots.length
  kept : ∀ handle, heap.Reachable roots handle → after.get? handle = heap.get? handle
  swept : ∀ handle, ¬ heap.Reachable roots handle → after.get? handle = none
  freeNodup : after.free.Nodup
  mem_free : ∀ i : UInt32, i ∈ after.free ↔ after.slots[i.toNat]? = some none
  intern : after.intern = heap.intern
  globals : after.globals = heap.globals

variable {heapBytes : Obj → ℕ}

/-- A collection of a sound heap from live roots succeeds and is exact. -/
theorem Sound.collected (sound : heap.Sound) (heapBytes : Obj → ℕ) (live : ∀ v ∈ roots, v.LiveIn heap) :
    ∃ after, heap.collect heapBytes roots = some after ∧ Collected heap roots after := by
  have inside : ∀ slot, Tracing.Reaches heap.successors (positions (heap.allRoots roots)) slot →
      slot < heap.slots.length := by
    intro slot reached
    obtain ⟨handle, rfl, reachable⟩ := reaches_iff.mp reached
    exact lt_of_get? (sound.reachable live reachable)
  obtain ⟨marked, traced, length, exact⟩ := Tracing.trace_exact inside
  have marks (handle : UInt32) : marked[handle.toNat]? = some true ↔ heap.Reachable roots handle := by
    rw [exact, reaches_iff]
    exact ⟨fun ⟨other, same, reached⟩ => UInt32.toNat_inj.mp same ▸ reached, fun reached => ⟨handle, rfl, reached⟩⟩
  refine ⟨heap.sweep heapBytes marked, by rw [collect, traced]; rfl, ?_, fun handle reached => ?_,
    fun handle lost => ?_, ?_, fun i => ?_, rfl, rfl⟩
  · simp [sweep, survivors, length]
  · rw [get?_sweep length, if_pos ((marks handle).mpr reached)]
  · rw [get?_sweep length, if_neg fun seen => lost ((marks handle).mp seen)]
  · refine List.Nodup.append (List.nodup_reverse.mpr (nodup_garbage sound.addressable)) sound.freeNodup ?_
    intro i new old
    have occupied := ((mem_garbage sound.addressable i).mp (List.mem_reverse.mp new)).1
    rw [(sound.mem_free i).mp old] at occupied
    cases occupied
  · rw [sweep, List.mem_append, List.mem_reverse, mem_garbage sound.addressable, sound.mem_free,
      getElem?_survivors length]
    cases heap.slots[i.toNat]? with
    | none => simp
    | some slot => cases slot <;> simp

/-! ## What an allocation does -/

/-- The exact effect of an allocation: one slot that was empty now holds the object. -/
structure Allocated (heap : Heap) (obj : Obj) (handle : UInt32) (after : Heap) : Prop where
  fresh : heap.get? handle = none
  stored : after.get? handle = some obj
  others : ∀ other, other ≠ handle → after.get? other = heap.get? other
  freeNodup : after.free.Nodup
  mem_free : ∀ i : UInt32, i ∈ after.free ↔ after.slots[i.toNat]? = some none
  intern : after.intern = heap.intern
  globals : after.globals = heap.globals

private theorem getElem?_concat (slots : List (Option Obj)) (slot : Option Obj) (k : ℕ) :
    (slots ++ [slot])[k]? = if k = slots.length then some slot else slots[k]? := by
  rw [List.getElem?_append]
  split_ifs with inside last last
  · omega
  · rfl
  · simp [last]
  · rw [List.getElem?_eq_none_iff.mpr (by simp; omega), List.getElem?_eq_none_iff.mpr (by omega)]

section

variable (sound : heap.Sound)

include sound

theorem Sound.allocated (obj : Obj) (room : (heap.alloc heapBytes obj).2.slots.length ≤ 2 ^ 32) :
    Allocated heap obj (heap.alloc heapBytes obj).1 (heap.alloc heapBytes obj).2 := by
  cases free : heap.free with
  | nil =>
    simp only [alloc, free] at room ⊢
    rw [List.length_append, List.length_singleton] at room
    have handle : (UInt32.ofNat heap.slots.length).toNat = heap.slots.length :=
      UInt32.toNat_ofNat_of_lt' (Nat.lt_of_succ_le room)
    refine ⟨?_, ?_, fun other different => ?_, List.nodup_nil, fun i => ?_, rfl, rfl⟩
    · rw [get?, handle, List.getElem?_eq_none_iff.mpr (Nat.le_refl _)]
      rfl
    · rw [get?, handle, getElem?_concat, if_pos rfl]
      rfl
    · rw [get?, get?, getElem?_concat, if_neg fun same => different (UInt32.toNat_inj.mp (same.trans handle.symm))]
    · have occupied := sound.mem_free i
      rw [free] at occupied
      rw [occupied, getElem?_concat]
      split_ifs with last
      · rw [last, List.getElem?_eq_none_iff.mpr (Nat.le_refl _)]
        simp
      · rfl
  | cons i rest =>
    have hole := (sound.mem_free i).mp (free ▸ List.mem_cons_self ..)
    have nodup := sound.freeNodup
    rw [free] at nodup
    have bound := (List.getElem?_eq_some_iff.mp hole).1
    simp only [alloc, free] at room ⊢
    refine ⟨?_, ?_, fun other different => ?_, (List.nodup_cons.mp nodup).2, fun j => ?_, rfl, rfl⟩
    · rw [get?, hole]
      rfl
    · rw [get?, List.getElem?_set_self bound]
      rfl
    · rw [get?, get?, List.getElem?_set_ne fun same => different (UInt32.toNat_inj.mp same.symm)]
    · by_cases same : j = i
      · subst same
        rw [List.getElem?_set_self bound]
        simpa using (List.nodup_cons.mp nodup).1
      · have before := sound.mem_free j
        rw [free, List.mem_cons, or_iff_right same] at before
        rw [before, List.getElem?_set_ne fun equal => same (UInt32.toNat_inj.mp equal.symm)]

theorem Sound.alloc {obj : Obj} (live : ∀ v ∈ obj.childValues, v.LiveIn heap)
    (room : (heap.alloc heapBytes obj).2.slots.length ≤ 2 ^ 32) : (heap.alloc heapBytes obj).2.Sound := by
  have effect := sound.allocated obj room
  have grows : ∀ handle, (heap.get? handle).isSome → ((heap.alloc heapBytes obj).2.get? handle).isSome := by
    intro handle present
    by_cases same : handle = (heap.alloc heapBytes obj).1
    · rw [same, effect.stored]
      rfl
    · rwa [effect.others handle same]
  refine ⟨room, effect.freeNodup, effect.mem_free, fun handle other present v member => ?_, ?_, ?_⟩
  · by_cases same : handle = (heap.alloc heapBytes obj).1
    · rw [same, effect.stored] at present
      cases present
      exact (live v member).mono grows
    · rw [effect.others handle same] at present
      exact (sound.children handle other present v member).mono grows
  · rw [effect.intern]
    exact fun entry member => (sound.interned entry member).mono grows
  · rw [effect.globals]
    exact fun v member => (sound.globals v member).mono grows

theorem Sound.internStr (s : String) (room : (heap.internStr heapBytes s).2.slots.length ≤ 2 ^ 32) :
    (heap.internStr heapBytes s).2.Sound := by
  rw [Heap.internStr] at room ⊢
  cases cached : heap.intern.lookup s with
  | some v => exact sound
  | none =>
    simp only [cached] at room ⊢
    have leaf : ∀ v ∈ (Obj.str s).childValues, v.LiveIn heap := fun v member => absurd member List.not_mem_nil
    have allocated := sound.alloc leaf room
    have stored := (sound.allocated (.str s) room).stored
    refine ⟨room, allocated.freeNodup, allocated.mem_free, allocated.children, fun entry member => ?_,
      allocated.globals⟩
    rcases List.mem_append.mp member with old | new
    · exact allocated.interned entry old
    · obtain rfl := List.mem_singleton.mp new
      rintro handle ⟨⟩
      change ((heap.alloc heapBytes (.str s)).2.get? _).isSome
      rw [stored]
      rfl

theorem Sound.withObjMut {after : Heap} {f : Obj → Obj}
    (live : ∀ obj, heap.get? handle = some obj → ∀ v ∈ (f obj).childValues, v.LiveIn heap)
    (done : heap.withObjMut handle f = some after) : after.Sound := by
  obtain ⟨obj, present, same⟩ := Option.bind_eq_some_iff.mp done
  cases same
  have bound := lt_of_get? (Option.isSome_of_eq_some present)
  have updated (other : UInt32) :
      ({ heap with slots := heap.slots.set handle.toNat (some (f obj)) } : Heap).get? other =
        if other = handle then some (f obj) else heap.get? other := by
    split_ifs with same
    · subst same
      rw [get?, List.getElem?_set_self bound]
      rfl
    · rw [get?, get?, List.getElem?_set_ne fun equal => same (UInt32.toNat_inj.mp equal.symm)]
  have grows (other : UInt32) (occupied : (heap.get? other).isSome) :
      (({ heap with slots := heap.slots.set handle.toNat (some (f obj)) } : Heap).get? other).isSome := by
    rw [updated]
    split_ifs
    · rfl
    · exact occupied
  refine ⟨?_, sound.freeNodup, fun i => ?_, fun other content stored v member => ?_,
    fun entry member => (sound.interned entry member).mono grows, fun v member => (sound.globals v member).mono grows⟩
  · rw [List.length_set]
    exact sound.addressable
  · rw [sound.mem_free]
    by_cases same : i = handle
    · subst same
      rw [List.getElem?_set_self bound, get?_eq_some.mp present]
      simp
    · rw [List.getElem?_set_ne fun equal => same (UInt32.toNat_inj.mp equal.symm)]
  · rw [updated] at stored
    split_ifs at stored
    · cases stored
      exact (live obj present v member).mono grows
    · exact (sound.children other content stored v member).mono grows

theorem Sound.setGlobals (count : ℕ) : (heap.setGlobals count).Sound where
  addressable := sound.addressable
  freeNodup := sound.freeNodup
  mem_free := sound.mem_free
  children := sound.children
  interned := sound.interned
  globals v member handle same := by
    rw [(List.mem_replicate.mp member).2] at same
    cases same

theorem Sound.globalSet {after : Heap} {idx : UInt32} {v : Value} (live : v.LiveIn heap)
    (done : heap.globalSet idx v = some after) : after.Sound := by
  rw [Heap.globalSet] at done
  split_ifs at done
  cases done
  refine ⟨sound.addressable, sound.freeNodup, sound.mem_free, sound.children, sound.interned, fun w member => ?_⟩
  rcases List.mem_or_eq_of_mem_set member with old | rfl
  · exact sound.globals w old
  · exact live

theorem Sound.collect {after : Heap} (live : ∀ v ∈ roots, v.LiveIn heap) (effect : Collected heap roots after) :
    after.Sound := by
  have keeps {v : Value} (reached : ∀ handle, v = .ref handle → heap.Reachable roots handle) : v.LiveIn after := by
    intro handle same
    rw [effect.kept handle (reached handle same)]
    exact sound.reachable live (reached handle same)
  refine ⟨effect.length ▸ sound.addressable, effect.freeNodup, effect.mem_free,
    fun handle obj present v member => ?_, fun entry member => ?_, fun v member => ?_⟩
  · by_cases reached : heap.Reachable roots handle
    · rw [effect.kept handle reached] at present
      exact keeps fun child same => .child reached present (same ▸ member)
    · rw [effect.swept handle reached] at present
      cases present
  · rw [effect.intern] at member
    exact keeps fun handle same => .root (List.mem_append_left _ (List.mem_append_right _
      (List.mem_map.mpr ⟨entry, member, same⟩)))
  · rw [effect.globals] at member
    exact keeps fun handle same => .root (List.mem_append_right _ (same ▸ member))

end

theorem Sound.initial (maxHeap : ℕ) : (Heap.initial maxHeap).Sound where
  addressable := Nat.zero_le _
  freeNodup := List.nodup_nil
  mem_free i := by simp [Heap.initial]
  children handle obj present := by simp [get?, Heap.initial] at present
  interned entry member := absurd member List.not_mem_nil
  globals v member := absurd member List.not_mem_nil

end Heap

end Thera.Runtime
