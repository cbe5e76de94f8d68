import Thera.Proofs.Runtime.Map

/-! # The map refines an insertion-ordered association list

A run builds a map from pairs, inserts, removes and clears, while the rest of the heap changes between
the operations but not the keys it stores. Beside the map object the run carries the association list
the same operations make of an empty one; the list never grows past what the run allows for.
-/

namespace Thera.Runtime

open Probing (slotAt)

/-- The operations that change a map. -/
inductive MapOp where
  | fromPairs (pairs : List (Value × Value))
  | insert (key val : Value)
  | remove (key : Value)
  | clear
  deriving DecidableEq

namespace MapOp

/-- The map after the operation, if it returns. -/
def apply (heap : Heap) (depth : ℕ) (m : MapObj) : MapOp → Option MapObj
  | fromPairs pairs => MapObj.fromPairs heap depth pairs
  | insert key val => m.insertKey heap depth key val
  | remove key => (m.removeKey heap depth key).map Prod.snd
  | clear => some m.clear

/-- What the operation does to an association list. -/
def onList (eq : Value → Value → Bool) (entries : List (Value × Value)) : MapOp → List (Value × Value)
  | fromPairs pairs => OrderedAssoc.insertAll eq [] pairs
  | insert key val => OrderedAssoc.insert eq entries key val
  | remove key => OrderedAssoc.remove eq entries key
  | clear => []

/-- The keys the operation is given. -/
def keys : MapOp → List Value
  | fromPairs pairs => pairs.map Prod.fst
  | insert key _ | remove key => [key]
  | clear => []

end MapOp

/-- The two heaps hash and compare these keys alike. -/
structure KeysKept (depth : ℕ) (heap heap' : Heap) (keys : List Value) : Prop where
  hashes : ∀ a ∈ keys, hashValue heap' depth a = hashValue heap depth a
  compares : ∀ a ∈ keys, ∀ b ∈ keys, valuesEq heap' depth a b = valuesEq heap depth a b

/-- The maps a run reaches within `capacity` entries, each with the association list it stands for. -/
inductive MapRun (capacity depth : ℕ) : Heap → MapObj → List (Value × Value) → Prop
  | new (heap : Heap) : MapRun capacity depth heap .empty []
  | op {heap : Heap} {m m' : MapObj} {entries : List (Value × Value)} (op : MapOp)
      (before : MapRun capacity depth heap m entries) (returned : op.apply heap depth m = some m')
      (fits : (op.onList (keyEq heap depth) entries).length ≤ capacity) :
      MapRun capacity depth heap m' (op.onList (keyEq heap depth) entries)
  | elsewhere {heap heap' : Heap} {m : MapObj} {entries : List (Value × Value)}
      (before : MapRun capacity depth heap m entries) (kept : KeysKept depth heap heap' m.keys) :
      MapRun capacity depth heap' m entries

namespace MapObj

variable {heap heap' : Heap} {depth : ℕ} {m m' : MapObj}

theorem Sound.keysKept (sound : m.Sound heap depth) (kept : KeysKept depth heap heap' m.keys) :
    m.Sound heap' depth where
  toValid := sound.toValid
  hashed := by
    rw [sound.hashed]
    exact List.map_congr_left fun a member => (kept.hashes a member).symm
  apart := by
    refine sound.apart.imp_of_mem fun left right distinct => ?_
    rwa [kept.compares _ left _ right]
  fits := sound.fits

theorem Sound.op (sound : m.Sound heap depth) (op : MapOp) (returned : op.apply heap depth m = some m')
    (fits : (op.onList (keyEq heap depth) m.entries).length ≤ 2 ^ 31) :
    m'.Sound heap depth ∧ m'.entries = op.onList (keyEq heap depth) m.entries := by
  cases op with
  | fromPairs pairs => exact Sound.empty.insertAll fits returned
  | insert key val => exact sound.insertKey fits returned
  | remove key =>
    obtain ⟨⟨removed, after⟩, done, rfl⟩ := Option.map_eq_some_iff.mp returned
    obtain ⟨hash, hashes, done⟩ := Option.bind_eq_some_iff.mp done
    obtain ⟨found, searched, -⟩ := Option.bind_eq_some_iff.mp done
    obtain ⟨_, erased, effect⟩ := sound.remove hashes searched
    cases erased.symm.trans done
    exact effect
  | clear =>
    cases returned
    exact ⟨.empty, rfl⟩

theorem Sound.op_returns (sound : m.Sound heap depth) (op : MapOp)
    (comparable : Comparable heap depth (m.keys ++ op.keys))
    (fits : (op.onList (keyEq heap depth) m.entries).length ≤ 2 ^ 31) : (op.apply heap depth m).isSome := by
  cases op with
  | fromPairs pairs => exact Sound.empty.insertAll_returns fits (comparable.mono (List.subset_append_right ..))
  | insert key val =>
    obtain ⟨hash, found, hashes, searched⟩ := sound.searches comparable
    obtain ⟨_, inserted, -⟩ := sound.insert hashes searched val
    simp [MapOp.apply, MapObj.insertKey, hashes, inserted]
  | remove key =>
    obtain ⟨hash, found, hashes, searched⟩ := sound.searches comparable
    obtain ⟨_, erased, -⟩ := sound.remove hashes searched
    simp [MapOp.apply, removeKey, hashes, erased]
  | clear => rfl

/-- What the index promises: each position is in one slot and on the probe path of its hash, and the
table has a hole. -/
structure IndexSound (m : MapObj) : Prop where
  once : ∀ i < m.entries.length, ∃! slot : ℕ, m.table[slot]? = some (some i)
  reached : ∀ (i : ℕ) (hash : UInt64), m.hashes[i]? = some hash →
    ∃ d : ℕ, m.table[slotAt m.index.length (hash.toNat &&& (m.index.length - 1)) d]? = some (some i) ∧
      ∀ e < d, ∃ j : ℕ, m.table[slotAt m.index.length (hash.toNat &&& (m.index.length - 1)) e]? = some (some j)
  hole : ∃ slot : ℕ, m.index[slot]? = some emptySlot

theorem Valid.indexSound (valid : m.Valid) (present : m.index ≠ []) : m.IndexSound := by
  have indexed := valid.indexed.resolve_left present
  obtain ⟨bits, power⟩ := indexed.power
  refine ⟨fun i below => ?_, fun i hash stored => ?_, ?_⟩
  · obtain ⟨d, -, stored, -⟩ := indexed.placed.found i below
    exact ⟨_, stored, fun slot other => indexed.placed.unique slot _ i other stored⟩
  · have below : i < m.entries.length := valid.parallel ▸ (List.getElem?_eq_some_iff.mp stored).1
    obtain ⟨d, -, there, path⟩ := indexed.placed.found i below
    rw [length_table, home_eq stored, ← and_mask power] at there path
    exact ⟨d, there, path⟩
  · obtain ⟨slot, hole⟩ := indexed.placed.exists_empty (by simpa using indexed.room)
    rw [getElem?_table] at hole
    obtain ⟨e, there, empty⟩ := Option.map_eq_some_iff.mp hole
    exact ⟨slot, slotEntry_none.mp empty ▸ there⟩

end MapObj

theorem MapRun.sound {depth : ℕ} {heap : Heap} {m : MapObj} {entries : List (Value × Value)}
    (run : MapRun (2 ^ 31) depth heap m entries) : m.Sound heap depth ∧ m.entries = entries := by
  induction run with
  | new heap => exact ⟨.empty, rfl⟩
  | op op _ returned fits ih =>
    obtain ⟨sound, rfl⟩ := ih
    exact sound.op op returned fits
  | elsewhere _ kept ih => exact ⟨ih.1.keysKept kept, ih.2⟩

/-! ## Maps of the first integers -/

/-- The first `count` integers as keys. -/
def intEntries (count : ℕ) : List (Value × Value) := (List.range count).map fun i => (.int (Int64.ofNat i), .unit)

private theorem int_absent {count : ℕ} (small : count < 2 ^ 63) (heap : Heap) (depth : ℕ) :
    OrderedAssoc.position (keyEq heap depth) (intEntries count) (.int (Int64.ofNat count)) = none := by
  refine List.findIdx?_eq_none_iff.mpr fun entry member => ?_
  obtain ⟨i, below, rfl⟩ := List.mem_map.mp member
  have less := List.mem_range.mp below
  have distinct : Int64.ofNat i ≠ Int64.ofNat count := by
    intro same
    have values := congrArg Int64.toInt same
    rw [Int64.toInt_ofNat_of_lt (Nat.lt_trans less small), Int64.toInt_ofNat_of_lt small] at values
    omega
  have answer : valuesEq heap depth (.int (Int64.ofNat i)) (.int (Int64.ofNat count)) = some false := by
    cases depth <;> exact congrArg some (beq_eq_false_iff_ne.mpr distinct)
  simp [keyEq, answer]

/-- Inserting the next integer into a map of the first `count`. -/
private theorem int_insert {count : ℕ} (small : count ≤ 2 ^ 31) {m : MapObj} {heap : Heap}
    (sound : m.Sound heap 0) (entries : m.entries = intEntries count) :
    ∃ m', (MapOp.insert (.int (Int64.ofNat count)) .unit).apply heap 0 m = some m' ∧
      m'.entries = intEntries (count + 1) ∧ (hashThreshold ≤ count → m'.index ≠ []) := by
  obtain ⟨hash, hashes⟩ : ∃ hash, hashValue heap 0 (.int (Int64.ofNat count)) = some hash := ⟨_, rfl⟩
  have absent := int_absent (Nat.lt_of_le_of_lt small (by decide)) heap 0
  obtain ⟨found, searched⟩ : ∃ found, m.find heap 0 (.int (Int64.ofNat count)) hash = some found := by
    refine MapObj.find_returns sound.toValid fun i entry there _ => ?_
    rw [entries] at there
    obtain ⟨j, -, rfl⟩ := List.mem_map.mp (List.mem_of_getElem? there)
    rfl
  have position := sound.position hashes searched
  rw [entries, absent] at position
  subst position
  have length : m.entries.length = count := by simp [entries, intEntries]
  obtain ⟨index, inserted, present, -⟩ := MapObj.insert_absent .unit sound.toValid (length ▸ small) searched
  refine ⟨_, by simpa [MapOp.apply, MapObj.insertKey, hashes] using inserted, ?_, fun many => present (length ▸ many)⟩
  simp [entries, intEntries, List.range_succ]

private theorem int_onList {count : ℕ} (small : count < 2 ^ 63) (heap : Heap) :
    (MapOp.insert (.int (Int64.ofNat count)) .unit).onList (keyEq heap 0) (intEntries count) = intEntries (count + 1) := by
  rw [MapOp.onList, OrderedAssoc.insert, int_absent small]
  simp [intEntries, List.range_succ]

private theorem int_run {capacity count : ℕ} (small : count ≤ 2 ^ 31) (within : count ≤ capacity) (heap : Heap) :
    ∃ m, MapRun capacity 0 heap m (intEntries count) ∧ m.Sound heap 0 ∧ m.entries = intEntries count ∧
      (hashThreshold < count → m.index ≠ []) := by
  induction count with
  | zero => exact ⟨.empty, .new heap, .empty, rfl, fun many => absurd many (Nat.not_lt_zero _)⟩
  | succ count ih =>
    obtain ⟨m, run, sound, entries, -⟩ := ih (by omega) (by omega)
    obtain ⟨m', inserted, entries', present⟩ := int_insert (by omega) sound entries
    have onList := int_onList (show count < 2 ^ 63 by omega) heap
    have length : (intEntries (count + 1)).length = count + 1 := by simp [intEntries]
    refine ⟨m', onList ▸ run.op _ inserted (by rw [onList, length]; exact within), ?_, entries',
      fun many => present (Nat.le_of_lt_succ many)⟩
    exact (sound.op _ inserted (by rw [entries, onList, length]; exact small)).1

/-! ## Refinement -/

/-- In every run within 2^31 entries the map's entries are the association list, `get` and `contains`
answer as a scan of it does and return when the keys compare, so does every further operation within
those entries, and an index that is present places each entry and has a hole. -/
theorem map_refines_list {depth : ℕ} {heap : Heap} {m : MapObj} {entries : List (Value × Value)}
    (run : MapRun (2 ^ 31) depth heap m entries) :
    m.entries = entries ∧
    (∀ key hash, hashValue heap depth key = some hash →
      (∀ found, m.get heap depth key hash = some found → found = OrderedAssoc.get (keyEq heap depth) entries key) ∧
      (∀ found, m.contains heap depth key hash = some found →
        found = entries.any fun entry => keyEq heap depth entry.1 key) ∧
      (Comparable heap depth (m.keys ++ [key]) →
        (m.get heap depth key hash).isSome ∧ (m.contains heap depth key hash).isSome)) ∧
    (∀ op : MapOp, Comparable heap depth (m.keys ++ op.keys) →
      (op.onList (keyEq heap depth) entries).length ≤ 2 ^ 31 → (op.apply heap depth m).isSome) ∧
    (m.index ≠ [] → m.IndexSound) := by
  obtain ⟨sound, rfl⟩ := run.sound
  refine ⟨rfl, fun key hash hashes => ⟨fun found returned => ?_, fun found returned => ?_, fun comparable => ?_⟩,
    fun op => sound.op_returns op, sound.toValid.indexSound⟩
  · obtain ⟨place, searched, -⟩ := Option.bind_eq_some_iff.mp returned
    exact Option.some.inj (returned.symm.trans (sound.get hashes searched))
  · obtain ⟨place, searched, -⟩ := Option.map_eq_some_iff.mp returned
    exact Option.some.inj (returned.symm.trans (sound.contains hashes searched))
  · obtain ⟨_, found, same, searched⟩ := sound.searches comparable
    cases hashes.symm.trans same
    exact ⟨by simp [sound.get hashes searched], by simp [sound.contains hashes searched]⟩

/-- Twenty insertions, which take the map over its threshold. -/
theorem twenty_inserts_refine : ∃ m, MapRun (2 ^ 31) 0 (.initial 0) m (intEntries 20) ∧
    m.entries = intEntries 20 ∧ m.IndexSound := by
  obtain ⟨m, run, -, -, present⟩ := int_run (show 20 ≤ 2 ^ 31 by decide) (show 20 ≤ 2 ^ 31 by decide) (.initial 0)
  exact ⟨m, run, (map_refines_list run).1, (map_refines_list run).2.2.2 (present (by decide))⟩

/-- One entry more: the position 2^31 is cut to a negative slot, and no slot of the index has it. -/
theorem position_lost_past_i32 : ∃ m entries, MapRun (2 ^ 31 + 1) 0 (.initial 0) m entries ∧
    m.index ≠ [] ∧ 2 ^ 31 < m.entries.length ∧ ¬ ∃ slot : ℕ, m.table[slot]? = some (some (2 ^ 31)) := by
  obtain ⟨m, run, sound, entries, -⟩ := int_run (Nat.le_refl _) (Nat.le_succ _) (.initial 0)
  obtain ⟨m', inserted, entries', present⟩ := int_insert (Nat.le_refl _) sound entries
  have onList := int_onList (show 2 ^ 31 < 2 ^ 63 by decide) (.initial 0)
  have length : (intEntries (2 ^ 31 + 1)).length = 2 ^ 31 + 1 := by simp [intEntries]
  refine ⟨m', _, run.op _ inserted (by rw [onList, length]), present (by decide), ?_, ?_⟩
  · rw [entries', length]
    exact Nat.lt_succ_self _
  rintro ⟨slot, there⟩
  rw [MapObj.getElem?_table] at there
  obtain ⟨e, -, stored⟩ := Option.map_eq_some_iff.mp there
  rw [slotEntry] at stored
  split_ifs at stored
  exact entryIndex_ne e (Option.some.inj stored)

end Thera.Runtime
