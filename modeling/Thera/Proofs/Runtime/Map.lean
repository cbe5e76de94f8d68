import Thera.Model.Runtime.Map
import Thera.Proofs.Runtime.Equality
import Thera.ToMathlib.OrderedAssoc

/-! # The map invariant

The index, read as a table of entry positions, is `Probing.Placed` with the entries' hashes as homes
and has more slots than there are entries. Under it `find` answers as a scan of the entries would,
and every operation keeps it while positions fit the 31 bits the index has for them.
-/

namespace Thera.Runtime

open Probing (Placed slotAt)

/-! ## Index slots -/

/-- An index slot as the position it holds. -/
def slotEntry (e : Int32) : Option ℕ := if e = emptySlot then none else some (entryIndex e)

theorem slotEntry_ofNat {i : ℕ} (fits : i < 2 ^ 31) : slotEntry (Int32.ofNat i) = some i := by
  have value : (Int32.ofNat i).toInt = i := Int32.toInt_ofNat_of_lt (by simpa using fits)
  have present : Int32.ofNat i ≠ emptySlot := by
    intro same
    rw [same] at value
    have negative : emptySlot.toInt = -1 := by decide
    omega
  have widened : (Int32.ofNat i).toInt64 = Int64.ofNat i := by
    apply Int64.toInt_inj.mp
    rw [Int32.toInt_toInt64, value, Int64.toInt_ofNat_of_lt (by omega)]
  rw [slotEntry, if_neg present, entryIndex, widened, Int64.toUInt64_ofNat',
    UInt64.toNat_ofNat_of_lt' (Nat.lt_trans fits (by decide))]

/-- No slot reads as a position of 2^31 or just above it. -/
theorem entryIndex_ne (e : Int32) : entryIndex e ≠ 2 ^ 31 := by
  intro same
  have bits : e.toInt64.toUInt64 = UInt64.ofNat (2 ^ 31) := UInt64.toNat_inj.mp same
  have value : e.toInt64 = Int64.ofNat (2 ^ 31) := congrArg Int64.ofUInt64 bits
  have large : e.toInt = 2 ^ 31 := by
    rw [← Int32.toInt_toInt64, value]
    decide
  have small := Int32.toInt_lt e
  omega

theorem slotEntry_none {e : Int32} : slotEntry e = none ↔ e = emptySlot := by
  rw [slotEntry]
  split_ifs with empty <;> simp [empty]

namespace MapObj

/-- The index as a table of entry positions. -/
def table (m : MapObj) : List (Option ℕ) := m.index.map slotEntry

/-- The slot an entry's probe starts at. -/
def home (m : MapObj) (i : ℕ) : ℕ := (m.hashes[i]?.getD 0).toNat % m.index.length

/-- What an index has to satisfy: a power-of-two table with a hole in which every entry is placed. -/
structure Indexed (m : MapObj) : Prop where
  power : ∃ bits, m.index.length = 2 ^ bits
  room : m.entries.length < m.index.length
  placed : Placed m.table m.home m.entries.length

structure Valid (m : MapObj) : Prop where
  parallel : m.hashes.length = m.entries.length
  indexed : m.index = [] ∨ m.Indexed

@[simp] theorem length_table (m : MapObj) : m.table.length = m.index.length := List.length_map _

theorem getElem?_table (m : MapObj) (slot : ℕ) : m.table[slot]? = m.index[slot]?.map slotEntry :=
  List.getElem?_map

/-- Masking a hash gives the home slot. -/
theorem and_mask {m : MapObj} {bits : ℕ} (power : m.index.length = 2 ^ bits) (hash : UInt64) :
    hash.toNat &&& (m.index.length - 1) = hash.toNat % m.index.length := by
  rw [power, Nat.and_two_pow_sub_one_eq_mod]

theorem home_eq {m : MapObj} {i : ℕ} {hash : UInt64} (stored : m.hashes[i]? = some hash) :
    m.home i = hash.toNat % m.index.length := by rw [home, stored, Option.getD_some]

/-! ## Finding a key -/

/-- The entry at `i` has this key. -/
def Matches (heap : Heap) (depth : ℕ) (m : MapObj) (key : Value) (hash : UInt64) (i : ℕ) : Prop :=
  ∃ entry : Value × Value, m.entries[i]? = some entry ∧ m.hashes[i]? = some hash ∧
    valuesEq heap depth entry.1 key = some true

variable {heap : Heap} {depth : ℕ} {m : MapObj} {key : Value} {hash : UInt64}

theorem Matches.lt {i : ℕ} (found : Matches heap depth m key hash i) : i < m.entries.length := by
  obtain ⟨entry, there, -⟩ := found
  exact (List.getElem?_eq_some_iff.mp there).1

theorem matchesAt_true {i : ℕ} {answer : Bool} (tested : m.matchesAt heap depth key hash i = some answer) :
    answer = true ↔ Matches heap depth m key hash i := by
  rw [matchesAt] at tested
  obtain ⟨stored, hashed, compared⟩ := Option.bind_eq_some_iff.mp tested
  by_cases same : stored = hash
  · rw [if_pos same] at compared
    obtain ⟨entry, there, equal⟩ := Option.bind_eq_some_iff.mp compared
    refine ⟨fun yes => ⟨entry, there, same ▸ hashed, yes ▸ equal⟩, ?_⟩
    rintro ⟨other, there', -, equal'⟩
    cases there.symm.trans there'
    exact Option.some.inj (equal.symm.trans equal')
  · rw [if_neg same] at compared
    cases compared
    refine ⟨fun no => (Bool.false_ne_true no).elim, ?_⟩
    rintro ⟨other, -, hashed', -⟩
    exact absurd (Option.some.inj (hashed.symm.trans hashed')) same

theorem matchesAt_isSome (parallel : m.hashes.length = m.entries.length) {i : ℕ} (bound : i < m.entries.length)
    (defined : ∀ entry : Value × Value, m.entries[i]? = some entry → m.hashes[i]? = some hash →
      (valuesEq heap depth entry.1 key).isSome) : (m.matchesAt heap depth key hash i).isSome := by
  have entry := List.getElem?_eq_getElem bound
  have stored := List.getElem?_eq_getElem (parallel ▸ bound)
  rw [matchesAt, stored, entry]
  by_cases same : m.hashes[i] = hash
  · simpa [same] using defined _ entry (same ▸ stored)
  · simp [same]

private theorem firstWhere_sound {test : ℕ → Option Bool} {hit : ℕ → Prop} {positions : List ℕ} {found : Option ℕ}
    (tests : ∀ i answer, test i = some answer → (answer = true ↔ hit i)) (scanned : firstWhere test positions = some found) :
    (∀ i, found = some i → hit i) ∧ (found = none → ∀ i ∈ positions, ¬ hit i) := by
  induction positions with
  | nil =>
    cases scanned
    simp
  | cons first rest ih =>
    rw [firstWhere] at scanned
    obtain ⟨answer, tested, next⟩ := Option.bind_eq_some_iff.mp scanned
    have iff := tests first answer tested
    cases answer with
    | true =>
      cases next
      refine ⟨?_, by simp⟩
      rintro i ⟨⟩
      exact iff.mp rfl
    | false =>
      obtain ⟨hits, misses⟩ := ih next
      refine ⟨hits, fun absent i member => ?_⟩
      rcases List.mem_cons.mp member with rfl | later
      · exact fun yes => by simpa using iff.mpr yes
      · exact misses absent i later

private theorem firstWhere_returns {test : ℕ → Option Bool} {positions : List ℕ}
    (answers : ∀ i ∈ positions, (test i).isSome) : ∃ found, firstWhere test positions = some found := by
  induction positions with
  | nil => exact ⟨none, rfl⟩
  | cons first rest ih =>
    obtain ⟨answer, tested⟩ := Option.isSome_iff_exists.mp (answers first (List.mem_cons_self ..))
    obtain ⟨found, scanned⟩ := ih fun i member => answers i (List.mem_cons_of_mem _ member)
    cases answer with
    | true => exact ⟨some first, by simp [firstWhere, tested]⟩
    | false => exact ⟨found, by simp [firstWhere, tested, scanned]⟩

/-- The probe loop of `find` is a lookup in the table. -/
theorem find_indexed (present : m.index ≠ []) : m.find heap depth key hash =
    Probing.walk (m.table.length - 1) (Probing.look m.table (m.matchesAt heap depth key hash)) m.table.length
      (hash.toNat &&& (m.index.length - 1)) := by
  have visit (slot : ℕ) : (do
      let e ← m.index[slot]?
      if e = emptySlot then some (some none)
      else if ← m.matchesAt heap depth key hash (entryIndex e) then some (some (some (entryIndex e)))
      else some none) = Probing.look m.table (m.matchesAt heap depth key hash) slot := by
    rw [Probing.look, getElem?_table]
    cases m.index[slot]? with
    | none => rfl
    | some e => by_cases empty : e = emptySlot <;> simp [slotEntry, empty]
  rw [find, if_neg (by simpa using present), length_table]
  simp only [visit]

theorem find_sound (valid : m.Valid) (single : ∀ i j, Matches heap depth m key hash i → Matches heap depth m key hash j → i = j)
    {found : Option ℕ} (returned : m.find heap depth key hash = some found) (i : ℕ) :
    found = some i ↔ Matches heap depth m key hash i := by
  rcases valid.indexed with linear | indexed
  · rw [find, if_pos (by simp [linear])] at returned
    obtain ⟨hits, misses⟩ := firstWhere_sound (fun i answer => matchesAt_true) returned
    refine ⟨hits i, fun hit => ?_⟩
    cases found with
    | none => exact absurd hit (misses rfl i (List.mem_range.mpr hit.lt))
    | some j => exact congrArg some (single j i (hits j rfl) hit)
  · obtain ⟨bits, power⟩ := indexed.power
    have positive : 0 < m.index.length := Nat.zero_lt_of_lt indexed.room
    rw [find_indexed (List.ne_nil_of_length_pos positive), and_mask power] at returned
    refine indexed.placed.look_sound (by rwa [length_table]) (by simpa using Nat.mod_lt _ positive)
      (fun i _ answer => matchesAt_true) (fun i hit => ⟨hit.lt, ?_⟩) single returned i
    obtain ⟨-, -, stored, -⟩ := hit
    exact home_eq stored

/-- Both scans end when the comparisons with the entries of this hash do. -/
theorem find_returns (valid : m.Valid) (defined : ∀ (i : ℕ) (entry : Value × Value), m.entries[i]? = some entry →
    m.hashes[i]? = some hash → (valuesEq heap depth entry.1 key).isSome) :
    ∃ found, m.find heap depth key hash = some found := by
  rcases valid.indexed with linear | indexed
  · rw [find, if_pos (by simp [linear])]
    exact firstWhere_returns fun i member => matchesAt_isSome valid.parallel (List.mem_range.mp member) (defined i)
  · obtain ⟨bits, power⟩ := indexed.power
    have positive : 0 < m.index.length := Nat.zero_lt_of_lt indexed.room
    rw [find_indexed (List.ne_nil_of_length_pos positive), and_mask power]
    exact indexed.placed.look_returns (by rwa [length_table]) (by simpa using indexed.room)
      (by simpa using Nat.mod_lt _ positive) fun i below => matchesAt_isSome valid.parallel below (defined i)

/-! ## Building the index -/

/-- Placing a position ends at a hole; within 31 bits the table then holds it. -/
theorem indexInsert_eq {count bits : ℕ} (power : m.index.length = 2 ^ bits) (room : count < m.index.length)
    (placed : Placed m.table m.home count) (stored : m.hashes[count]? = some hash) :
    ∃ index, m.indexInsert count hash = some { m with index } ∧ index.length = m.index.length ∧
      (count < 2 ^ 31 → Placed (index.map slotEntry) m.home (count + 1)) := by
  have inside : m.home count < m.index.length := Nat.mod_lt _ (Nat.zero_lt_of_lt room)
  obtain ⟨d, near, hole, path⟩ := Probing.exists_first_empty (by simpa using inside)
    (placed.exists_empty (by simpa using room))
  have content (slot : ℕ) : m.table[slot]? = some none ↔ m.index[slot]? = some emptySlot := by
    simp [getElem?_table, slotEntry_none]
  have walked : Probing.walk (m.index.length - 1) (fun slot => do
      if (← m.index[slot]?) ≠ emptySlot then some none else some (some slot)) m.index.length
      (hash.toNat &&& (m.index.length - 1)) = some (slotAt m.index.length (m.home count) d) := by
    rw [and_mask power, ← home_eq stored]
    rw [length_table] at near hole path
    refine (Probing.walk_eq_some power inside).mpr ⟨d, near, fun e before => ?_, by simp [(content _).mp hole]⟩
    obtain ⟨i, occupied⟩ := path e before
    rw [getElem?_table] at occupied
    obtain ⟨x, there, entry⟩ := Option.map_eq_some_iff.mp occupied
    have full : x ≠ emptySlot := fun empty => by simp [slotEntry_none.mpr empty] at entry
    simp [there, full]
  refine ⟨_, by rw [indexInsert, walked]; rfl, List.length_set, fun fits => ?_⟩
  rw [List.map_set, slotEntry_ofNat fits, ← length_table]
  exact placed.insert near hole path

theorem lt_indexCapacityFor (n : ℕ) : n < indexCapacityFor n := by
  have := Nat.le_pow_clog Nat.one_lt_two (max (n * 2) 32)
  rw [indexCapacityFor]
  omega

/-- The rebuilt table after the first `count` entries; only the last position may be too large for it. -/
private theorem rebuild_step (parallel : m.hashes.length = m.entries.length) {count : ℕ}
    (within : count ≤ m.entries.length) (fits : count ≤ 2 ^ 31 + 1) :
    ∃ index, (List.range count).foldlM (fun m i => do m.indexInsert i (← m.hashes[i]?))
      { m with index := List.replicate (indexCapacityFor m.entries.length) emptySlot } = some { m with index } ∧
      index.length = indexCapacityFor m.entries.length ∧
      (count ≤ 2 ^ 31 → Placed (index.map slotEntry) (home { m with index }) count) := by
  induction count with
  | zero =>
    refine ⟨_, rfl, List.length_replicate, fun _ => ?_⟩
    rw [List.map_replicate, slotEntry_none.mpr rfl]
    exact Placed.blank _ _
  | succ count ih =>
    obtain ⟨index, built, length, placed⟩ := ih (by omega) (by omega)
    have room := lt_indexCapacityFor m.entries.length
    have stored := List.getElem?_eq_getElem (show count < m.hashes.length by omega)
    obtain ⟨next, inserted, same, placed'⟩ := indexInsert_eq (m := { m with index }) length
      (by change count < index.length; omega) (placed (by omega)) stored
    refine ⟨next, ?_, same.trans length, fun fits => ?_⟩
    · rw [List.range_succ, List.foldlM_append, built]
      simpa [stored] using inserted
    · have homes : home { m with index := next } = home { m with index } := by
        funext i
        simp only [home, same]
      rw [homes]
      exact placed' (by omega)

/-- A rebuild ends, and places every entry while positions fit 31 bits. -/
theorem rebuildIndex_eq (parallel : m.hashes.length = m.entries.length) (fits : m.entries.length ≤ 2 ^ 31 + 1) :
    ∃ index, m.rebuildIndex = some { m with index } ∧ index ≠ [] ∧
      (m.entries.length ≤ 2 ^ 31 → Valid { m with index }) := by
  obtain ⟨index, built, length, placed⟩ := rebuild_step parallel (Nat.le_refl _) fits
  have room : m.entries.length < index.length := length ▸ lt_indexCapacityFor _
  exact ⟨index, built, List.ne_nil_of_length_pos (Nat.zero_lt_of_lt room),
    fun fits => ⟨parallel, .inr ⟨⟨_, length⟩, room, placed fits⟩⟩⟩

/-! ## The entries as an association list -/

def keys (m : MapObj) : List Value := m.entries.map Prod.fst

end MapObj

/-- Whether two keys are found equal. -/
def keyEq (heap : Heap) (depth : ℕ) (a b : Value) : Bool := valuesEq heap depth a b == some true

theorem keyEq_iff {heap : Heap} {depth : ℕ} {a b : Value} :
    keyEq heap depth a b = true ↔ valuesEq heap depth a b = some true := beq_iff_eq

namespace MapObj

/-- The stored hashes are those of the keys, and no two keys are equal. -/
structure Stored (heap : Heap) (depth : ℕ) (m : MapObj) : Prop where
  hashed : m.hashes.map some = m.keys.map (hashValue heap depth)
  apart : m.keys.Pairwise fun a b => valuesEq heap depth a b ≠ some true

variable {heap : Heap} {depth : ℕ} {m : MapObj} {key val : Value} {hash : UInt64}

theorem getElem?_keys (m : MapObj) (i : ℕ) : m.keys[i]? = m.entries[i]?.map Prod.fst := List.getElem?_map

theorem Stored.hash_eq (stored : m.Stored heap depth) {i : ℕ} {entry : Value × Value}
    (there : m.entries[i]? = some entry) : m.hashes[i]? = hashValue heap depth entry.1 := by
  have same := congrArg (·[i]?) stored.hashed
  simp only [List.getElem?_map, getElem?_keys, there] at same
  cases found : m.hashes[i]? with
  | none => simp [found] at same
  | some h => simpa [found] using same

/-- Two entries with a key equal to the same one are the same entry. -/
theorem Stored.single (stored : m.Stored heap depth) {i j : ℕ} {a b : Value × Value} (left : m.entries[i]? = some a)
    (right : m.entries[j]? = some b) (first : valuesEq heap depth a.1 key = some true)
    (second : valuesEq heap depth b.1 key = some true) : i = j := by
  have apart {i j : ℕ} {a b : Value × Value} (left : m.entries[i]? = some a) (right : m.entries[j]? = some b)
      (before : i < j) : valuesEq heap depth a.1 b.1 ≠ some true := by
    have there : m.keys[i]? = some a.1 := by rw [getElem?_keys, left]; rfl
    have there' : m.keys[j]? = some b.1 := by rw [getElem?_keys, right]; rfl
    obtain ⟨bound, same⟩ := List.getElem?_eq_some_iff.mp there
    obtain ⟨bound', same'⟩ := List.getElem?_eq_some_iff.mp there'
    exact same ▸ same' ▸ List.pairwise_iff_getElem.mp stored.apart i j bound bound' before
  rcases Nat.lt_trichotomy i j with before | same | after
  · exact absurd (valuesEq_trans first (valuesEq_symm second)) (apart left right before)
  · exact same
  · exact absurd (valuesEq_trans second (valuesEq_symm first)) (apart right left after)

/-- A match is an entry with an equal key: its hash agrees by itself. -/
theorem Stored.matches_iff (stored : m.Stored heap depth) (hashes : hashValue heap depth key = some hash) {i : ℕ} :
    Matches heap depth m key hash i ↔ ∃ entry, m.entries[i]? = some entry ∧ valuesEq heap depth entry.1 key = some true := by
  refine exists_congr fun entry => ⟨fun ⟨there, _, equal⟩ => ⟨there, equal⟩, fun ⟨there, equal⟩ => ⟨there, ?_, equal⟩⟩
  rw [stored.hash_eq there, hashValue_eq equal, hashes]

/-- The invariant of a map whose keys are compared in this heap. -/
structure Sound (heap : Heap) (depth : ℕ) (m : MapObj) : Prop extends Valid m, Stored heap depth m where
  fits : m.entries.length ≤ 2 ^ 31

theorem Sound.empty : Sound heap depth empty where
  parallel := rfl
  indexed := .inl rfl
  hashed := rfl
  apart := .nil
  fits := Nat.zero_le _

/-- What `find` returns is the position a scan of the entries finds. -/
theorem Sound.position (sound : m.Sound heap depth) (hashes : hashValue heap depth key = some hash)
    {found : Option ℕ} (returned : m.find heap depth key hash = some found) :
    found = OrderedAssoc.position (keyEq heap depth) m.entries key := by
  have exact_ := find_sound sound.toValid (fun i j left right => ?_) returned
  · cases found with
    | none =>
      refine (OrderedAssoc.position_eq_none fun i entry there equal => ?_).symm
      exact Option.some_ne_none i ((exact_ i).mpr ((sound.matches_iff hashes).mpr ⟨entry, there, keyEq_iff.mp equal⟩)).symm
    | some i =>
      obtain ⟨entry, there, equal⟩ := (sound.matches_iff hashes).mp ((exact_ i).mp rfl)
      refine (OrderedAssoc.position_eq_some there (keyEq_iff.mpr equal) fun j other there' equal' => ?_).symm
      exact sound.single there' there (keyEq_iff.mp equal') equal
  · obtain ⟨a, there, equal⟩ := (sound.matches_iff hashes).mp left
    obtain ⟨b, there', equal'⟩ := (sound.matches_iff hashes).mp right
    exact sound.single there there' equal equal'

/-! ## The operations -/

/-- Inserting a new key ends with the entry appended, and in the index if there is one. -/
theorem insert_absent (val : Value) (valid : m.Valid) (fits : m.entries.length ≤ 2 ^ 31)
    (absent : m.find heap depth key hash = some none) :
    ∃ index, m.insert heap depth key hash val = some ⟨m.entries ++ [(key, val)], m.hashes ++ [hash], index⟩ ∧
      (hashThreshold ≤ m.entries.length → index ≠ []) ∧
      (m.entries.length < 2 ^ 31 → Valid ⟨m.entries ++ [(key, val)], m.hashes ++ [hash], index⟩) := by
  have parallel : (m.hashes ++ [hash]).length = (m.entries ++ [(key, val)]).length := by simp [valid.parallel]
  have length : (m.entries ++ [(key, val)]).length = m.entries.length + 1 := List.length_append
  obtain ⟨rebuilt, built, present, valid'⟩ :=
    rebuildIndex_eq (m := ⟨m.entries ++ [(key, val)], m.hashes ++ [hash], m.index⟩) parallel (by rw [length]; omega)
  have rebuild : ∃ index, rebuildIndex ⟨m.entries ++ [(key, val)], m.hashes ++ [hash], m.index⟩ =
      some ⟨m.entries ++ [(key, val)], m.hashes ++ [hash], index⟩ ∧ (hashThreshold ≤ m.entries.length → index ≠ []) ∧
      (m.entries.length < 2 ^ 31 → Valid ⟨m.entries ++ [(key, val)], m.hashes ++ [hash], index⟩) :=
    ⟨rebuilt, built, fun _ => present, fun small => valid' (length ▸ small)⟩
  simp only [insert, absent, bind, Option.bind_some]
  split_ifs with linear threshold load
  · exact rebuild
  · rw [length] at threshold
    exact ⟨m.index, rfl, fun many => absurd (Nat.le_succ_of_le many) threshold,
      fun _ => ⟨parallel, .inl (List.isEmpty_iff.mp linear)⟩⟩
  · exact rebuild
  · have indexed := valid.indexed.resolve_left (fun none => linear (List.isEmpty_iff.mpr none))
    obtain ⟨bits, power⟩ := indexed.power
    have homes : ∀ i < m.entries.length,
        home ⟨m.entries ++ [(key, val)], m.hashes ++ [hash], m.index⟩ i = m.home i := by
      intro i below
      simp only [home]
      rw [List.getElem?_append_left (valid.parallel ▸ below)]
    obtain ⟨index, placed, same, found⟩ := indexInsert_eq
      (m := ⟨m.entries ++ [(key, val)], m.hashes ++ [hash], m.index⟩) power indexed.room
      (indexed.placed.congr homes) (by simp [← valid.parallel] : _ = some hash)
    have nonempty : index ≠ [] := List.ne_nil_of_length_pos (same ▸ Nat.zero_lt_of_lt indexed.room)
    refine ⟨index, placed, fun _ => nonempty, fun small => ⟨parallel, .inr ⟨⟨bits, same.trans power⟩, ?_, ?_⟩⟩⟩
    · simp only [loadExceeded, decide_eq_true_eq] at load
      change (m.entries ++ [(key, val)]).length < index.length
      rw [same]
      change ¬ m.index.length * 3 ≤ _ at load
      change _ < m.index.length
      omega
    · change Placed _ _ (m.entries ++ [(key, val)]).length
      rw [length]
      refine (found small).congr fun i _ => ?_
      simp only [home, same]

/-- Removing a found key ends with its entry taken out. -/
theorem remove_present (valid : m.Valid) (fits : m.entries.length ≤ 2 ^ 31) {i : ℕ} (bound : i < m.entries.length)
    (found : m.find heap depth key hash = some (some i)) :
    ∃ index, m.remove heap depth key hash =
        some (some m.entries[i].2, ⟨m.entries.eraseIdx i, m.hashes.eraseIdx i, index⟩) ∧
      Valid ⟨m.entries.eraseIdx i, m.hashes.eraseIdx i, index⟩ := by
  have parallel : (m.hashes.eraseIdx i).length = (m.entries.eraseIdx i).length := by
    rw [List.length_eraseIdx, List.length_eraseIdx, valid.parallel]
  have fewer : (m.entries.eraseIdx i).length ≤ 2 ^ 31 := Nat.le_trans (List.length_eraseIdx_le _ _) fits
  obtain ⟨rebuilt, built, -, valid'⟩ := rebuildIndex_eq (m := ⟨m.entries.eraseIdx i, m.hashes.eraseIdx i, m.index⟩)
    parallel (Nat.le_succ_of_le fewer)
  simp only [remove, found, List.getElem?_eq_getElem bound, bind, Option.bind_some]
  split_ifs with linear
  · exact ⟨m.index, rfl, parallel, .inl (List.isEmpty_iff.mp linear)⟩
  · exact ⟨rebuilt, by rw [built]; rfl, valid' fewer⟩

theorem Stored.append (stored : m.Stored heap depth) (hashes : hashValue heap depth key = some hash)
    (absent : OrderedAssoc.position (keyEq heap depth) m.entries key = none) (index : List Int32) :
    Stored heap depth ⟨m.entries ++ [(key, val)], m.hashes ++ [hash], index⟩ where
  hashed := by
    have hashed := stored.hashed
    simp only [keys, List.map_append] at hashed ⊢
    rw [hashed]
    simp [hashes]
  apart := by
    simp only [keys, List.map_append, List.map_cons, List.map_nil]
    refine List.pairwise_append.mpr ⟨stored.apart, List.pairwise_singleton .., fun a member b last => ?_⟩
    obtain ⟨entry, there, rfl⟩ := List.mem_map.mp member
    cases List.mem_singleton.mp last
    have miss := List.findIdx?_eq_none_iff.mp absent entry there
    exact fun equal => by simp [keyEq_iff.mpr equal] at miss

theorem Stored.erase (stored : m.Stored heap depth) (i : ℕ) (index : List Int32) :
    Stored heap depth ⟨m.entries.eraseIdx i, m.hashes.eraseIdx i, index⟩ where
  hashed := by
    have hashed := congrArg (·.eraseIdx i) stored.hashed
    simpa only [keys, List.eraseIdx_map] using hashed
  apart := by
    rw [keys, ← List.eraseIdx_map]
    exact stored.apart.sublist (List.eraseIdx_sublist _ _)

section

variable (sound : m.Sound heap depth)

include sound

theorem Sound.update (i : ℕ) (val : Value) :
    Sound heap depth { m with entries := m.entries.modify i fun entry => (entry.1, val) } where
  parallel := by simpa using sound.parallel
  indexed := by
    refine sound.indexed.imp id fun indexed => ⟨indexed.power, by simpa using indexed.room, ?_⟩
    have length : (m.entries.modify i fun entry => (entry.1, val)).length = m.entries.length := List.length_modify ..
    change Placed m.table m.home (m.entries.modify i fun entry => (entry.1, val)).length
    rw [length]
    exact indexed.placed
  hashed := by
    rw [keys, OrderedAssoc.keys_modify]
    exact sound.hashed
  apart := by
    rw [keys, OrderedAssoc.keys_modify]
    exact sound.apart
  fits := by simpa using sound.fits

section

variable (hashes : hashValue heap depth key = some hash) {found : Option ℕ}
  (searched : m.find heap depth key hash = some found)

include hashes searched

/-- Once its key is looked up an insertion returns, and does what the association list does. -/
theorem Sound.insert (val : Value) : ∃ m', m.insert heap depth key hash val = some m' ∧
    ((OrderedAssoc.insert (keyEq heap depth) m.entries key val).length ≤ 2 ^ 31 →
      m'.Sound heap depth ∧ m'.entries = OrderedAssoc.insert (keyEq heap depth) m.entries key val) := by
  have position := sound.position hashes searched
  rw [OrderedAssoc.insert, ← position]
  cases found with
  | some i => exact ⟨_, by rw [MapObj.insert, searched]; rfl, fun _ => ⟨sound.update i val, rfl⟩⟩
  | none =>
    obtain ⟨index, inserted, -, valid⟩ := insert_absent val sound.toValid sound.fits searched
    refine ⟨_, inserted, fun fits => ⟨⟨valid ?_, sound.toStored.append hashes position.symm index, fits⟩, rfl⟩⟩
    rw [List.length_append, List.length_singleton] at fits
    exact fits

theorem Sound.remove : ∃ m', m.remove heap depth key hash = some (OrderedAssoc.get (keyEq heap depth) m.entries key, m') ∧
    m'.Sound heap depth ∧ m'.entries = OrderedAssoc.remove (keyEq heap depth) m.entries key := by
  have position := sound.position hashes searched
  rw [OrderedAssoc.remove, ← position]
  cases found with
  | some i =>
    have bound := (List.findIdx?_eq_some_iff_getElem.mp position.symm).1
    obtain ⟨index, erased, valid⟩ := remove_present sound.toValid sound.fits bound searched
    rw [OrderedAssoc.get_of_position position.symm, List.getElem?_eq_getElem bound]
    exact ⟨_, erased, ⟨valid, sound.toStored.erase i index, Nat.le_trans (List.length_eraseIdx_le _ _) sound.fits⟩, rfl⟩
  | none =>
    rw [OrderedAssoc.get_of_absent position.symm]
    exact ⟨m, by rw [MapObj.remove, searched]; rfl, sound, rfl⟩

theorem Sound.get : m.get heap depth key hash = some (OrderedAssoc.get (keyEq heap depth) m.entries key) := by
  have position := sound.position hashes searched
  rw [MapObj.get, searched]
  cases found with
  | some i =>
    have bound := (List.findIdx?_eq_some_iff_getElem.mp position.symm).1
    rw [OrderedAssoc.get_of_position position.symm, List.getElem?_eq_getElem bound]
    simp [bound]
  | none =>
    rw [OrderedAssoc.get_of_absent position.symm]
    rfl

theorem Sound.contains : m.contains heap depth key hash = some (m.entries.any fun entry => keyEq heap depth entry.1 key) := by
  rw [MapObj.contains, searched, sound.position hashes searched, Option.map_some, OrderedAssoc.position, List.findIdx?_isSome]

end

theorem Sound.insertKey {m' : MapObj} (fits : (OrderedAssoc.insert (keyEq heap depth) m.entries key val).length ≤ 2 ^ 31)
    (returned : m.insertKey heap depth key val = some m') :
    m'.Sound heap depth ∧ m'.entries = OrderedAssoc.insert (keyEq heap depth) m.entries key val := by
  obtain ⟨hash, hashes, returned⟩ := Option.bind_eq_some_iff.mp returned
  obtain ⟨found, searched, -⟩ := Option.bind_eq_some_iff.mp returned
  obtain ⟨_, inserted, after⟩ := sound.insert hashes searched val
  cases inserted.symm.trans returned
  exact after fits

end

end MapObj

/-- The keys hash, and those with the same hash compare. -/
structure Comparable (heap : Heap) (depth : ℕ) (keys : List Value) : Prop where
  hashes : ∀ a ∈ keys, (hashValue heap depth a).isSome
  compares : ∀ a ∈ keys, ∀ b ∈ keys, hashValue heap depth a = hashValue heap depth b → (valuesEq heap depth a b).isSome

theorem Comparable.mono {heap : Heap} {depth : ℕ} {keys keys' : List Value} (comparable : Comparable heap depth keys)
    (sub : keys' ⊆ keys) : Comparable heap depth keys' where
  hashes a member := comparable.hashes a (sub member)
  compares a left b right := comparable.compares a (sub left) b (sub right)

namespace MapObj

variable {heap : Heap} {depth : ℕ} {m : MapObj}

/-- A lookup ends when the comparisons with the keys of this hash do. -/
theorem Sound.searches (sound : m.Sound heap depth) {key : Value} (comparable : Comparable heap depth (m.keys ++ [key])) :
    ∃ hash found, hashValue heap depth key = some hash ∧ m.find heap depth key hash = some found := by
  obtain ⟨hash, hashes⟩ := Option.isSome_iff_exists.mp (comparable.hashes key (by simp))
  obtain ⟨found, searched⟩ := find_returns sound.toValid fun i entry there same =>
    comparable.compares entry.1 (List.mem_append_left _ (List.mem_map_of_mem (List.mem_of_getElem? there))) key (by simp)
      ((sound.hash_eq there).symm.trans (same.trans hashes.symm))
  exact ⟨hash, found, hashes, searched⟩

theorem Sound.insertAll (sound : m.Sound heap depth) {pairs : List (Value × Value)} {m' : MapObj}
    (fits : (OrderedAssoc.insertAll (keyEq heap depth) m.entries pairs).length ≤ 2 ^ 31)
    (returned : pairs.foldlM (fun m pair => MapObj.insertKey heap depth m pair.1 pair.2) m = some m') :
    m'.Sound heap depth ∧ m'.entries = OrderedAssoc.insertAll (keyEq heap depth) m.entries pairs := by
  induction pairs generalizing m with
  | nil =>
    cases returned
    exact ⟨sound, rfl⟩
  | cons pair rest ih =>
    rw [List.foldlM_cons] at returned
    obtain ⟨next, inserted, rest⟩ := Option.bind_eq_some_iff.mp returned
    obtain ⟨sound', entries⟩ := sound.insertKey (Nat.le_trans (OrderedAssoc.length_le_insertAll _ _) fits) inserted
    rw [OrderedAssoc.insertAll, List.foldl_cons, ← entries] at fits ⊢
    exact ih sound' fits rest

theorem Sound.insertAll_returns (sound : m.Sound heap depth) {pairs : List (Value × Value)}
    (fits : (OrderedAssoc.insertAll (keyEq heap depth) m.entries pairs).length ≤ 2 ^ 31)
    (comparable : Comparable heap depth (m.keys ++ pairs.map Prod.fst)) :
    (pairs.foldlM (fun m pair => MapObj.insertKey heap depth m pair.1 pair.2) m).isSome := by
  induction pairs generalizing m with
  | nil => rfl
  | cons pair rest ih =>
    obtain ⟨key, val⟩ := pair
    obtain ⟨hash, found, hashes, searched⟩ := sound.searches (comparable.mono (by simp) : Comparable heap depth (m.keys ++ [key]))
    obtain ⟨next, inserted, after⟩ := sound.insert hashes searched val
    obtain ⟨sound', entries⟩ := after (Nat.le_trans (OrderedAssoc.length_le_insertAll _ rest) fits)
    rw [OrderedAssoc.insertAll, List.foldl_cons, ← entries] at fits
    have added : next.keys ⊆ m.keys ++ [key] := by
      rw [keys, entries]
      exact OrderedAssoc.keys_insert ..
    have others : next.keys ++ rest.map Prod.fst ⊆ m.keys ++ ((key, val) :: rest).map Prod.fst := by
      intro k member
      rcases List.mem_append.mp member with old | new
      · rcases List.mem_append.mp (added old) with old | new <;> simp_all
      · exact List.mem_append_right _ (List.mem_cons_of_mem _ new)
    simpa [MapObj.insertKey, hashes, inserted] using ih sound' fits (comparable.mono others)

end MapObj

end Thera.Runtime
