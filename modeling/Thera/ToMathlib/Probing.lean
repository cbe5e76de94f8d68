import Mathlib

/-! # Linear probing

A probe loop visits slots one after the other, wrapping at the end of the table, until a visit
finishes it. `Placed` is the invariant of an open-addressing table of entry positions: each position
below `count` sits in exactly one slot and is found from its home slot without crossing an empty one.
The rules say that placing the next position in the first empty slot keeps the invariant, and which
slot a probe loop stops at.
-/

namespace Probing

variable {α : Type}

/-- Visit slots from `slot` on, wrapping by `mask`. A visit fails, finishes or goes on. -/
def walk (mask : ℕ) (visit : ℕ → Option (Option α)) : ℕ → ℕ → Option α
  | 0, _ => none
  | fuel + 1, slot => do
      match ← visit slot with
      | some result => some result
      | none => walk mask visit fuel ((slot + 1) &&& mask)

/-- The slot `distance` steps after `home` in a table of `size` slots. -/
def slotAt (size home distance : ℕ) : ℕ := (home + distance) % size

theorem slotAt_lt {size home : ℕ} (inside : home < size) (distance : ℕ) : slotAt size home distance < size :=
  Nat.mod_lt _ (Nat.zero_lt_of_lt inside)

/-- A walk over a table of power-of-two size ends at the first slot that finishes it. -/
theorem walk_eq_some {size bits : ℕ} {visit : ℕ → Option (Option α)} {home fuel : ℕ} {result : α}
    (power : size = 2 ^ bits) (inside : home < size) :
    walk (size - 1) visit fuel home = some result ↔ ∃ distance < fuel,
      (∀ d < distance, visit (slotAt size home d) = some none) ∧
      visit (slotAt size home distance) = some (some result) := by
  subst power
  induction fuel generalizing home with
  | zero => simp [walk]
  | succ fuel ih =>
    have first : slotAt (2 ^ bits) home 0 = home := Nat.mod_eq_of_lt inside
    have shifted (d : ℕ) : slotAt (2 ^ bits) ((home + 1) % 2 ^ bits) d = slotAt (2 ^ bits) home (d + 1) := by
      rw [slotAt, slotAt, Nat.mod_add_mod, Nat.add_assoc, Nat.add_comm 1]
    have next : walk (2 ^ bits - 1) visit fuel ((home + 1) &&& (2 ^ bits - 1)) = some result ↔ ∃ distance < fuel,
        (∀ d < distance, visit (slotAt (2 ^ bits) home (d + 1)) = some none) ∧
        visit (slotAt (2 ^ bits) home (distance + 1)) = some (some result) := by
      rw [Nat.and_two_pow_sub_one_eq_mod, ih (Nat.mod_lt _ (Nat.two_pow_pos _))]
      simp only [shifted]
    constructor
    · intro ends
      cases visited : visit home with
      | none => simp [walk, visited] at ends
      | some answer =>
        cases answer with
        | some found =>
          obtain rfl : found = result := by simpa [walk, visited] using ends
          exact ⟨0, Nat.succ_pos _, fun d impossible => absurd impossible (Nat.not_lt_zero d), first.symm ▸ visited⟩
        | none =>
          obtain ⟨distance, near, goesOn, stops⟩ := next.mp (by simpa [walk, visited] using ends)
          refine ⟨distance + 1, Nat.succ_lt_succ near, fun d before => ?_, stops⟩
          cases d with
          | zero => exact first.symm ▸ visited
          | succ d => exact goesOn d (Nat.lt_of_succ_lt_succ before)
    · rintro ⟨distance, near, goesOn, stops⟩
      cases distance with
      | zero =>
        rw [first] at stops
        simp [walk, stops]
      | succ distance =>
        have visited := goesOn 0 (Nat.succ_pos _)
        rw [first] at visited
        have rest := next.mpr ⟨distance, Nat.lt_of_succ_lt_succ near,
          fun d before => goesOn (d + 1) (Nat.succ_lt_succ before), stops⟩
        simpa [walk, visited] using rest

/-- From any home, some distance within the table leads to a given slot. -/
theorem exists_slotAt {size home slot : ℕ} (inside : home < size) (target : slot < size) :
    ∃ d < size, slotAt size home d = slot := by
  by_cases after : home ≤ slot
  · exact ⟨slot - home, by omega, by rw [slotAt, Nat.add_sub_cancel' after, Nat.mod_eq_of_lt target]⟩
  · refine ⟨size - home + slot, by omega, ?_⟩
    rw [slotAt, show home + (size - home + slot) = slot + size by omega, Nat.add_mod_right,
      Nat.mod_eq_of_lt target]

/-- The first empty slot at or after `home`, if the table has one. -/
theorem exists_first_empty {table : List (Option ℕ)} {home : ℕ} (inside : home < table.length)
    (empty : ∃ slot : ℕ, table[slot]? = some none) :
    ∃ d < table.length, table[slotAt table.length home d]? = some none ∧
      ∀ e < d, ∃ i, table[slotAt table.length home e]? = some (some i) := by
  obtain ⟨slot, hole⟩ := empty
  obtain ⟨d, bound, same⟩ := exists_slotAt inside (List.getElem?_eq_some_iff.mp hole).1
  have holes : ∃ d : ℕ, d < table.length ∧ table[slotAt table.length home d]? = some none := ⟨d, bound, same ▸ hole⟩
  classical
  refine ⟨Nat.find holes, (Nat.find_spec holes).1, (Nat.find_spec holes).2, fun e before => ?_⟩
  have occupied := Nat.find_min holes before
  have near : e < table.length := Nat.lt_trans before (Nat.find_spec holes).1
  have within := slotAt_lt inside e
  rw [List.getElem?_eq_getElem within] at occupied ⊢
  cases content : table[slotAt table.length home e] with
  | none => exact absurd ⟨near, congrArg some content⟩ occupied
  | some i => exact ⟨i, rfl⟩

/-- Each position below `count` has one slot and is reached from its home without crossing a hole. -/
structure Placed (table : List (Option ℕ)) (home : ℕ → ℕ) (count : ℕ) : Prop where
  bounded : ∀ slot i : ℕ, table[slot]? = some (some i) → i < count
  unique : ∀ slot slot' i : ℕ, table[slot]? = some (some i) → table[slot']? = some (some i) → slot = slot'
  found : ∀ i < count, ∃ d < table.length, table[slotAt table.length (home i) d]? = some (some i) ∧
    ∀ e < d, ∃ j, table[slotAt table.length (home i) e]? = some (some j)

theorem Placed.blank (size : ℕ) (home : ℕ → ℕ) : Placed (List.replicate size none) home 0 where
  bounded slot i stored := by simp [List.getElem?_replicate] at stored
  unique slot slot' i stored := by simp [List.getElem?_replicate] at stored
  found i impossible := absurd impossible (Nat.not_lt_zero i)

/-- Fewer positions than slots leave a hole. -/
theorem Placed.exists_empty {table : List (Option ℕ)} {home : ℕ → ℕ} {count : ℕ} (placed : Placed table home count)
    (room : count < table.length) : ∃ slot : ℕ, table[slot]? = some none := by
  by_contra full
  have occupied : ∀ slot < table.length, ∃ i, table[slot]? = some (some i) := by
    intro slot inside
    rw [List.getElem?_eq_getElem inside]
    cases content : table[slot] with
    | none => exact absurd ⟨slot, (List.getElem?_eq_getElem inside).trans (congrArg some content)⟩ full
    | some i => exact ⟨i, rfl⟩
  choose! entry stored using occupied
  -- The slots map injectively to the positions below `count`, of which there are too few.
  have injective : ((List.range table.length).map entry).Nodup := by
    refine List.Nodup.map_on (fun a left b right same => ?_) List.nodup_range
    exact placed.unique a b _ (stored a (List.mem_range.mp left)) (same ▸ stored b (List.mem_range.mp right))
  have within : (List.range table.length).map entry ⊆ List.range count := by
    intro i member
    obtain ⟨slot, inside, rfl⟩ := List.mem_map.mp member
    exact List.mem_range.mpr (placed.bounded slot _ (stored slot (List.mem_range.mp inside)))
  have few := (List.subperm_of_subset injective within).length_le
  rw [List.length_map, List.length_range, List.length_range] at few
  omega

/-- One turn of a lookup: stop at a hole or at a position that passes the test. -/
def look (table : List (Option ℕ)) (test : ℕ → Option Bool) (slot : ℕ) : Option (Option (Option ℕ)) := do
  match ← table[slot]? with
  | none => some (some none)
  | some i => if ← test i then some (some (some i)) else some none

section

variable {table : List (Option ℕ)} {home : ℕ → ℕ} {count bits start : ℕ} {test : ℕ → Option Bool} {hit : ℕ → Prop}

/-- A lookup that ends has found what is sought, if it is there. -/
theorem Placed.look_sound (placed : Placed table home count) (power : table.length = 2 ^ bits)
    (inside : start < table.length) (exact_ : ∀ i < count, ∀ answer, test i = some answer → (answer = true ↔ hit i))
    (homed : ∀ i, hit i → i < count ∧ home i = start) (single : ∀ i j, hit i → hit j → i = j) {found : Option ℕ}
    (ends : walk (table.length - 1) (look table test) table.length start = some found) (i : ℕ) :
    found = some i ↔ hit i := by
  obtain ⟨distance, near, goesOn, stops⟩ := (walk_eq_some power inside).mp ends
  have within := slotAt_lt inside distance
  have content := List.getElem?_eq_getElem within
  cases slot : table[slotAt table.length start distance] with
  | none =>
    rw [slot] at content
    obtain rfl : none = found := by simpa [look, content] using stops
    refine ⟨fun absent => (Option.some_ne_none i absent.symm).elim, fun hits => ?_⟩
    obtain ⟨below, same⟩ := homed i hits
    obtain ⟨d, -, stored, path⟩ := placed.found i below
    rw [same] at stored path
    -- The hole is not on the way to `i`, so the lookup would have stopped there.
    rcases Nat.lt_trichotomy d distance with before | rfl | after
    · have passed := goesOn d before
      cases tested : test i with
      | none => simp [look, stored, tested] at passed
      | some answer =>
        have yes := (exact_ i below answer tested).mpr hits
        simp [look, stored, tested, yes] at passed
    · cases stored.symm.trans content
    · obtain ⟨j, other⟩ := path _ after
      cases other.symm.trans content
  | some j =>
    rw [slot] at content
    have below := placed.bounded _ j content
    cases tested : test j with
    | none => simp [look, content, tested] at stops
    | some answer =>
      cases answer with
      | false => simp [look, content, tested] at stops
      | true =>
        obtain rfl : some j = found := by simpa [look, content, tested] using stops
        have this := (exact_ j below true tested).mp rfl
        exact ⟨by rintro ⟨⟩; exact this, fun hits => congrArg some (single j i this hits)⟩

/-- A table with a hole ends every lookup whose tests have answers. -/
theorem Placed.look_returns (placed : Placed table home count) (power : table.length = 2 ^ bits)
    (room : count < table.length) (inside : start < table.length) (answers : ∀ i < count, (test i).isSome) :
    ∃ found, walk (table.length - 1) (look table test) table.length start = some found := by
  obtain ⟨hole, near, empty, -⟩ := exists_first_empty inside (placed.exists_empty room)
  have defined (d : ℕ) : (look table test (slotAt table.length start d)).isSome := by
    have within := slotAt_lt inside d
    have content := List.getElem?_eq_getElem within
    cases slot : table[slotAt table.length start d] with
    | none => simp [look, content, slot]
    | some i =>
      rw [slot] at content
      obtain ⟨answer, tested⟩ := Option.isSome_iff_exists.mp (answers i (placed.bounded _ i content))
      cases answer <;> simp [look, content, tested]
  have stop : ∃ d : ℕ, look table test (slotAt table.length start d) ≠ some none :=
    ⟨hole, by simp [look, empty]⟩
  classical
  obtain ⟨answer, looked⟩ := Option.isSome_iff_exists.mp (defined (Nat.find stop))
  cases answer with
  | none => exact absurd looked (Nat.find_spec stop)
  | some found =>
    refine ⟨found, (walk_eq_some power inside).mpr ⟨Nat.find stop, ?_, fun d before => ?_, looked⟩⟩
    · exact Nat.lt_of_le_of_lt (Nat.find_le (by simp [look, empty])) near
    · exact not_not.mp (Nat.find_min stop before)

end

/-- Only the homes of the placed positions matter. -/
theorem Placed.congr {table : List (Option ℕ)} {home home' : ℕ → ℕ} {count : ℕ} (placed : Placed table home count)
    (same : ∀ i < count, home' i = home i) : Placed table home' count where
  bounded := placed.bounded
  unique := placed.unique
  found i below := by
    rw [same i below]
    exact placed.found i below

/-- Placing the next position in the first hole after its home keeps the invariant. -/
theorem Placed.insert {table : List (Option ℕ)} {home : ℕ → ℕ} {count d : ℕ} (placed : Placed table home count)
    (inside : d < table.length) (hole : table[slotAt table.length (home count) d]? = some none)
    (occupied : ∀ e < d, ∃ i, table[slotAt table.length (home count) e]? = some (some i)) :
    Placed (table.set (slotAt table.length (home count) d) (some count)) home (count + 1) := by
  have bound := (List.getElem?_eq_some_iff.mp hole).1
  have content (slot : ℕ) : (table.set (slotAt table.length (home count) d) (some count))[slot]? =
      if slotAt table.length (home count) d = slot then some (some count) else table[slot]? := by
    rw [List.getElem?_set]
    simp [bound]
  have keeps {slot i : ℕ} (stored : table[slot]? = some (some i)) :
      (table.set (slotAt table.length (home count) d) (some count))[slot]? = some (some i) := by
    rw [content, if_neg, stored]
    rintro rfl
    rw [hole] at stored
    cases stored
  refine ⟨fun slot i stored => ?_, fun slot slot' i stored stored' => ?_, fun i below => ?_⟩
  · rw [content] at stored
    split_ifs at stored
    · cases stored
      exact Nat.lt_succ_self _
    · exact Nat.lt_succ_of_lt (placed.bounded slot i stored)
  · rw [content] at stored stored'
    split_ifs at stored stored' with here here'
    · exact here.symm.trans here'
    · cases stored
      exact absurd (placed.bounded slot' count stored') (Nat.lt_irrefl _)
    · cases stored'
      exact absurd (placed.bounded slot count stored) (Nat.lt_irrefl _)
    · exact placed.unique slot slot' i stored stored'
  · rw [List.length_set]
    rcases Nat.lt_succ_iff_lt_or_eq.mp below with old | rfl
    · obtain ⟨e, near, stored, path⟩ := placed.found i old
      exact ⟨e, near, keeps stored, fun f before => (path f before).imp fun j => keeps⟩
    · refine ⟨d, inside, by rw [content, if_pos rfl], fun e before => (occupied e before).imp fun j => keeps⟩

end Probing
