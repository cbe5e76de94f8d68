import Thera.Model.Sdk.Strings

/-! # Slices, repetition and search

Offsets are compared through the characters in front of them, so the pass of `str_slice`, the byte ranges and the code-point ranges
meet at the same cuts of the string.
-/

namespace Thera.Soundness

open Sdk

/-- The byte offset of a code-point position. -/
def offset (s : Text) (position : ℕ) : ℕ := byteLen (s.take position)

variable {s rest hay pat : Text} {c : Char} {start stop cpIdx byteIdx fuel i j k : ℕ}

theorem byteLen_cons : byteLen (c :: s) = c.utf8Size + byteLen s := rfl

theorem offset_succ : offset (c :: s) (k + 1) = c.utf8Size + offset s k := rfl

theorem boundary_offset : boundary s (offset s k) = some (min k s.length) := by
  induction s generalizing k with
  | nil => simp [offset, byteLen, boundary]
  | cons c s ih =>
    cases k with
    | zero => rfl
    | succ k =>
      have := c.utf8Size_pos
      rw [offset_succ, boundary, if_neg (by omega), if_pos (by omega), Nat.add_sub_cancel_left, ih, List.length_cons, Nat.succ_min_succ]
      rfl

theorem offset_mono (le : i ≤ j) : offset s i ≤ offset s j :=
  ((List.take_sublist_take_left le).map Char.utf8Size).sum_le_sum fun _ _ => Nat.zero_le _

theorem getBytes_offset : getBytes s (offset s i) (offset s (max i j)) = some ((s.take j).drop i) := by
  have start : s.drop (min i s.length) = s.drop i := List.drop_eq_drop_iff.mpr (by omega)
  rw [getBytes, guard, if_pos (offset_mono (le_max_left i j)), boundary_offset, boundary_offset]
  change some ((s.take (min (max i j) s.length)).drop (min i s.length)) = _
  rw [List.drop_take, List.drop_take, start, Option.some_inj, List.take_eq_take_iff, List.length_drop]
  omega

theorem sliceLoop_next {byteStart byteEnd : ℕ} (more : cpIdx ≠ stop) : sliceLoop start stop (c :: s) cpIdx byteIdx byteStart byteEnd =
    sliceLoop start stop s (cpIdx + 1) (byteIdx + c.utf8Size) (if cpIdx = start then byteIdx else byteStart) byteEnd := if_neg more

/-- Past the first of the two positions, the pass looks for the second. -/
theorem sliceLoop_stop {byteStart : ℕ} (found : start < cpIdx) :
    sliceLoop start (cpIdx + k) s cpIdx byteIdx byteStart (byteIdx + byteLen s) = (byteStart, byteIdx + offset s k) := by
  induction s generalizing cpIdx byteIdx k with
  | nil => simp [sliceLoop, offset, byteLen]
  | cons c s ih =>
    cases k with
    | zero => simp [sliceLoop, found.ne', offset, byteLen]
    | succ k =>
      rw [sliceLoop_next (by omega), if_neg found.ne', byteLen_cons, offset_succ, ← Nat.add_assoc byteIdx, ← Nat.add_assoc byteIdx,
        ← ih (show start < cpIdx + 1 by omega), Nat.add_assoc cpIdx, Nat.add_comm 1]

theorem sliceLoop_start (order : i < k) :
    sliceLoop (cpIdx + i) (cpIdx + k) s cpIdx byteIdx (byteIdx + byteLen s) (byteIdx + byteLen s) =
      (byteIdx + offset s i, byteIdx + offset s k) := by
  induction s generalizing cpIdx byteIdx i k with
  | nil => simp [sliceLoop, offset, byteLen]
  | cons c s ih =>
    obtain ⟨k, rfl⟩ : ∃ later, k = later + 1 := ⟨k - 1, by omega⟩
    rw [sliceLoop_next (by omega), byteLen_cons, offset_succ, ← Nat.add_assoc byteIdx, ← Nat.add_assoc byteIdx, Nat.add_comm k,
      ← Nat.add_assoc cpIdx]
    cases i with
    | zero =>
      rw [if_pos (Nat.add_zero cpIdx).symm]
      exact sliceLoop_stop (by omega)
    | succ i =>
      rw [if_neg (by omega), offset_succ, ← Nat.add_assoc byteIdx, ← ih (by omega), Nat.add_assoc cpIdx 1 i, Nat.add_comm 1 i]

theorem strSlice_eq (start stop : ℤ) : strSlice s start stop = some ((s.take stop.toNat).drop start.toNat) := by
  by_cases reversed : max stop 0 ≤ max start 0
  · rw [strSlice, if_pos reversed, List.drop_eq_nil_of_le (by simp; omega)]
  · have order : start.toNat < stop.toNat := by omega
    have pass := @sliceLoop_start s 0 0 start.toNat stop.toNat order
    simp only [Nat.zero_add] at pass
    rw [strSlice, if_neg reversed, max_eq_left (show 0 ≤ stop by omega), show (max start 0).toNat = start.toNat by omega, pass,
      ← getBytes_offset, max_eq_right order.le]

theorem strByteSlice_offset : strByteSlice s (offset s i) (offset s j) = (s.take j).drop i := by
  have clamped (k) : (max 0 (min (offset s k : ℤ) (byteLen s))).toNat = offset s k := by
    have inside : offset s k ≤ byteLen s := ((List.take_sublist k s).map Char.utf8Size).sum_le_sum fun _ _ => Nat.zero_le _
    omega
  have mono : Monotone (offset s) := fun _ _ => offset_mono
  rw [strByteSlice, clamped, clamped, ← mono.map_max, max_comm, getBytes_offset, Option.getD_some]

/-- A slice by code points is a slice by bytes between the same characters, and two slices that meet make up the whole string. -/
theorem slices_agree (s : Text) (start stop k : ℤ) :
    strSlice s start stop = some ((s.take (min stop s.length).toNat).drop (max start 0).toNat) ∧
      strSlice s start stop = some (strByteSlice s (offset s (max start 0).toNat) (offset s (min stop s.length).toNat)) ∧
      ∃ front back, strSlice s 0 k = some front ∧ strSlice s k s.length = some back ∧ front ++ back = s := by
  have clamped : (s.take stop.toNat).drop start.toNat = (s.take (min stop s.length).toNat).drop (max start 0).toNat := by
    rw [show (max start 0).toNat = start.toNat by omega, show (min stop s.length).toNat = min stop.toNat s.length by omega,
      ← List.take_eq_take_min]
  refine ⟨?_, ?_, s.take k.toNat, s.drop k.toNat, ?_, ?_, List.take_append_drop _ _⟩
  · rw [strSlice_eq, clamped]
  · rw [strSlice_eq, strByteSlice_offset, clamped]
  · rw [strSlice_eq, Int.toNat_zero, List.drop_zero]
  · rw [strSlice_eq, Int.toNat_natCast, List.take_length]

theorem flatten_doubled {chunk : Text} : (List.replicate k (chunk ++ chunk)).flatten = (List.replicate (2 * k) chunk).flatten := by
  induction k with
  | zero => rfl
  | succ k ih => simp [Nat.mul_succ, List.replicate_succ, ih]

theorem repeatLoop_copies {result chunk : Text} {n : ℤ} (enough : n.toNat < fuel) :
    repeatLoop result chunk n fuel = some (result ++ (List.replicate n.toNat chunk).flatten) := by
  induction fuel generalizing result chunk n with
  | zero => omega
  | succ fuel ih =>
    rw [repeatLoop]
    split
    next more =>
      have doubled : (List.replicate (n / 2).toNat (if n / 2 > 0 then chunk ++ chunk else chunk)).flatten =
          (List.replicate (2 * (n / 2).toNat) chunk).flatten := by
        split
        next => exact flatten_doubled
        next last => rw [Int.toNat_of_nonpos (by omega)]
      rw [Int.tmod_eq_emod_of_nonneg more.le, Int.tdiv_eq_ediv_of_nonneg more.le, ih (by omega), doubled]
      split
      next odd => rw [show n.toNat = 2 * (n / 2).toNat + 1 by omega, List.replicate_succ, List.flatten_cons, List.append_assoc]
      next even => rw [show n.toNat = 2 * (n / 2).toNat by omega]
    next done => rw [Int.toNat_of_nonpos (by omega), List.replicate_zero, List.flatten_nil, List.append_nil]

/-- From the `j`th character on, the comparison goes to the end of the pattern if and only if the rest of the pattern stands there. -/
theorem agreeLoop_iff (room : i + pat.length ≤ hay.length) (le : j ≤ pat.length) (enough : pat.length - j < fuel) :
    ∃ k, agreeLoop hay pat i j fuel = some k ∧ (k = pat.length ↔ pat.drop j <+: hay.drop (i + j)) := by
  induction fuel generalizing j with
  | zero => omega
  | succ fuel ih =>
    rw [agreeLoop]
    by_cases more : j < pat.length
    · rw [if_pos more, List.getElem?_eq_getElem more, List.getElem?_eq_getElem (show i + j < hay.length by omega),
        List.drop_eq_getElem_cons more, List.drop_eq_getElem_cons (show i + j < hay.length by omega), List.cons_prefix_cons]
      by_cases same : hay[i + j] = pat[j]
      · obtain ⟨k, run, whole⟩ := @ih (j + 1) more (by omega)
        refine ⟨k, ?_, by rw [whole, and_iff_right same.symm, Nat.add_assoc]⟩
        rw [← run]
        exact if_pos same
      · refine ⟨j, if_neg same, ?_⟩
        have := Ne.symm same
        simp [more.ne, this]
    · refine ⟨j, if_neg more, ?_⟩
      rw [List.drop_eq_nil_of_le (by omega)]
      simp
      omega

/-- The search from `i` on gives the least place there is. -/
theorem findLoop_least (some_pat : 0 < pat.length) (inside : i ≤ hay.length) (enough : hay.length < i + fuel) :
    ∃ found, findLoop hay pat i fuel = some found ∧ ∀ k, found = some k ↔ IsLeast {p | i ≤ p ∧ pat <+: hay.drop p} k := by
  induction fuel generalizing i with
  | zero => omega
  | succ fuel ih =>
    rw [findLoop]
    by_cases room : i + pat.length ≤ hay.length
    · obtain ⟨agree, run, whole⟩ := @agreeLoop_iff hay pat (pat.length + 1) i 0 room (Nat.zero_le _) (by omega)
      rw [List.drop_zero, Nat.add_zero] at whole
      rw [if_pos room, run]
      by_cases here : agree = pat.length
      · refine ⟨some i, if_pos here, fun k => ?_⟩
        have least : IsLeast {p | i ≤ p ∧ pat <+: hay.drop p} i := ⟨⟨le_rfl, whole.mp here⟩, fun p occurs => occurs.1⟩
        rw [Option.some_inj]
        exact ⟨fun same => same ▸ least, least.unique⟩
      · obtain ⟨found, later, least⟩ := @ih (i + 1) (by omega) (by omega)
        refine ⟨found, (if_neg here).trans later, fun k => ?_⟩
        have behind : {p | i ≤ p ∧ pat <+: hay.drop p} = {p | i + 1 ≤ p ∧ pat <+: hay.drop p} := by
          ext p
          refine and_congr_left fun occurs => ⟨fun le => lt_of_le_of_ne le ?_, Nat.le_of_succ_le⟩
          rintro rfl
          exact here (whole.mpr occurs)
        rw [behind, least]
    · refine ⟨none, if_neg room, fun k => iff_of_false (Option.some_ne_none k).symm fun least => ?_⟩
      have fits := least.1.2.length_le
      have := least.1.1
      rw [List.length_drop] at fits
      omega

theorem strFind_least : ∃ found, strFind hay pat = some found ∧ ∀ k, found = some k ↔ IsLeast {p | pat <+: hay.drop p} k := by
  rw [strFind]
  by_cases empty : pat.length = 0
  · have least : IsLeast {p | pat <+: hay.drop p} 0 := ⟨List.eq_nil_of_length_eq_zero empty ▸ List.nil_prefix, fun _ _ => Nat.zero_le _⟩
    refine ⟨some 0, if_pos empty, fun k => ?_⟩
    rw [Option.some_inj]
    exact ⟨fun same => same ▸ least, least.unique⟩
  · rw [if_neg empty]
    simpa using @findLoop_least hay pat (hay.length + 1) 0 (by omega) (Nat.zero_le _) (by omega)

theorem infix_iff_drop : pat <:+: hay ↔ ∃ p, pat <+: hay.drop p := by
  rw [List.infix_iff_prefix_suffix]
  constructor
  · rintro ⟨tail, occurs, suffix⟩
    exact ⟨_, List.suffix_iff_eq_drop.mp suffix ▸ occurs⟩
  · rintro ⟨p, occurs⟩
    exact ⟨_, occurs, List.drop_suffix p hay⟩

/-- `repeat` makes that many copies, and `find` gives the first place where the pattern stands, or none if there is none. -/
theorem repeat_copies_and_find_searches (s hay pat : Text) (count : ℤ) :
    strRepeat s count = some (List.replicate (max count 0).toNat s).flatten ∧
      ∃ found, strFind hay pat = some found ∧ (∀ i, found = some i ↔ IsLeast {p | pat <+: hay.drop p} i) ∧
        (found = none ↔ ¬ pat <:+: hay) := by
  obtain ⟨found, run, least⟩ := @strFind_least hay pat
  refine ⟨?_, found, run, least, ?_⟩
  · rw [strRepeat, show (max count 0).toNat = count.toNat by omega]
    split
    next few => rw [Int.toNat_of_nonpos few]; rfl
    next => exact repeatLoop_copies (Nat.lt_succ_self _)
  · rw [infix_iff_drop, Option.eq_none_iff_forall_ne_some]
    constructor
    · intro none_found occurs
      exact none_found _ ((least _).mpr (isLeast_csInf occurs))
    · intro absent k here
      exact absent ⟨k, ((least k).mp here).1⟩

end Thera.Soundness
