import Thera.Model.Sdk.Lists

/-! # Inserting and removing in place

Both methods move every element behind the index by one slot. The loops are followed on a list that is cut where they stand.
-/

namespace Thera.Soundness

open Sdk

variable {α : Type} {x v : α} {pre post xs : List α} {i : ℤ} {fuel : ℕ}

theorem listGet_cut : listGet pre.length (pre ++ x :: post) = (.ok x, pre ++ x :: post) := by
  rw [listGet, checkedListIndex, dif_pos (by simp)]
  simp [Except.map]

theorem listSet_cut : listSet pre.length v (pre ++ x :: post) = (.ok (), pre ++ v :: post) := by
  rw [listSet, checkedListIndex, dif_pos (by simp)]
  simp

theorem run_bind {β γ : Type} {m : InPlace α β} {next : β → InPlace α γ} {b : β} {items : List α} (run : m xs = (.ok b, items)) :
    (m >>= next) xs = next b items := by
  change ExceptT.bindCont next (m xs).1 (m xs).2 = _
  rw [run]
  rfl

theorem run_get {γ : Type} {next : List α → InPlace α γ} : (get >>= next) xs = next xs xs := rfl

theorem rippleLoop_succ : rippleLoop i v (fuel + 1) xs =
    if i < xs.length then (listGet i >>= fun tmp => listSet i v >>= fun _ => rippleLoop (i + 1) tmp fuel) xs else (.ok v, xs) := by
  rw [rippleLoop, run_get]
  split <;> rfl

/-- The rippled list, and behind it the element left over. -/
theorem rippleLoop_cut (enough : post.length < fuel) :
    ∃ last moved, rippleLoop pre.length v fuel (pre ++ post) = (.ok last, moved) ∧ moved ++ [last] = pre ++ v :: post := by
  induction fuel generalizing pre v post with
  | zero => omega
  | succ fuel ih =>
    rw [rippleLoop_succ]
    cases post with
    | nil =>
      refine ⟨v, pre, ?_, rfl⟩
      rw [List.append_nil, if_neg (lt_irrefl _)]
    | cons y post =>
      obtain ⟨last, moved, run, whole⟩ := @ih y (pre ++ [v]) post (by simpa using enough)
      refine ⟨last, moved, ?_, by simpa using whole⟩
      rw [if_pos (by simp), run_bind listGet_cut, run_bind listSet_cut]
      simpa using run

theorem listInsert_cut : listInsert pre.length v (pre ++ post) = (.ok (), pre ++ v :: post) := by
  rw [listInsert, run_get]
  cases post with
  | nil =>
    rw [if_pos (by simp)]
    change (Except.ok (), pre ++ [] ++ [v]) = _
    rw [List.append_nil]
  | cons y post =>
    obtain ⟨last, moved, run, whole⟩ := @rippleLoop_cut α y (pre ++ [v]) post ((pre ++ v :: post).length + 1) (by simp; omega)
    rw [if_neg (by simp; omega), run_bind listGet_cut, run_bind listSet_cut, run_get]
    rw [run_bind (by simpa using run)]
    change (Except.ok (), moved ++ [last]) = _
    simpa using whole

theorem shiftLoop_succ {last j : ℤ} : shiftLoop last j (fuel + 1) xs =
    if j < last then (listGet (j + 1) >>= fun next => listSet j next >>= fun _ => shiftLoop last (j + 1) fuel) xs else (.ok (), xs) := by
  rw [shiftLoop]
  split <;> rfl

/-- The slot the loop stands at is the one to go; its last copy is at the end. -/
theorem shiftLoop_cut (enough : post.length < fuel) :
    ∃ moved, shiftLoop (pre.length + post.length) pre.length fuel (pre ++ x :: post) = (.ok (), moved) ∧ moved.dropLast = pre ++ post := by
  induction fuel generalizing pre x post with
  | zero => omega
  | succ fuel ih =>
    rw [shiftLoop_succ]
    cases post with
    | nil => exact ⟨pre ++ [x], by simp, by simp⟩
    | cons y post =>
      obtain ⟨moved, run, whole⟩ := @ih y (pre ++ [y]) post (by simpa using enough)
      refine ⟨moved, ?_, by simpa using whole⟩
      have next : listGet (pre.length + 1) (pre ++ x :: y :: post) = (.ok y, pre ++ x :: y :: post) := by
        simpa using @listGet_cut α y (pre ++ [x]) post
      rw [if_pos (by simp), run_bind next, run_bind listSet_cut]
      simpa [add_comm, add_left_comm] using run

theorem listRemoveAt_cut : listRemoveAt pre.length (pre ++ x :: post) = (.ok x, pre ++ post) := by
  obtain ⟨moved, run, whole⟩ := @shiftLoop_cut α x pre post ((pre ++ x :: post).length + 1) (by simp; omega)
  have stop : ((pre ++ x :: post).length : ℤ) - 1 = pre.length + post.length := by
    simp
    omega
  rw [listRemoveAt, run_bind listGet_cut, run_get, run_get, stop, run_bind run]
  change (Except.ok x, moved.dropLast) = _
  rw [whole]

/-- A read outside the list stops a method before it touched anything. -/
theorem run_outside {γ : Type} {next : α → InPlace α γ} (outside : i < 0 ∨ xs.length ≤ i) :
    (listGet i >>= next) xs = (.error (.indexOutOfBounds i xs.length), xs) := by
  change ExceptT.bindCont next (listGet i xs).1 (listGet i xs).2 = _
  rw [listGet, checkedListIndex, dif_neg (by omega)]
  rfl

/-- `insert` and `remove_at` undo each other, each of them exact for every index in its range; outside of it they trap and the list is
as before. -/
theorem insert_and_remove_are_inverse (xs : List α) (v : α) :
    (∀ k ≤ xs.length, listInsert k v xs = (.ok (), xs.take k ++ v :: xs.drop k) ∧ (listInsert k v *> listRemoveAt k) xs = (.ok v, xs)) ∧
      (∀ k, (inside : k < xs.length) → listRemoveAt k xs = (.ok xs[k], xs.take k ++ xs.drop (k + 1))) ∧
      (∀ i : ℤ, i < 0 ∨ xs.length < i → listInsert i v xs = (.error (.indexOutOfBounds i xs.length), xs)) ∧
      ∀ i : ℤ, i < 0 ∨ xs.length ≤ i → listRemoveAt i xs = (.error (.indexOutOfBounds i xs.length), xs) := by
  refine ⟨fun k inside => ?_, fun k inside => ?_, fun i outside => ?_, fun i outside => run_outside outside⟩
  · have cut : (xs.take k).length = k := List.length_take_of_le inside
    have inserted : listInsert k v xs = (.ok (), xs.take k ++ v :: xs.drop k) := by
      simpa [cut] using @listInsert_cut α v (xs.take k) (xs.drop k)
    refine ⟨inserted, ?_⟩
    rw [seqRight_eq_bind, run_bind inserted]
    simpa [cut] using @listRemoveAt_cut α v (xs.take k) (xs.drop k)
  · have cut : (xs.take k).length = k := List.length_take_of_le inside.le
    have run := @listRemoveAt_cut α xs[k] (xs.take k) (xs.drop (k + 1))
    rwa [cut, List.getElem_cons_drop inside, List.take_append_drop] at run
  · rw [listInsert, run_get, if_neg (by omega)]
    exact run_outside (by omega)

end Thera.Soundness
