import Thera.Model.Frontend.Edit
import Thera.Soundness.Sorting

/-! # Applying edits is simultaneous replacement

The source is read as an alternation of stretches that stay and stretches that go. Any selection of the cuts gives a list of edits
and a text, and splicing those edits gives that text; applying the edits in two batches is the same alternation with one batch's
replacements already in place.
-/

namespace Thera.Soundness

open Thera.Frontend Merging

/-- A stretch that stays, the stretch behind it that goes, and what comes in its place; `early` says in which batch. -/
structure Cut where
  kept : List Char
  removed : List Char
  text : List Char
  early : Bool

/-- The edits of the selected cuts of a text that starts at `offset`. -/
def editsOf (chosen : Bool → Bool) : ℤ → List Cut → List TextEdit
  | _, [] => []
  | offset, c :: cuts =>
      let start := offset + c.kept.length
      let later := editsOf chosen (start + c.removed.length) cuts
      if chosen c.early then ⟨start, start + c.removed.length, String.ofList c.text⟩ :: later else later

/-- The text once the selected cuts are replaced. -/
def textOf (chosen : Bool → Bool) (cuts : List Cut) : List Char :=
  cuts.flatMap fun c => c.kept ++ if chosen c.early then c.text else c.removed

@[simp] theorem textOf_cons (chosen : Bool → Bool) (c : Cut) (cuts : List Cut) :
    textOf chosen (c :: cuts) = c.kept ++ ((if chosen c.early then c.text else c.removed) ++ textOf chosen cuts) := by
  rw [textOf, List.flatMap_cons, List.append_assoc, ← textOf]

/-- `result` is `source` with every range of the edits replaced by its text and everything else kept in order. -/
def Replaced (source : String) (edits : List TextEdit) (result : String) : Prop :=
  ∃ cuts tail, source.toList = textOf (fun _ => false) cuts ++ tail ∧ edits.Perm (editsOf (fun _ => true) 0 cuts) ∧
    result.toList = textOf (fun _ => true) cuts ++ tail

/-- Ranges inside a text of the given length that do not overlap and start at different places. -/
structure Applicable (length : ℕ) (edits : List TextEdit) : Prop where
  inside : ∀ e ∈ edits, 0 ≤ e.start ∧ e.start ≤ e.stop ∧ e.stop ≤ length
  apart : edits.Pairwise fun a b => (a.stop ≤ b.start ∨ b.stop ≤ a.start) ∧ a.start ≠ b.start

/-- How much longer an edit makes the text. -/
def growth (e : TextEdit) : ℤ := e.newText.toList.length - (e.stop - e.start)

/-- An edit moved by the length changes of the edits of `first` that stand before it. -/
def shifted (first : List TextEdit) (e : TextEdit) : TextEdit :=
  let by_ := ((first.filter fun f => f.start < e.start).map growth).sum
  { e with start := e.start + by_, stop := e.stop + by_ }

/-! ## Splicing -/

theorem copyRun_append (pre run rest : List Char) :
    copyRun (pre ++ run ++ rest) run.length pre.length = some run := by
  induction run generalizing pre with
  | nil => rfl
  | cons c run ih =>
    have next := ih (pre ++ [c])
    simp only [List.append_assoc, List.cons_append, List.nil_append, List.length_append, List.length_singleton,
      Nat.cast_add, Nat.cast_one] at next
    simp [copyRun, next]

theorem copyUntil_append {cursor : ℕ} {pre kept : List Char} (behind : cursor ≤ pre.length) (rest : List Char) :
    copyUntil (pre ++ kept ++ rest) cursor (pre.length + kept.length) = some (pre.drop cursor ++ kept) := by
  have run := copyRun_append (pre.take cursor) (pre.drop cursor ++ kept) rest
  have count : ((pre.length + kept.length : ℤ) - cursor).toNat = (pre.drop cursor ++ kept).length := by
    simp only [List.length_append, List.length_drop]
    omega
  rw [← List.append_assoc, List.take_append_drop, List.length_take, Nat.min_eq_left behind] at run
  rw [copyUntil, count, run]

/-- Splicing the selected cuts from a cursor that has not passed the text in front of them. -/
theorem splice_cuts (chosen : Bool → Bool) (cuts : List Cut) (pre tail : List Char) {cursor : ℕ}
    (behind : cursor ≤ pre.length) :
    splice (pre ++ textOf (fun _ => false) cuts ++ tail) cursor (editsOf chosen pre.length cuts) =
      some (pre.drop cursor ++ textOf chosen cuts ++ tail) := by
  induction cuts generalizing pre cursor with
  | nil =>
    have copied := @copyUntil_append cursor pre tail behind []
    simp only [List.append_nil] at copied
    simp [editsOf, splice, textOf, copied]
  | cons c cuts ih =>
    have regroup : pre ++ textOf (fun _ => false) (c :: cuts) ++ tail =
        (pre ++ c.kept ++ c.removed) ++ textOf (fun _ => false) cuts ++ tail := by
      simp
    have length : ((pre ++ c.kept ++ c.removed).length : ℤ) = pre.length + c.kept.length + c.removed.length := by
      simp
      omega
    rw [editsOf, regroup]
    split
    next taken =>
      have after := @ih (pre ++ c.kept ++ c.removed) (pre ++ c.kept ++ c.removed).length le_rfl
      have before := @copyUntil_append cursor pre c.kept behind (c.removed ++ textOf (fun _ => false) cuts ++ tail)
      rw [List.drop_length, length] at after
      simp only [List.append_assoc] at after before ⊢
      simp [splice, after, before, taken]
    next left =>
      have after := @ih (pre ++ c.kept ++ c.removed) cursor (by simp; omega)
      rw [length] at after
      rw [after]
      simp [left, List.drop_append_of_le_length behind]

/-- Edits that can be listed in ascending order are applied in that order. -/
theorem applyEdits_ascending {source : String} {edits ascending : List TextEdit} {out : List Char}
    (perm : ascending.Perm edits) (strict : ascending.Pairwise fun a b => a.start < b.start)
    (run : splice source.toList 0 ascending = some out) : applyEdits source edits = some (String.ofList out) := by
  rw [applyEdits]
  split
  next none_ =>
    rw [List.length_eq_zero_iff.mp none_] at perm
    rw [perm.eq_nil] at run
    have whole := @copyUntil_append 0 [] source.toList (Nat.zero_le _) []
    simp only [List.nil_append, List.append_nil, List.length_nil, List.drop_nil, Nat.cast_zero, zero_add] at whole
    rw [splice, whole] at run
    rw [← Option.some.inj run, String.ofList_toList]
  next =>
    obtain ⟨ordered, s, sorts, same, -, sorted⟩ :=
      @widthLoop_sorts _ _ (fun a b : TextEdit => pure (decide (a.start < b.start))) edits () edits.length 1
        (edits.length + 1) rfl Nat.one_pos (by omega)
    have weak : StrictWeak fun a b : TextEdit => decide (a.start < b.start) :=
      ⟨by simp, by simp; omega, by simp; omega⟩
    have upward := (sorted _ weak (fun _ _ _ => rfl) (runs_one _ edits)).1
    have distinct : ordered.Pairwise fun a b => a.start ≠ b.start :=
      (perm.trans same.symm).pairwise (strict.imp fun less => ne_of_lt less) fun differ => differ.symm
    have equal : ascending = ordered := by
      refine (perm.trans same.symm).eq_of_pairwise (fun a b _ _ ab ba => absurd ab (lt_asymm ba)) strict ?_
      refine (upward.and distinct).imp fun both => ?_
      have notLess := of_decide_eq_false both.1
      have differ := both.2
      omega
    rw [show Sdk.sortedBy (fun a b : TextEdit => pure (decide (a.start < b.start))) edits () = some (ordered, s) from sorts]
    simp [← equal, run]

/-! ## Cutting the source -/

theorem Applicable.perm {length : ℕ} {edits others : List TextEdit} (applicable : Applicable length edits)
    (perm : edits.Perm others) : Applicable length others := by
  refine ⟨fun e member => applicable.inside e (perm.mem_iff.mpr member), perm.pairwise applicable.apart ?_⟩
  intro a b both
  exact ⟨both.1.symm, both.2.symm⟩

/-- Edits that can be applied have an ascending order in which each ends before the next starts. -/
theorem Applicable.ascending {length : ℕ} {edits : List TextEdit} (applicable : Applicable length edits) :
    ∃ ascending : List TextEdit, ascending.Perm edits ∧
      ascending.Pairwise (fun a b => a.start < b.start ∧ a.stop ≤ b.start) := by
  let order := fun a b : TextEdit => decide (a.start ≤ b.start)
  have sorted : (edits.mergeSort order).Pairwise fun a b => order a b = true :=
    List.pairwise_mergeSort (by simp [order]; omega) (by simp [order]; omega) edits
  have perm := List.mergeSort_perm edits order
  have same := applicable.perm perm.symm
  refine ⟨_, perm, (sorted.and same.apart).imp_of_mem fun {a b} left right both => ?_⟩
  have upward := of_decide_eq_true both.1
  have wide := same.inside b right
  have apart := both.2
  omega

/-- Ascending edits inside the rest of a text are the edits of cuts of it, each batch taking its own. -/
theorem cuts_of_ascending (early : TextEdit → Bool) {edits : List TextEdit} {offset : ℤ} {rest : List Char}
    (ascending : edits.Pairwise fun a b => a.start < b.start ∧ a.stop ≤ b.start)
    (inside : ∀ e ∈ edits, offset ≤ e.start ∧ e.start ≤ e.stop ∧ e.stop ≤ offset + rest.length) :
    ∃ cuts tail, rest = textOf (fun _ => false) cuts ++ tail ∧
      ∀ chosen, editsOf chosen offset cuts = edits.filter fun e => chosen (early e) := by
  induction edits generalizing offset rest with
  | nil => exact ⟨[], rest, rfl, fun _ => rfl⟩
  | cons e edits ih =>
    obtain ⟨first, ascending⟩ := List.pairwise_cons.mp ascending
    have here := inside e List.mem_cons_self
    let kept := rest.take (e.start - offset).toNat
    let removed := (rest.drop (e.start - offset).toNat).take (e.stop - e.start).toNat
    let behind := (rest.drop (e.start - offset).toNat).drop (e.stop - e.start).toNat
    have keptLength : offset + kept.length = e.start := by
      simp only [kept, List.length_take]
      omega
    have removedLength : e.start + removed.length = e.stop := by
      simp only [removed, List.length_take, List.length_drop]
      omega
    have whole : rest = kept ++ (removed ++ behind) := by simp only [kept, removed, behind, List.take_append_drop]
    obtain ⟨cuts, tail, same, selected⟩ := @ih e.stop behind ascending fun f member => by
      have later := (first f member).2
      have range := inside f (List.mem_cons_of_mem e member)
      have total := congrArg List.length whole
      simp only [List.length_append] at total
      omega
    refine ⟨⟨kept, removed, e.newText.toList, early e⟩ :: cuts, tail, ?_, fun chosen => ?_⟩
    · rw [whole, same]
      simp
    · simp only [editsOf, keptLength, removedLength, String.ofList_toList, selected, List.filter_cons]

/-! ## Two batches -/

/-- The cuts of the text in which the early batch has been applied. -/
def committed (cuts : List Cut) : List Cut := cuts.map fun c => if c.early then { c with removed := c.text } else c

theorem textOf_committed (chosen : Bool → Bool) (cuts : List Cut) :
    textOf chosen (committed cuts) = textOf (fun early => early || chosen early) cuts := by
  induction cuts with
  | nil => rfl
  | cons c cuts ih =>
    rw [committed, List.map_cons, textOf_cons, textOf_cons, ← committed, ih]
    cases batch : c.early <;> simp [batch]

theorem editsOf_sublist (chosen : Bool → Bool) (offset : ℤ) (cuts : List Cut) :
    (editsOf chosen offset cuts).Sublist (editsOf (fun _ => true) offset cuts) := by
  induction cuts generalizing offset with
  | nil => exact .slnil
  | cons c cuts ih =>
    rw [editsOf, editsOf, if_pos rfl]
    split
    next => exact (ih _).cons_cons _
    next => exact (ih _).cons _

theorem le_start {chosen : Bool → Bool} {offset : ℤ} {cuts : List Cut} :
    ∀ e ∈ editsOf chosen offset cuts, offset + ((cuts.head?.map (·.kept.length)).getD 0 : ℕ) ≤ e.start := by
  induction cuts generalizing offset with
  | nil => simp [editsOf]
  | cons c cuts ih =>
    intro e member
    have later := @ih (offset + c.kept.length + c.removed.length)
    rw [editsOf] at member
    simp only [List.head?_cons, Option.map_some, Option.getD_some]
    split at member
    next =>
      rcases List.mem_cons.mp member with rfl | member
      · exact le_rfl
      · have := later e member
        omega
    next =>
      have := later e member
      omega

/-- The late edits keep their order when the early batch is applied. -/
theorem committed_ascending {offset offset' : ℤ} {cuts : List Cut}
    (strict : (editsOf (fun _ => true) offset cuts).Pairwise fun a b => a.start < b.start) :
    (editsOf not offset' (committed cuts)).Pairwise fun a b => a.start < b.start := by
  induction cuts generalizing offset offset' with
  | nil => exact .nil
  | cons c cuts ih =>
    simp only [editsOf, if_true] at strict
    obtain ⟨first, strict⟩ := List.pairwise_cons.mp strict
    rw [committed, List.map_cons, ← committed]
    cases batch : c.early with
    | true => simpa [editsOf, batch] using ih strict
    | false =>
      simp only [editsOf, batch, Bool.false_eq_true, if_false, Bool.not_false, if_true]
      refine List.pairwise_cons.mpr ⟨fun e member => ?_, ih strict⟩
      -- an insertion is followed by a character that stays
      have later := le_start e member
      cases cuts with
      | nil => cases member
      | cons d cuts =>
        have next := first _ (by rw [editsOf, if_pos rfl]; exact List.mem_cons_self)
        have head : (((committed (d :: cuts)).head?.map (·.kept.length)).getD 0 : ℕ) = d.kept.length := by
          cases h : d.early <;> simp [committed, h]
        rw [head] at later
        simp only at next ⊢
        omega

/-- Applying the early batch shifts each late edit by the growth of the early edits before it. -/
theorem editsOf_committed {done : List TextEdit} {offset : ℤ} {cuts : List Cut}
    (strict : (editsOf (fun _ => true) offset cuts).Pairwise fun a b => a.start < b.start)
    (before : ∀ f ∈ done, ∀ e ∈ editsOf (fun _ => true) offset cuts, f.start < e.start) :
    editsOf not (offset + (done.map growth).sum) (committed cuts) =
      (editsOf not offset cuts).map (shifted (done ++ editsOf id offset cuts)) := by
  induction cuts generalizing done offset with
  | nil => rfl
  | cons c cuts ih =>
    simp only [editsOf, if_true] at strict before
    obtain ⟨first, strict⟩ := List.pairwise_cons.mp strict
    rw [committed, List.map_cons, ← committed]
    cases batch : c.early with
    | true =>
      -- the early edit joins those done
      let e : TextEdit := ⟨offset + c.kept.length, offset + c.kept.length + c.removed.length, String.ofList c.text⟩
      have next := @ih (done ++ [e]) _ strict fun f member g later => by
        rcases List.mem_append.mp member with member | member
        · exact before f member g (List.mem_cons_of_mem _ later)
        · rw [List.mem_singleton.mp member]
          exact first g later
      have moved : offset + c.kept.length + c.removed.length + ((done ++ [e]).map growth).sum =
          offset + (done.map growth).sum + c.kept.length + c.text.length := by
        simp [growth, e]
        omega
      rw [moved, List.append_assoc] at next
      simpa [editsOf, batch] using next
    | false =>
      have next := @ih done _ strict fun f member g later => before f member g (List.mem_cons_of_mem _ later)
      have passed : ((done ++ editsOf id (offset + c.kept.length + c.removed.length) cuts).filter fun f =>
          f.start < offset + c.kept.length) = done := by
        rw [List.filter_append, List.filter_eq_self.mpr, List.filter_eq_nil_iff.mpr, List.append_nil]
        · intro f member
          have later := first f ((editsOf_sublist id _ cuts).subset member)
          simp only [decide_eq_true_eq] at later ⊢
          omega
        · intro f member
          exact decide_eq_true (before f member _ List.mem_cons_self)
      have head : offset + (done.map growth).sum + c.kept.length = offset + c.kept.length + (done.map growth).sum := by
        omega
      have behind : offset + c.kept.length + (done.map growth).sum + c.removed.length =
          offset + c.kept.length + c.removed.length + (done.map growth).sum := by omega
      simp only [editsOf, batch, Bool.false_eq_true, if_false, Bool.not_false, if_true, id, List.map_cons, head, behind,
        next, shifted, passed]

/-! ## The result -/

theorem shifted_perm {first others : List TextEdit} (perm : first.Perm others) : shifted first = shifted others := by
  funext e
  have sums := ((perm.filter fun f => f.start < e.start).map growth).sum_eq
  simp only [shifted, sums]

theorem perm_parts {edits first second : List TextEdit} (perm : edits.Perm (first ++ second))
    (distinct : edits.Nodup) :
    (edits.filter fun e => decide (e ∈ first)).Perm first ∧
      (edits.filter fun e => !decide (e ∈ first)).Perm second := by
  have apart : first.Disjoint second := (List.nodup_append'.mp (perm.nodup_iff.mp distinct)).2.2
  constructor
  · refine (perm.filter _).trans (List.Perm.of_eq ?_)
    rw [List.filter_append, List.filter_eq_self.mpr (by simp), List.filter_eq_nil_iff.mpr, List.append_nil]
    intro e member
    simpa using fun early => apart early member
  · refine (perm.filter _).trans (List.Perm.of_eq ?_)
    rw [List.filter_append, List.filter_eq_nil_iff.mpr (by simp), List.filter_eq_self.mpr, List.nil_append]
    intro e member
    simpa using fun early => apart early member

/-- Edits whose ranges do not overlap and start at different places are applied at once, in whatever order they are listed; applying
one part and then the other, moved by the growth of the first part's edits before it, gives the same text. -/
theorem edits_apply_at_once (source : String) {edits first second : List TextEdit}
    (applicable : Applicable source.toList.length edits) (parts : edits.Perm (first ++ second)) :
    ∃ result, applyEdits source edits = some result ∧ Replaced source edits result ∧
      ∃ middle, applyEdits source first = some middle ∧
        applyEdits middle (second.map (shifted first)) = some result := by
  obtain ⟨ascending, perm, upward⟩ := applicable.ascending
  obtain ⟨cuts, tail, same, selected⟩ := @cuts_of_ascending (fun e => decide (e ∈ first)) ascending 0 source.toList
    upward fun e member => by
      have range := applicable.inside e (perm.mem_iff.mp member)
      omega
  have strict := upward.imp fun both => both.1
  have distinct : ascending.Nodup := by
    refine strict.imp ?_
    rintro a b less rfl
    exact lt_irrefl _ less
  obtain ⟨early, late⟩ := perm_parts (perm.trans parts) distinct
  have all : editsOf (fun _ => true) 0 cuts = ascending := by rw [selected, List.filter_eq_self.mpr (by simp)]
  have one := fun chosen => @splice_cuts chosen cuts [] tail 0 (Nat.zero_le _)
  have two := @splice_cuts not (committed cuts) [] tail 0 (Nat.zero_le _)
  simp only [List.nil_append, List.drop_nil, List.length_nil, Nat.cast_zero, ← same] at one two
  rw [← all] at strict perm
  replace early : (editsOf id 0 cuts).Perm first := selected id ▸ early
  replace late : (editsOf not 0 cuts).Perm second := selected not ▸ late
  have moved := @editsOf_committed [] 0 cuts strict (by simp)
  have middle := applyEdits_ascending early (strict.sublist (editsOf_sublist id 0 cuts)) (one id)
  refine ⟨_, applyEdits_ascending perm strict (one fun _ => true), ⟨cuts, tail, same, perm.symm, String.toList_ofList⟩, _,
    middle, applyEdits_ascending ?_ (@committed_ascending 0 0 cuts strict) ?_⟩
  · rw [List.map_nil, List.sum_nil, add_zero, List.nil_append] at moved
    rw [moved, shifted_perm early]
    exact late.map _
  · rw [textOf_committed, textOf_committed] at two
    simp only [Bool.or_false, Bool.or_not_self] at two
    rw [String.toList_ofList]
    exact two

theorem edits_apply_at_once_abcd :
    ∃ result, applyEdits "abcd" [⟨3, 4, "DE"⟩, ⟨0, 2, ""⟩] = some result ∧
      Replaced "abcd" [⟨3, 4, "DE"⟩, ⟨0, 2, ""⟩] result ∧
      ∃ middle, applyEdits "abcd" [⟨0, 2, ""⟩] = some middle ∧
        applyEdits middle ([⟨3, 4, "DE"⟩].map (shifted [⟨0, 2, ""⟩])) = some result :=
  edits_apply_at_once "abcd" ⟨by decide, by decide⟩ (List.Perm.swap ..)

end Thera.Soundness
