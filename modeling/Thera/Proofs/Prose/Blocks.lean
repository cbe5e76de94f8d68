import Thera.Model.Prose.Blocks

/-! # Segmentation

Segmentation loses no line, and the lines of a paragraph are exactly those that open nothing.
-/

namespace Thera.Prose

open Sdk

/-- A line of a paragraph: not empty, and no lead. -/
def Plain (line : Text) : Prop := line ≠ [] ∧ isBlockLead line = false

theorem wantedKind_eq_prose {line : Text} : wantedKind line = .prose ↔ Plain line := by
  unfold wantedKind Plain
  split
  next empty => simp [empty]
  next nonempty =>
    cases isBlockLead line with
    | true => simp
    | false => simpa using nonempty

theorem Plain.fenceLen_lt {line : Text} (plain : Plain line) : fenceLen line < 3 := by
  obtain ⟨nonempty, noLead⟩ := plain
  by_contra long
  obtain ⟨c, rest, rfl⟩ := List.exists_cons_of_ne_nil nonempty
  rw [isBlockLead, if_pos (not_lt.mp long)] at noLead
  cases noLead

/-- What segmentation has made of the lines before it. -/
structure Segmenting.Covers (s : Segmenting) (before : List Text) : Prop where
  lines : s.out.flatMap Block.lines ++ s.cur = before
  blocks : ∀ b ∈ s.out, b.lines ≠ [] ∧ (b.kind = .prose → ∀ line ∈ b.lines, Plain line)
  current : s.kind = .prose → ∀ line ∈ s.cur, Plain line
  fence : s.fenceOpen > 0 → s.kind = .verbatim

section

variable {s : Segmenting} {before : List Text}

theorem Segmenting.Covers.push (covers : s.Covers before) {b : Block} {before' : List Text}
    (lines : s.out.flatMap Block.lines ++ b.lines = before') (nonempty : b.lines ≠ [])
    (plain : b.kind = .prose → ∀ line ∈ b.lines, Plain line) :
    (s.out ++ [b]).flatMap Block.lines = before' ∧
      ∀ c ∈ s.out ++ [b], c.lines ≠ [] ∧ (c.kind = .prose → ∀ line ∈ c.lines, Plain line) := by
  constructor
  · rw [List.flatMap_append, List.flatMap_singleton, lines]
  · intro c member
    obtain old | new := List.mem_append.mp member
    · exact covers.blocks c old
    · rw [List.mem_singleton.mp new]
      exact ⟨nonempty, plain⟩

theorem Segmenting.Covers.flush (covers : s.Covers before) : s.flush.Covers before ∧ s.flush.cur = [] ∧ s.flush.kind = s.kind := by
  unfold Segmenting.flush
  split
  next some =>
    have pushed := covers.push (b := ⟨s.kind, s.cur⟩) covers.lines (List.ne_nil_of_length_pos some) covers.current
    exact ⟨⟨by rw [List.append_nil]; exact pushed.1, pushed.2, fun _ line member => (List.not_mem_nil member).elim, covers.fence⟩, rfl, rfl⟩
  next none => exact ⟨covers, List.eq_nil_of_length_eq_zero (by omega), rfl⟩

theorem Segmenting.Covers.step (covers : s.Covers before) (line : Text) : (s.step line).Covers (before ++ [line]) := by
  have longer : s.out.flatMap Block.lines ++ (s.cur ++ [line]) = before ++ [line] := by rw [← List.append_assoc, covers.lines]
  unfold Segmenting.step
  split
  next inFence =>
    -- Inside a fence: the kind is that of the fence.
    have verbatim := covers.fence inFence
    have notProse {P : Prop} (prose : s.kind = .prose) : P := by
      rw [verbatim] at prose
      cases prose
    split
    · have pushed := covers.push (b := ⟨.verbatim, s.cur ++ [line]⟩) longer (by simp) nofun
      exact ⟨by rw [List.append_nil]; exact pushed.1, pushed.2, notProse, fun open' => absurd open' (Nat.lt_irrefl 0)⟩
    · exact ⟨longer, covers.blocks, notProse, covers.fence⟩
  next outside =>
    obtain ⟨flushed, empty, kind⟩ := covers.flush
    have flushed_lines : s.flush.out.flatMap Block.lines ++ [line] = before ++ [line] := by
      rw [← flushed.lines, empty, List.append_nil]
    have noFence : s.flush.fenceOpen = s.fenceOpen := by
      unfold Segmenting.flush
      split <;> rfl
    split
    · exact ⟨flushed_lines, flushed.blocks, nofun, fun _ => rfl⟩
    · dsimp only
      split
      next same =>
        refine ⟨longer, covers.blocks, fun prose l member => ?_, fun opened => absurd opened outside⟩
        obtain old | new := List.mem_append.mp member
        · exact covers.current (same.2.1.trans prose) l old
        · rw [List.mem_singleton.mp new]
          exact wantedKind_eq_prose.mp prose
      next =>
        rw [empty, List.nil_append]
        refine ⟨flushed_lines, flushed.blocks, fun prose l member => ?_, fun opened => absurd (noFence ▸ opened) outside⟩
        rw [List.mem_singleton.mp member]
        exact wantedKind_eq_prose.mp prose

end

theorem covers_blocksOf (lines : List Text) :
    (blocksOf lines).flatMap Block.lines = lines ∧
      ∀ b ∈ blocksOf lines, b.lines ≠ [] ∧ (b.kind = .prose → ∀ line ∈ b.lines, Plain line) := by
  have run : ∀ (rest : List Text) (s : Segmenting) (before : List Text), s.Covers before →
      (rest.foldl Segmenting.step s).Covers (before ++ rest) := by
    intro rest
    induction rest with
    | nil =>
      intro s before covers
      rwa [List.append_nil]
    | cons line rest ih =>
      intro s before covers
      rw [List.append_cons]
      exact ih _ _ (covers.step line)
  have start : Segmenting.Covers ⟨[], [], .prose, 0⟩ [] :=
    ⟨rfl, fun b member => (List.not_mem_nil member).elim, fun _ line member => (List.not_mem_nil member).elim,
      fun opened => absurd opened (Nat.lt_irrefl 0)⟩
  obtain ⟨covers, empty, _⟩ := (run lines _ _ start).flush
  refine ⟨?_, covers.blocks⟩
  have whole := covers.lines
  rwa [empty, List.append_nil] at whole

/-! ## Paragraphs -/

theorem step_plain {cur : List Text} {line : Text} (plain : Plain line) :
    Segmenting.step ⟨[], cur, .prose, 0⟩ line = ⟨[], cur ++ [line], .prose, 0⟩ := by
  have want := wantedKind_eq_prose.mpr plain
  have short := plain.fenceLen_lt
  unfold Segmenting.step
  rw [if_neg (Nat.lt_irrefl 0), if_neg (by omega)]
  dsimp only
  rw [want]
  cases cur with
  | nil =>
    rw [if_neg (by simp)]
    rfl
  | cons first cur => rw [if_pos ⟨Nat.succ_pos _, rfl, by decide⟩]

theorem blocksOf_plain {lines : List Text} (nonempty : lines ≠ []) (plain : ∀ line ∈ lines, Plain line) :
    blocksOf lines = [⟨.prose, lines⟩] := by
  have run : ∀ (rest cur : List Text), (∀ line ∈ rest, Plain line) →
      rest.foldl Segmenting.step ⟨[], cur, .prose, 0⟩ = ⟨[], cur ++ rest, .prose, 0⟩ := by
    intro rest
    induction rest with
    | nil =>
      intro cur _
      rw [List.append_nil]
      rfl
    | cons line rest ih =>
      intro cur plain
      rw [List.foldl_cons, step_plain (plain line List.mem_cons_self), ih _ fun l member => plain l (List.mem_cons_of_mem line member),
        ← List.append_cons]
  rw [blocksOf, run lines [] plain, Segmenting.flush]
  dsimp only
  rw [List.nil_append, if_pos (List.length_pos_of_ne_nil nonempty)]
  rfl

/-- Lines are one paragraph exactly if there are any and none of them opens anything. -/
theorem one_paragraph_iff {lines : List Text} :
    (∃ b, blocksOf lines = [b] ∧ b.kind = .prose) ↔ lines ≠ [] ∧ ∀ line ∈ lines, Plain line := by
  constructor
  · rintro ⟨b, single, prose⟩
    obtain ⟨whole, blocks⟩ := covers_blocksOf lines
    rw [single, List.flatMap_singleton] at whole
    obtain ⟨nonempty, plain⟩ := blocks b (single ▸ List.mem_singleton_self b)
    rw [← whole]
    exact ⟨nonempty, plain prose⟩
  · rintro ⟨nonempty, plain⟩
    exact ⟨_, blocksOf_plain nonempty plain, rfl⟩

end Thera.Prose
