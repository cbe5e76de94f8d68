import Mathlib

/-! # Worklist tracing over a mark bitmap

Tracing marks everything the roots reach in a graph whose nodes are positions of a bitmap. A node is
marked when it is first seen and put on a worklist; the loop takes a node off and marks its
successors. Marking a position outside the bitmap fails. The loop is driven by fuel, and `trace_exact`
says that one turn per position is enough and that the marks are exactly the reachable nodes.
-/

namespace Tracing

/-- The marks made so far and the nodes whose successors are still to be marked. -/
structure State where
  marked : List Bool
  work : List ℕ

/-- Mark a node and enqueue it, unless it is marked already. -/
def mark (state : State) (node : ℕ) : Option State :=
  match state.marked[node]? with
  | some false => some ⟨state.marked.set node true, node :: state.work⟩
  | some true => some state
  | none => none

def markAll (state : State) (nodes : List ℕ) : Option State := nodes.foldlM mark state

/-- Take nodes off the worklist until it is empty. -/
def drain (next : ℕ → List ℕ) : ℕ → State → Option (List Bool)
  | _, ⟨marked, []⟩ => some marked
  | 0, ⟨_, _ :: _⟩ => none
  | fuel + 1, ⟨marked, node :: work⟩ => do
      let state ← markAll ⟨marked, work⟩ (next node)
      drain next fuel state

def trace (next : ℕ → List ℕ) (size : ℕ) (roots : List ℕ) : Option (List Bool) := do
  let state ← markAll ⟨List.replicate size false, []⟩ roots
  drain next size state

/-- Reachability from the roots along `next`. -/
inductive Reaches (next : ℕ → List ℕ) (roots : List ℕ) : ℕ → Prop
  | root {node : ℕ} (member : node ∈ roots) : Reaches next roots node
  | step {node child : ℕ} (from_ : Reaches next roots node) (edge : child ∈ next node) : Reaches next roots child

variable {next : ℕ → List ℕ} {roots : List ℕ}

/-- What marking a list of nodes does to the bitmap, the worklist and the remaining work. -/
structure Marks (before : State) (nodes : List ℕ) (after : State) : Prop where
  length : after.marked.length = before.marked.length
  marked : ∀ k, after.marked[k]? = some true ↔ before.marked[k]? = some true ∨ k ∈ nodes
  work : ∀ k, k ∈ after.work ↔ k ∈ before.work ∨ (k ∈ nodes ∧ before.marked[k]? ≠ some true)
  budget : after.marked.count false + after.work.length = before.marked.count false + before.work.length

private theorem getElem?_set_true {marked : List Bool} {node k : ℕ} (bound : node < marked.length) :
    (marked.set node true)[k]? = some true ↔ marked[k]? = some true ∨ k = node := by
  rw [List.getElem?_set]
  by_cases same : node = k
  · subst same
    simp [bound]
  · simp [same, Ne.symm same]

private theorem count_set_true {marked : List Bool} {node : ℕ} (unmarked : marked[node]? = some false) :
    (marked.set node true).count false + 1 = marked.count false := by
  obtain ⟨bound, here⟩ := List.getElem?_eq_some_iff.mp unmarked
  have some := List.count_pos_iff.mpr (List.mem_of_getElem? unmarked)
  rw [List.count_set bound, here]
  exact Nat.sub_add_cancel some

theorem mark_marks {before : State} {node : ℕ} (inside : node < before.marked.length) :
    ∃ after, mark before node = some after ∧ Marks before [node] after := by
  cases seen : before.marked[node]? with
  | none => exact absurd (List.getElem?_eq_none_iff.mp seen) (by omega)
  | some flag =>
    cases flag with
    | true =>
      refine ⟨before, by rw [mark, seen], rfl, fun k => ?_, fun k => ?_, rfl⟩
      · rw [List.mem_singleton]
        exact ⟨.inl, fun either => either.elim id fun same => same ▸ seen⟩
      · rw [List.mem_singleton]
        exact ⟨.inl, fun either => either.elim id fun ⟨same, fresh⟩ => absurd (same ▸ seen) fresh⟩
    | false =>
      refine ⟨⟨before.marked.set node true, node :: before.work⟩, by rw [mark, seen], List.length_set,
        fun k => ?_, fun k => ?_, ?_⟩
      · rw [getElem?_set_true inside, List.mem_singleton]
      · rw [List.mem_cons, List.mem_singleton, or_comm]
        refine or_congr_right ⟨fun same => ⟨same, ?_⟩, And.left⟩
        rw [same, seen]
        simp
      · have spent := count_set_true seen
        change (before.marked.set node true).count false + (before.work.length + 1) = _
        omega

theorem markAll_marks {before : State} {nodes : List ℕ} (inside : ∀ node ∈ nodes, node < before.marked.length) :
    ∃ after, markAll before nodes = some after ∧ Marks before nodes after := by
  induction nodes generalizing before with
  | nil => exact ⟨before, rfl, rfl, by simp, by simp, rfl⟩
  | cons node nodes ih =>
    obtain ⟨middle, first, head⟩ := mark_marks (inside node (List.mem_cons_self ..))
    obtain ⟨after, rest, tail⟩ : ∃ after, markAll middle nodes = some after ∧ Marks middle nodes after :=
      ih fun other member => head.length ▸ inside other (List.mem_cons_of_mem _ member)
    refine ⟨after, by rw [markAll, List.foldlM_cons, first]; exact rest, tail.length.trans head.length,
      fun k => ?_, fun k => ?_, tail.budget.trans head.budget⟩
    · rw [tail.marked, head.marked, List.mem_singleton, List.mem_cons, or_assoc]
    · have seen := head.marked k
      rw [List.mem_singleton] at seen
      rw [tail.work, head.work, List.mem_singleton, List.mem_cons]
      grind

/-- The loop invariant: marked nodes are reachable, the roots are marked, and a marked node that has
left the worklist has only marked successors. -/
structure Progress (next : ℕ → List ℕ) (roots : List ℕ) (fuel : ℕ) (state : State) : Prop where
  sound : ∀ k, state.marked[k]? = some true → Reaches next roots k
  rooted : ∀ k ∈ roots, state.marked[k]? = some true
  grey : ∀ k ∈ state.work, state.marked[k]? = some true
  black : ∀ k, state.marked[k]? = some true → k ∈ state.work ∨ ∀ child ∈ next k, state.marked[child]? = some true
  budget : state.marked.count false + state.work.length ≤ fuel

/-- An empty worklist leaves the marks closed under `next`, hence exact. -/
theorem Progress.exact {fuel : ℕ} {marked : List Bool} (progress : Progress next roots fuel ⟨marked, []⟩) (k : ℕ) :
    marked[k]? = some true ↔ Reaches next roots k := by
  refine ⟨progress.sound k, fun reached => ?_⟩
  induction reached with
  | root member => exact progress.rooted _ member
  | step _ edge ih =>
    rcases progress.black _ ih with pending | closed
    · exact absurd pending List.not_mem_nil
    · exact closed _ edge

/-- One turn of the loop keeps the invariant and spends one unit of fuel. -/
theorem Progress.turn {fuel node : ℕ} {marked : List Bool} {work : List ℕ} {after : State}
    (progress : Progress next roots (fuel + 1) ⟨marked, node :: work⟩)
    (marks : Marks ⟨marked, work⟩ (next node) after) : Progress next roots fuel after where
  sound k seen := by
    rcases (marks.marked k).mp seen with old | child
    · exact progress.sound k old
    · exact .step (progress.sound node (progress.grey node (List.mem_cons_self ..))) child
  rooted k member := (marks.marked k).mpr (.inl (progress.rooted k member))
  grey k member := by
    rcases (marks.work k).mp member with old | ⟨child, -⟩
    · exact (marks.marked k).mpr (.inl (progress.grey k (List.mem_cons_of_mem _ old)))
    · exact (marks.marked k).mpr (.inr child)
  black k seen := by
    by_cases fresh : marked[k]? = some true
    · rcases progress.black k fresh with pending | closed
      · rcases List.mem_cons.mp pending with rfl | later
        · exact .inr fun child edge => (marks.marked child).mpr (.inr edge)
        · exact .inl ((marks.work k).mpr (.inl later))
      · exact .inr fun child edge => (marks.marked child).mpr (.inl (closed child edge))
    · have child := ((marks.marked k).mp seen).resolve_left fresh
      exact .inl ((marks.work k).mpr (.inr ⟨child, fresh⟩))
  budget := by
    have before := progress.budget
    have kept := marks.budget
    change marked.count false + (work.length + 1) ≤ fuel + 1 at before
    change _ = marked.count false + work.length at kept
    omega

theorem drain_exact {fuel : ℕ} {state : State} (progress : Progress next roots fuel state)
    (inside : ∀ k, Reaches next roots k → k < state.marked.length) :
    ∃ marked, drain next fuel state = some marked ∧ marked.length = state.marked.length ∧
      ∀ k, marked[k]? = some true ↔ Reaches next roots k := by
  induction fuel generalizing state with
  | zero =>
    obtain ⟨marked, work⟩ := state
    obtain rfl : work = [] := List.eq_nil_of_length_eq_zero (Nat.le_zero.mp (Nat.le_trans (Nat.le_add_left ..) progress.budget))
    exact ⟨marked, rfl, rfl, progress.exact⟩
  | succ fuel ih =>
    obtain ⟨marked, work⟩ := state
    cases work with
    | nil => exact ⟨marked, rfl, rfl, progress.exact⟩
    | cons node work =>
      have reached := progress.sound node (progress.grey node (List.mem_cons_self ..))
      obtain ⟨after, turned, marks⟩ : ∃ after, markAll ⟨marked, work⟩ (next node) = some after ∧ Marks _ _ after :=
        markAll_marks fun child edge => inside child (.step reached edge)
      obtain ⟨final, drained, length, exact⟩ := ih (progress.turn marks) fun k reaches => by
        rw [marks.length]
        exact inside k reaches
      refine ⟨final, ?_, length.trans marks.length, exact⟩
      rw [drain, turned]
      exact drained

/-- Tracing a graph whose reachable nodes all have a mark bit marks exactly those. -/
theorem trace_exact {size : ℕ} (inside : ∀ k, Reaches next roots k → k < size) :
    ∃ marked, trace next size roots = some marked ∧ marked.length = size ∧
      ∀ k, marked[k]? = some true ↔ Reaches next roots k := by
  have blank (k : ℕ) : (List.replicate size false)[k]? ≠ some true := by
    rw [List.getElem?_replicate]
    split <;> simp
  obtain ⟨state, seeded, marks⟩ : ∃ after, markAll ⟨List.replicate size false, []⟩ roots = some after ∧
      Marks ⟨List.replicate size false, []⟩ roots after :=
    markAll_marks fun root member => by
      rw [List.length_replicate]
      exact inside root (.root member)
  have length : state.marked.length = size := marks.length.trans List.length_replicate
  have progress : Progress next roots size state := by
    refine ⟨fun k seen => ?_, fun k member => (marks.marked k).mpr (.inr member), fun k member => ?_,
      fun k seen => ?_, ?_⟩
    · exact .root (((marks.marked k).mp seen).resolve_left (blank k))
    · exact (marks.marked k).mpr (((marks.work k).mp member).imp (fun old => absurd old List.not_mem_nil) And.left)
    · exact .inl ((marks.work k).mpr (.inr ⟨((marks.marked k).mp seen).resolve_left (blank k), blank k⟩))
    · have kept := marks.budget
      simp only [List.count_replicate_self, List.length_nil] at kept
      omega
  obtain ⟨marked, drained, kept, exact⟩ := drain_exact progress fun k reaches => length.symm ▸ inside k reaches
  refine ⟨marked, ?_, kept.trans length, exact⟩
  rw [trace, seeded]
  exact drained

end Tracing
