import Mathlib

/-! # Depth-first exploration

From a list of roots, every node is visited once, before the nodes it leads to. With more fuel than there are nodes
left to visit, what has been visited in the end is what was visited before and what can be reached from the roots.
-/

namespace Exploring

variable {α : Type*} (next : α → List α)

/-- The nodes visited after a node, given those visited before. -/
def explore [DecidableEq α] : ℕ → List α → α → Option (List α)
  | 0, _, _ => none
  | fuel + 1, seen, node => if node ∈ seen then some seen else (next node).foldlM (explore fuel) (seen ++ [node])

/-- What an exploration from the roots visits. -/
structure Explored (roots seen found : List α) : Prop where
  kept : seen ⊆ found
  nodup : found.Nodup
  rooted : roots ⊆ found
  reached : ∀ node ∈ found, node ∈ seen ∨ ∃ root ∈ roots, Relation.ReflTransGen (fun a b => b ∈ next a) root node
  closed : ∀ node ∈ found, node ∈ seen ∨ next node ⊆ found

variable {next} {node : α} {roots seen found found' : List α}

/-- A new root is visited with all it leads to, then the other roots. -/
theorem Explored.visit (inner : Explored next (next node) (seen ++ [node]) found)
    (others : Explored next roots found found') : Explored next (node :: roots) seen found' where
  kept := fun _ old => others.kept (inner.kept (List.mem_append_left _ old))
  nodup := others.nodup
  rooted := List.cons_subset.mpr ⟨others.kept (inner.kept (by simp)), others.rooted⟩
  reached other member := by
    rcases others.reached other member with early | ⟨root, there, reaches⟩
    · rcases inner.reached other early with before | ⟨child, there, reaches⟩
      · rcases List.mem_append.mp before with old | new
        · exact .inl old
        · exact .inr ⟨node, List.mem_cons_self, List.mem_singleton.mp new ▸ .refl⟩
      · exact .inr ⟨node, List.mem_cons_self, .head there reaches⟩
    · exact .inr ⟨root, List.mem_cons_of_mem _ there, reaches⟩
  closed other member := by
    rcases others.closed other member with early | all
    · rcases inner.closed other early with before | all
      · rcases List.mem_append.mp before with old | new
        · exact .inl old
        · exact .inr (List.mem_singleton.mp new ▸ List.Subset.trans inner.rooted others.kept)
      · exact .inr (List.Subset.trans all others.kept)
    · exact .inr all

variable [DecidableEq α] [Fintype α]

/-- The exploration ends. -/
theorem explores (next : α → List α) (fuel : ℕ) (roots seen : List α) (nodup : seen.Nodup)
    (enough : Fintype.card α < seen.length + fuel) :
    ∃ found, roots.foldlM (explore next fuel) seen = some found ∧ Explored next roots seen found := by
  induction fuel generalizing roots seen with
  | zero => exact absurd nodup.length_le_card (by omega)
  | succ fuel ih =>
    induction roots generalizing seen with
    | nil => exact ⟨seen, rfl, List.Subset.refl _, nodup, List.nil_subset _, fun _ => .inl, fun _ => .inl⟩
    | cons node roots others =>
      rw [List.foldlM_cons, explore]
      by_cases known : node ∈ seen
      · obtain ⟨found, run, explored⟩ := others seen nodup enough
        rw [if_pos known]
        refine ⟨found, run, explored.kept, explored.nodup, ?_, fun other member => ?_, explored.closed⟩
        · exact List.cons_subset.mpr ⟨explored.kept known, explored.rooted⟩
        · exact (explored.reached other member).imp_right (Exists.imp fun root => And.imp_left (List.mem_cons_of_mem _))
      · have longer : (seen ++ [node]).length = seen.length + 1 := List.length_append
        have nodup : (seen ++ [node]).Nodup := List.concat_eq_append ▸ nodup.concat known
        obtain ⟨found, first, inner⟩ := ih (next node) (seen ++ [node]) nodup (by omega)
        have grown := (List.subperm_of_subset nodup inner.kept).length_le
        obtain ⟨found', second, rest⟩ := others found inner.nodup (by omega)
        rw [if_neg known]
        exact ⟨found', Option.bind_eq_some_iff.mpr ⟨found, first, second⟩, inner.visit rest⟩

/-- From nothing, exactly what can be reached is found. -/
theorem explores_reachable (next : α → List α) (root : α) :
    ∃ found, explore next (Fintype.card α + 1) [] root = some found ∧ found.Nodup ∧
      ∀ node, node ∈ found ↔ Relation.ReflTransGen (fun a b => b ∈ next a) root node := by
  obtain ⟨found, run, explored⟩ := explores next (Fintype.card α + 1) [root] [] List.nodup_nil (by simp)
  refine ⟨found, by simpa using run, explored.nodup, fun node => ⟨fun member => ?_, fun reaches => ?_⟩⟩
  · simpa using explored.reached node member
  · induction reaches with
    | refl => exact explored.rooted List.mem_cons_self
    | tail _ step ih => exact (explored.closed _ ih).resolve_left List.not_mem_nil step

end Exploring
