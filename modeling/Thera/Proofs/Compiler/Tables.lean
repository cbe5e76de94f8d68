import Thera.Model.Compiler.ModuleScope

/-! # Lookups in tables -/

namespace Thera.Compiler.Table

variable {K L V : Type} [DecidableEq K] [DecidableEq L]

theorem get_set (table : Table K V) (key key' : K) (value : V) :
    (table.set key value).get key' = if key = key' then some value else table.get key' :=
  OrderedAssoc.get_insert (fun _ _ => decide_eq_true_iff) table key key' value

@[simp] theorem get_nil (key : K) : Table.get ([] : Table K V) key = none := rfl

/-- What a table of tables holds after one entry was set. -/
theorem getIn_setIn (table : Table K (Table L V)) (row row' : K) (key key' : L) (value : V) :
    (table.setIn row key value).getIn row' key' =
      if row = row' ∧ key = key' then some value else table.getIn row' key' := by
  unfold getIn setIn
  rw [get_set]
  by_cases sameRow : row = row'
  · subst sameRow
    rw [if_pos rfl, Option.bind_eq_bind, Option.bind_some, get_set]
    by_cases sameKey : key = key'
    · rw [if_pos sameKey, if_pos ⟨rfl, sameKey⟩]
    · rw [if_neg sameKey, if_neg fun both => sameKey both.2]
      cases table.get row <;> rfl
  · rw [if_neg sameRow, if_neg fun both => sameRow both.1]

/-- An entry of a table is the one that was set, or an old one. -/
theorem get_set_cases {table : Table K V} {key key' : K} {value found : V}
    (there : (table.set key value).get key' = some found) : found = value ∨ table.get key' = some found := by
  rw [get_set] at there
  split at there
  · exact .inl (Option.some.inj there).symm
  · exact .inr there

theorem getIn_setIn_cases {table : Table K (Table L V)} {row row' : K} {key key' : L} {value found : V}
    (there : (table.setIn row key value).getIn row' key' = some found) :
    found = value ∨ table.getIn row' key' = some found := by
  rw [getIn_setIn] at there
  split at there
  · exact .inl (Option.some.inj there).symm
  · exact .inr there

theorem mem_of_get {table : Table K V} {key : K} {value : V} (found : table.get key = some value) :
    ∃ key', (key', value) ∈ table := by
  obtain ⟨entry, there, rfl⟩ := Option.map_eq_some_iff.mp found
  exact ⟨entry.1, List.mem_of_find?_eq_some there⟩

/-- The values of a table are the one that was set and old ones. -/
theorem mem_set_cases {table : Table K V} {key : K} {value : V} {entry : K × V} (member : entry ∈ table.set key value) :
    entry.2 = value ∨ entry ∈ table := by
  unfold Table.set OrderedAssoc.insert at member
  split at member
  · obtain ⟨i, at_i⟩ := List.mem_iff_getElem?.mp member
    rw [List.getElem?_modify] at at_i
    split at at_i
    · obtain ⟨old, _, rfl⟩ := Option.map_eq_some_iff.mp at_i
      exact .inl rfl
    · exact .inr (List.mem_of_getElem? (by simpa using at_i))
  · rcases List.mem_append.mp member with old | new
    · exact .inr old
    · obtain rfl := List.mem_singleton.mp new
      exact .inl rfl

end Thera.Compiler.Table
