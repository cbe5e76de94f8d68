import Thera.Model.Loader.Surface
import Thera.ToMathlib.Exploring

/-! # A surface is exactly what is re-exported

`collect_surface` explores the files reachable over `pub import`s, each once; what it records is read off the list
of the declarations of those files.
-/

namespace Thera.Loader

open Exploring

/-! ## What is recorded -/

/-- The surface after the declarations `recorded`, each a file's key with a public name of the file. -/
structure Records (surface : LibraryNamespace) (recorded : List (String × String)) : Prop where
  names : ∀ name, name ∈ surface.names ↔ 1 ≤ (recorded.map Prod.snd).count name
  origin : ∀ name ∈ surface.names, ∃ key, surface.origin name = some key ∧ (key, name) ∈ recorded
  collisions : ∀ name, name ∈ surface.collisions ↔ 2 ≤ (recorded.map Prod.snd).count name

variable {surface : LibraryNamespace} {recorded : List (String × String)} {key : String}

theorem Records.add (records : Records surface recorded) (name : String) :
    Records (surface.add key name) (recorded ++ [(key, name)]) := by
  obtain ⟨names, origin, collisions⟩ := records
  have counted (other : String) : ((recorded ++ [(key, name)]).map Prod.snd).count other =
      (recorded.map Prod.snd).count other + if name = other then 1 else 0 := by
    simp [List.count_singleton]
  rw [LibraryNamespace.add]
  split_ifs with known
  · refine ⟨fun other => ?_, fun other there => ?_, fun other => ?_⟩
    · grind
    · grind
    · grind
  · refine ⟨fun other => ?_, fun other there => ?_, fun other => ?_⟩
    · grind
    · grind [Function.update]
    · grind

theorem Records.addAll (records : Records surface recorded) (names : List String) :
    Records (names.foldl (.add key) surface) (recorded ++ names.map (key, ·)) := by
  induction names generalizing surface recorded with
  | nil => simpa using records
  | cons name names ih => simpa using ih (records.add name)

variable {g : Graph}

/-- What is collected from some files in turn. -/
def collected (g : Graph) (files : List (Fin g.size)) : Collected :=
  files.foldl (fun st file => ⟨(g.source file).publicNames.foldl (.add (g.key file)) st.surface,
    insert (g.key file) st.visited⟩) ⟨⟨∅, ∅, fun _ => none⟩, ∅⟩

theorem collected_append (files : List (Fin g.size)) (file : Fin g.size) : collected g (files ++ [file]) =
    ⟨(g.source file).publicNames.foldl (.add (g.key file)) (collected g files).surface,
      insert (g.key file) (collected g files).visited⟩ := List.foldl_append

theorem mem_visited (files : List (Fin g.size)) (file : Fin g.size) :
    g.key file ∈ (collected g files).visited ↔ file ∈ files := by
  induction files using List.reverseRecOn with
  | nil => simp [collected]
  | append_singleton files other ih =>
    rw [collected_append, Finset.mem_insert, ih, List.mem_append, List.mem_singleton, or_comm]
    exact or_congr_right g.one.eq_iff

/-- The public declarations of some files. -/
def declarations (g : Graph) (files : List (Fin g.size)) : List (String × String) :=
  files.flatMap fun file => (g.source file).publicNames.map (g.key file, ·)

theorem records (files : List (Fin g.size)) : Records (collected g files).surface (declarations g files) := by
  induction files using List.reverseRecOn with
  | nil => exact ⟨by simp [collected, declarations], by simp [collected], by simp [collected, declarations]⟩
  | append_singleton files file ih =>
    rw [collected_append, declarations, List.flatMap_append, List.flatMap_singleton]
    exact ih.addAll _

/-! ## The exploration -/

theorem foldlM_collects {f : Collected → Fin g.size → Option Collected}
    {h : List (Fin g.size) → Fin g.size → Option (List (Fin g.size))}
    (step : ∀ files file, f (collected g files) file = (h files file).map (collected g)) (roots files : List (Fin g.size)) :
    roots.foldlM f (collected g files) = (roots.foldlM h files).map (collected g) := by
  induction roots generalizing files with
  | nil => rfl
  | cons root roots ih =>
    rw [List.foldlM_cons, List.foldlM_cons, step]
    cases h files root with
    | none => rfl
    | some found => exact ih found

/-- The surface is collected along an exploration of the graph. -/
theorem collectSurface_explore (fuel : ℕ) (files : List (Fin g.size)) (lib : Fin g.size) :
    collectSurface g fuel (collected g files) lib =
      (explore (fun file => (g.source file).reexports) fuel files lib).map (collected g) := by
  induction fuel generalizing files lib with
  | zero => rfl
  | succ fuel ih =>
    rw [collectSurface, explore]
    by_cases seen : lib ∈ files
    · rw [if_pos ((mem_visited files lib).mpr seen), if_pos seen]
      rfl
    · rw [if_neg (mt (mem_visited files lib).mp seen), if_neg seen, ← foldlM_collects ih, collected_append]

/-- Reachable over zero or more `pub import`s. -/
def Reaches (g : Graph) : Fin g.size → Fin g.size → Prop :=
  Relation.ReflTransGen fun file child => child ∈ (g.source file).reexports

open scoped Classical in
/-- From any library, over `pub import` cycles and diamonds, the surface is found. It has the public names of the
reachable files, each owned by one that declares it, and the collisions are the names declared more than once. -/
theorem surface_is_what_is_reexported (g : Graph) (lib : Fin g.size) : ∃ surface, publicSurfaceOf g lib = some surface ∧
    (∀ name, name ∈ surface.names ↔ ∃ file, Reaches g lib file ∧ name ∈ (g.source file).publicNames) ∧
    (∀ name ∈ surface.names, ∃ file, Reaches g lib file ∧ name ∈ (g.source file).publicNames ∧
      surface.origin name = some (g.key file)) ∧
    ∀ name, name ∈ surface.collisions ↔ 2 ≤ ∑ file with Reaches g lib file, (g.source file).publicNames.count name := by
  obtain ⟨files, run, nodup, reachable⟩ := explores_reachable (fun file => (g.source file).reexports) lib
  have count (name : String) : ((declarations g files).map Prod.snd).count name =
      ∑ file with Reaches g lib file, (g.source file).publicNames.count name := by
    have same : ({file | Reaches g lib file} : Finset (Fin g.size)) = files.toFinset := by
      ext file
      rw [Finset.mem_filter_univ, List.mem_toFinset, reachable, Reaches]
    rw [same, List.sum_toFinset _ nodup, declarations, List.map_flatMap, List.count_flatMap]
    simp [Function.comp_def]
  obtain ⟨names, origin, collisions⟩ := records files
  refine ⟨(collected g files).surface, ?_, fun name => ?_, fun name there => ?_, fun name => ?_⟩
  · rw [Fintype.card_fin] at run
    have collects := collectSurface_explore (g.size + 1) [] lib
    rw [run] at collects
    exact congrArg (Option.map Collected.surface) collects
  · rw [names, List.one_le_count_iff]
    simp [declarations, reachable, Reaches]
  · obtain ⟨key, owner, member⟩ := origin name there
    obtain ⟨file, here, declared⟩ := List.mem_flatMap.mp member
    obtain ⟨_, named, same⟩ := List.mem_map.mp declared
    cases same
    exact ⟨file, (reachable file).mp here, named, owner⟩
  · rw [collisions, count]

end Thera.Loader
