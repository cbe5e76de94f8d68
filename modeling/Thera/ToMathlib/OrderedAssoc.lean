import Mathlib

/-! # Insertion-ordered association lists

Keys are compared by an arbitrary boolean test, which need not be reflexive. An insertion overwrites
the first entry with an equal key in place or appends; a removal keeps the order of the rest.
-/

namespace OrderedAssoc

variable {K V : Type} (eq : K → K → Bool)

/-- The position of the first entry whose key equals `key`. -/
def position (entries : List (K × V)) (key : K) : Option ℕ := entries.findIdx? fun entry => eq entry.1 key

def get (entries : List (K × V)) (key : K) : Option V := (entries.find? fun entry => eq entry.1 key).map Prod.snd

def insert (entries : List (K × V)) (key : K) (val : V) : List (K × V) :=
  match position eq entries key with
  | some i => entries.modify i fun entry => (entry.1, val)
  | none => entries ++ [(key, val)]

def remove (entries : List (K × V)) (key : K) : List (K × V) :=
  match position eq entries key with
  | some i => entries.eraseIdx i
  | none => entries

def insertAll (entries pairs : List (K × V)) : List (K × V) :=
  pairs.foldl (fun entries pair => insert eq entries pair.1 pair.2) entries

/-- The keys at the places where they first occur, each with the value it is given last. -/
def lastWins [DecidableEq K] (pairs : List (K × V)) : List (K × V) :=
  (pairs.reverse.map Prod.fst).dedup.reverse.filterMap fun key => pairs.reverse.find? fun pair => pair.1 = key

variable {eq}

variable {entries : List (K × V)}

/-- The entry at the found position is the one `get` returns. -/
theorem get_of_position {key : K} {i : ℕ} (found : position eq entries key = some i) :
    get eq entries key = entries[i]?.map Prod.snd := by
  obtain ⟨bound, hit, before⟩ := List.findIdx?_eq_some_iff_getElem.mp found
  have first : (entries.find? fun entry => eq entry.1 key) = some entries[i] :=
    List.find?_eq_some_iff_getElem.mpr ⟨hit, i, bound, rfl, fun j earlier => by simpa using before j earlier⟩
  rw [get, first, List.getElem?_eq_getElem bound]

theorem get_of_absent {key : K} (absent : position eq entries key = none) : get eq entries key = none := by
  rw [get, List.find?_eq_none.mpr fun entry member => by
    simpa using List.findIdx?_eq_none_iff.mp absent entry member]
  rfl

/-- A position is found exactly where an equal key sits, when no two entries match. -/
theorem position_eq_some {key : K} {i : ℕ} {entry : K × V} (there : entries[i]? = some entry)
    (hit : eq entry.1 key = true)
    (single : ∀ (j : ℕ) (other : K × V), entries[j]? = some other → eq other.1 key = true → j = i) :
    position eq entries key = some i := by
  obtain ⟨bound, rfl⟩ := List.getElem?_eq_some_iff.mp there
  refine List.findIdx?_eq_some_iff_getElem.mpr ⟨bound, hit, fun j before match_ => ?_⟩
  have := single j _ (List.getElem?_eq_getElem (Nat.lt_trans before bound)) match_
  omega

theorem position_eq_none {key : K}
    (misses : ∀ (i : ℕ) (entry : K × V), entries[i]? = some entry → eq entry.1 key ≠ true) :
    position eq entries key = none := by
  refine List.findIdx?_eq_none_iff.mpr fun entry member => ?_
  obtain ⟨i, there⟩ := List.mem_iff_getElem?.mp member
  simpa using misses i entry there

theorem length_le_insert (entries : List (K × V)) (key : K) (val : V) :
    entries.length ≤ (insert eq entries key val).length := by
  rw [insert]
  split <;> simp

theorem length_le_insertAll (entries pairs : List (K × V)) : entries.length ≤ (insertAll eq entries pairs).length := by
  induction pairs generalizing entries with
  | nil => exact Nat.le_refl _
  | cons pair rest ih => exact Nat.le_trans (length_le_insert ..) (ih _)

/-- An update in place leaves the keys alone. -/
theorem keys_modify (entries : List (K × V)) (i : ℕ) (val : V) :
    (entries.modify i fun entry => (entry.1, val)).map Prod.fst = entries.map Prod.fst := by
  apply List.ext_getElem?
  intro j
  rw [List.getElem?_map, List.getElem?_map, List.getElem?_modify]
  split <;> simp [Function.comp_def]

/-- An insertion adds no other key. -/
theorem keys_insert (entries : List (K × V)) (key : K) (val : V) :
    (insert eq entries key val).map Prod.fst ⊆ entries.map Prod.fst ++ [key] := by
  rw [insert]
  cases position eq entries key with
  | none => simp
  | some i => simp [keys_modify]

section Lawful

variable (lawful : ∀ a b : K, eq a b = true ↔ a = b)
include lawful

theorem get_cons (entry : K × V) (entries : List (K × V)) (key : K) [Decidable (entry.1 = key)] :
    get eq (entry :: entries) key = if entry.1 = key then some entry.2 else get eq entries key := by
  unfold get
  rw [List.find?_cons]
  by_cases here : entry.1 = key
  · subst here
    simp [(lawful entry.1 _).mpr]
  · rw [Bool.eq_false_iff.mpr fun hit => here ((lawful ..).mp hit)]
    simp [here]

theorem insert_cons (entry : K × V) (entries : List (K × V)) (key : K) (val : V) [Decidable (entry.1 = key)] :
    insert eq (entry :: entries) key val =
      if entry.1 = key then (entry.1, val) :: entries else entry :: insert eq entries key val := by
  unfold insert position
  rw [List.findIdx?_cons]
  by_cases here : entry.1 = key
  · subst here
    simp [(lawful entry.1 _).mpr]
  · rw [Bool.eq_false_iff.mpr fun hit => here ((lawful ..).mp hit)]
    cases found : entries.findIdx? fun entry => eq entry.1 key <;> simp [here]

/-- What an insertion puts in, a lookup finds; other keys are left alone. -/
theorem get_insert [DecidableEq K] (entries : List (K × V)) (key key' : K) (val : V) :
    get eq (insert eq entries key val) key' = if key = key' then some val else get eq entries key' := by
  induction entries with
  | nil =>
    change get eq [(key, val)] key' = _
    rw [get_cons lawful]
  | cons entry rest ih =>
    rw [insert_cons lawful]
    by_cases here : entry.1 = key
    · rw [if_pos here, get_cons lawful, get_cons lawful, here]
      split <;> rfl
    · rw [if_neg here, get_cons lawful, get_cons lawful, ih]
      by_cases other : entry.1 = key'
      · rw [if_pos other, if_pos other, if_neg fun same => here (other.trans same.symm)]
      · rw [if_neg other, if_neg other]

/-- An insertion into entries listed by key: the entry is replaced in place, or appended. -/
theorem insert_filterMap [DecidableEq K] {keys : List K} (distinct : keys.Nodup) {entry : K → Option (K × V)}
    (named : ∀ key ∈ keys, ∃ val, entry key = some (key, val)) (key : K) (val : V) :
    insert eq (keys.filterMap entry) key val =
      (keys.filterMap fun k => if k = key then some (key, val) else entry k) ++ if key ∈ keys then [] else [(key, val)] := by
  induction keys with
  | nil => rfl
  | cons first keys ih =>
    obtain ⟨firstVal, there⟩ := named first List.mem_cons_self
    obtain ⟨absent, distinct⟩ := List.nodup_cons.mp distinct
    rw [List.filterMap_cons_some there, insert_cons lawful]
    by_cases here : first = key
    · subst here
      have others : (keys.filterMap fun k => if k = first then some (first, val) else entry k) = keys.filterMap entry :=
        List.filterMap_congr fun k member => if_neg fun same : k = first => absent (same ▸ member)
      simp [others]
    · have later := ih distinct fun k member => named k (List.mem_cons_of_mem _ member)
      have kept : (if first = key then some (key, val) else entry first) = some (first, firstVal) := by rw [if_neg here, there]
      rw [if_neg here, later, List.filterMap_cons, kept]
      simp [Ne.symm here]

theorem lastWins_concat [DecidableEq K] (pairs : List (K × V)) (key : K) (val : V) :
    lastWins (pairs ++ [(key, val)]) = insert eq (lastWins pairs) key val := by
  have named : ∀ k ∈ (pairs.reverse.map Prod.fst).dedup.reverse, ∃ v, (pairs.reverse.find? fun pair => pair.1 = k) = some (k, v) := by
    intro k member
    rw [List.mem_reverse, List.mem_dedup, List.mem_map] at member
    obtain ⟨pair, member, rfl⟩ := member
    obtain ⟨found, first⟩ := Option.isSome_iff_exists.mp
      (List.find?_isSome (p := fun entry : K × V => decide (entry.1 = pair.1)).mpr ⟨pair, member, decide_eq_true rfl⟩)
    have same : found.1 = pair.1 := by simpa using List.find?_some first
    exact ⟨found.2, by rw [first, ← same]⟩
  rw [lastWins, lastWins, insert_filterMap lawful (List.nodup_reverse.mpr (List.nodup_dedup _)) named]
  have latest : (fun k => (pairs ++ [(key, val)]).reverse.find? fun pair => pair.1 = k) =
      fun k => if k = key then some (key, val) else pairs.reverse.find? fun pair => pair.1 = k := by
    funext k
    rw [List.reverse_append, List.reverse_singleton, List.singleton_append, List.find?_cons]
    by_cases here : key = k <;> simp [here, Ne.symm]
  rw [latest, List.reverse_append, List.reverse_singleton, List.singleton_append, List.map_cons]
  by_cases member : key ∈ pairs.reverse.map Prod.fst
  · rw [List.dedup_cons_of_mem member, if_pos (List.mem_reverse.mpr (List.mem_dedup.mpr member)), List.append_nil]
  · rw [List.dedup_cons_of_notMem member, if_neg fun there => member (List.mem_dedup.mp (List.mem_reverse.mp there)),
      List.reverse_cons, List.filterMap_append]
    simp

theorem insertAll_eq_lastWins [DecidableEq K] (pairs : List (K × V)) : insertAll eq [] pairs = lastWins pairs := by
  induction pairs using List.reverseRecOn with
  | nil => rfl
  | append_singleton pairs pair ih => rw [lastWins_concat lawful, ← ih, insertAll, List.foldl_append, insertAll]; rfl

variable {entries : List (K × V)}

/-- An insertion under a new key appends. -/
theorem insert_absent {key : K} (absent : key ∉ entries.map Prod.fst) (val : V) :
    insert eq entries key val = entries ++ [(key, val)] := by
  have nowhere : position eq entries key = none := by
    refine position_eq_none fun i entry there hit => absent ?_
    rw [← (lawful ..).mp hit]
    exact List.mem_map_of_mem (List.mem_of_getElem? there)
  rw [insert, nowhere]

/-- Where no key is there twice, an entry is what its key gives. -/
theorem get_of_mem [DecidableEq K] (distinct : (entries.map Prod.fst).Nodup) {entry : K × V}
    (member : entry ∈ entries) : get eq entries entry.1 = some entry.2 := by
  induction entries with
  | nil => cases member
  | cons first rest ih =>
    obtain ⟨absent, distinct⟩ := List.nodup_cons.mp distinct
    rw [get_cons lawful]
    obtain rfl | later := List.mem_cons.mp member
    · rw [if_pos rfl]
    · have other : first.1 ≠ entry.1 := by
        intro same
        rw [same] at absent
        exact absent (List.mem_map_of_mem later)
      rw [if_neg other, ih distinct later]

/-- The entry that a key gives. -/
theorem mem_of_get {key : K} {val : V} (found : get eq entries key = some val) : (key, val) ∈ entries := by
  obtain ⟨entry, first, rfl⟩ := Option.map_eq_some_iff.mp found
  have hit : eq entry.1 key = true := List.find?_some (p := fun entry : K × V => eq entry.1 key) first
  rw [← (lawful ..).mp hit]
  exact List.mem_of_find?_eq_some first

theorem lastWins_of_nodup [DecidableEq K] {pairs : List (K × V)} (distinct : (pairs.map Prod.fst).Nodup) :
    lastWins pairs = pairs := by
  induction pairs using List.reverseRecOn with
  | nil => rfl
  | append_singleton pairs pair ih =>
    rw [List.map_append, List.map_singleton, List.nodup_append] at distinct
    obtain ⟨distinct, -, apart⟩ := distinct
    rw [lastWins_concat lawful, ih distinct, insert_absent lawful]
    exact fun member => apart _ member _ List.mem_cons_self rfl

end Lawful

end OrderedAssoc
