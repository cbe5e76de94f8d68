import Thera.Model.Prose.Wrap

/-! # Filled lines

The lines of a filling, told from the words: what stands on the line behind some words depends on those words alone.
-/

namespace Thera.Prose

open Sdk

theorem joinWords_singleton (a : Text) : joinWords [a] = a := by simp [joinWords]

theorem joinWords_cons {words : List Text} (a : Text) (some : words ≠ []) : joinWords (a :: words) = a ++ ' ' :: joinWords words := by
  obtain ⟨b, words, rfl⟩ := List.exists_cons_of_ne_nil some
  simp [joinWords]

theorem joinWords_snoc {words : List Text} (a : Text) (some : words ≠ []) : joinWords (words ++ [a]) = joinWords words ++ ' ' :: a := by
  induction words with
  | nil => exact absurd rfl some
  | cons b words ih =>
    cases words with
    | nil => rw [List.singleton_append, joinWords_cons b (by simp), joinWords_singleton, joinWords_singleton]
    | cons c words =>
      rw [List.cons_append, joinWords_cons b (by simp), ih (by simp), joinWords_cons b (by simp), List.append_assoc]
      rfl

theorem mem_joinWords {words : List Text} {c : Char} (member : c ∈ joinWords words) : c = ' ' ∨ ∃ a ∈ words, c ∈ a := by
  induction words with
  | nil => cases member
  | cons a words ih =>
    cases words with
    | nil =>
      rw [joinWords_singleton] at member
      exact .inr ⟨a, List.mem_cons_self, member⟩
    | cons b words =>
      rw [joinWords_cons a (by simp), List.mem_append, List.mem_cons] at member
      obtain here | space | later := member
      · exact .inr ⟨a, List.mem_cons_self, here⟩
      · exact .inl space
      · exact (ih later).imp_right fun found => found.imp fun _ both => ⟨List.mem_cons_of_mem a both.1, both.2⟩

/-! ## The line behind some words -/

section

variable (avail : ℤ)

/-- A word stays on a line that is not empty. -/
def staysOn (line : List Text) (a : Text) : Bool := stays avail line (joinWords line).length a

/-- The line that holds the last of some words when they are filled. -/
def lastLine (words : List Text) : List Text :=
  words.foldl (fun line a => if line = [] then [a] else if staysOn avail line a then line ++ [a] else [a]) []

/-- The words of one line when some words are filled: behind them the words end or a word does not stay. -/
def SetOff (words line : List Text) : Prop :=
  ∃ pre post, words = pre ++ line ++ post ∧ line ≠ [] ∧ lastLine avail (pre ++ line) = line ∧ ∀ a ∈ post.head?, staysOn avail line a = false

end

variable {avail : ℤ} {words : List Text}

theorem lastLine_snoc (words : List Text) (a : Text) : lastLine avail (words ++ [a]) =
    if lastLine avail words = [] then [a] else if staysOn avail (lastLine avail words) a then lastLine avail words ++ [a] else [a] := by
  rw [lastLine, List.foldl_append]
  rfl

theorem lastLine_ne_nil (some : words ≠ []) : lastLine avail words ≠ [] := by
  obtain ⟨before, a, rfl⟩ := List.eq_nil_or_concat' words |>.resolve_left some
  rw [lastLine_snoc]
  split
  · simp
  · split <;> simp

theorem lastLine_suffix (words : List Text) : ∃ pre, words = pre ++ lastLine avail words := by
  induction words using List.reverseRecOn with
  | nil => exact ⟨[], rfl⟩
  | append_singleton words a ih =>
    obtain ⟨pre, split⟩ := ih
    rw [lastLine_snoc]
    split
    · exact ⟨words, rfl⟩
    · split
      · refine ⟨pre, ?_⟩
        rw [← List.append_assoc, ← split]
      · exact ⟨words, rfl⟩

/-- The filling behind some words: the line that is open, and the lines that are closed. -/
structure Filling.Holds (avail : ℤ) (f : Filling) (words : List Text) : Prop where
  cur : f.cur = lastLine avail words
  col : f.cur ≠ [] → f.col = (joinWords f.cur).length
  lines : ∀ text, text ∈ f.lines ↔ ∃ pre line a post, words = pre ++ line ++ a :: post ∧ line ≠ [] ∧
    lastLine avail (pre ++ line) = line ∧ staysOn avail line a = false ∧ text = joinWords line

/-- With one more word, a line that was closed stays closed; a line that is closed now was the open one. -/
theorem closed_snoc (words : List Text) (a : Text) (text : Text) :
    (∃ pre line b post, words ++ [a] = pre ++ line ++ b :: post ∧ line ≠ [] ∧ lastLine avail (pre ++ line) = line ∧
        staysOn avail line b = false ∧ text = joinWords line) ↔
      (∃ pre line b post, words = pre ++ line ++ b :: post ∧ line ≠ [] ∧ lastLine avail (pre ++ line) = line ∧
        staysOn avail line b = false ∧ text = joinWords line) ∨
      (lastLine avail words ≠ [] ∧ staysOn avail (lastLine avail words) a = false ∧ text = joinWords (lastLine avail words)) := by
  constructor
  · rintro ⟨pre, line, b, post, split, nonempty, isLine, breaks, rfl⟩
    obtain rfl | ⟨post, last, rfl⟩ := List.eq_nil_or_concat' post
    · obtain ⟨rfl, same⟩ := List.append_inj' split rfl
      obtain rfl := List.singleton_inj.mp same
      rw [isLine]
      exact .inr ⟨nonempty, breaks, rfl⟩
    · rw [← List.cons_append, ← List.append_assoc] at split
      obtain ⟨same, _⟩ := List.append_inj' split rfl
      exact .inl ⟨pre, line, b, post, same, nonempty, isLine, breaks, rfl⟩
  · rintro (⟨pre, line, b, post, rfl, nonempty, isLine, breaks, rfl⟩ | ⟨nonempty, breaks, rfl⟩)
    · exact ⟨pre, line, b, post ++ [a], by simp, nonempty, isLine, breaks, rfl⟩
    · obtain ⟨pre, split⟩ := @lastLine_suffix avail words
      refine ⟨pre, lastLine avail words, a, [], by rw [← split], nonempty, by rw [← split], breaks, rfl⟩

theorem filling_holds (words : List Text) : (words.foldl (Filling.step avail) ⟨[], [], 0⟩).Holds avail words := by
  induction words using List.reverseRecOn with
  | nil =>
    refine ⟨rfl, fun some => absurd rfl some, fun text => ⟨fun member => (List.not_mem_nil member).elim, ?_⟩⟩
    rintro ⟨pre, line, a, post, split, _⟩
    simp at split
  | append_singleton words a ih =>
    rw [List.foldl_append]
    show (Filling.step avail (words.foldl (Filling.step avail) ⟨[], [], 0⟩) a).Holds avail (words ++ [a])
    generalize words.foldl (Filling.step avail) ⟨[], [], 0⟩ = f at ih
    obtain ⟨cur, col, lines⟩ := ih
    have next := @lastLine_snoc avail words a
    rw [← cur] at next
    unfold Filling.step
    split
    next none =>
      have empty : f.cur = [] := List.eq_nil_of_length_eq_zero none
      rw [if_pos empty] at next
      refine ⟨next.symm, fun _ => by rw [joinWords_singleton], fun text => ?_⟩
      rw [closed_snoc, ← lines, ← cur, empty]
      simp
    next some =>
      have nonempty : f.cur ≠ [] := fun empty => some (by rw [empty]; rfl)
      have same : staysOn avail f.cur a = stays avail f.cur f.col a := by rw [staysOn, col nonempty]
      rw [if_neg nonempty, same] at next
      split
      next stay =>
        rw [if_pos stay] at next
        refine ⟨next.symm, fun _ => ?_, fun text => ?_⟩
        · rw [joinWords_snoc a nonempty, col nonempty, List.length_append, List.length_cons]
          push_cast
          ring
        · rw [closed_snoc, ← lines, ← cur, same, stay]
          simp
      next breaks =>
        rw [if_neg breaks] at next
        refine ⟨next.symm, fun _ => by rw [joinWords_singleton], fun text => ?_⟩
        rw [closed_snoc, ← lines, ← cur, same, List.mem_append, List.mem_singleton]
        simp [nonempty, breaks]

/-- The lines of a filling are the lines that are set off. -/
theorem mem_wrapAtoms {text : Text} : text ∈ wrapAtoms words avail ↔ ∃ line, SetOff avail words line ∧ text = joinWords line := by
  have holds := @filling_holds avail words
  unfold wrapAtoms
  dsimp only
  generalize words.foldl (Filling.step avail) ⟨[], [], 0⟩ = f at holds
  obtain ⟨cur, _, lines⟩ := holds
  have all : text ∈ (if f.cur.length > 0 then f.lines ++ [joinWords f.cur] else f.lines) ↔
      text ∈ f.lines ∨ (lastLine avail words ≠ [] ∧ text = joinWords (lastLine avail words)) := by
    rw [cur]
    split
    next some => simp [List.ne_nil_of_length_pos some]
    next none => simp [List.eq_nil_of_length_eq_zero (Nat.eq_zero_of_not_pos none)]
  rw [all, lines]
  constructor
  · rintro (⟨pre, line, a, post, split, nonempty, isLine, breaks, rfl⟩ | ⟨nonempty, rfl⟩)
    · refine ⟨line, ⟨pre, a :: post, split, nonempty, isLine, fun b first => ?_⟩, rfl⟩
      obtain rfl := Option.mem_some_iff.mp first
      exact breaks
    · obtain ⟨pre, split⟩ := @lastLine_suffix avail words
      refine ⟨_, ⟨pre, [], by rw [List.append_nil, ← split], nonempty, by rw [← split], fun a first => nomatch first⟩, rfl⟩
  · rintro ⟨line, ⟨pre, post, split, nonempty, isLine, breaks⟩, rfl⟩
    cases post with
    | nil =>
      rw [List.append_nil] at split
      rw [split, isLine]
      exact .inr ⟨nonempty, rfl⟩
    | cons a post => exact .inl ⟨pre, line, a, post, split, nonempty, isLine, breaks a rfl, rfl⟩

/-- The first line of a filling. -/
theorem exists_first_line (some : words ≠ []) :
    ∃ line post, words = line ++ post ∧ line ≠ [] ∧ lastLine avail line = line ∧ ∀ a ∈ post.head?, staysOn avail line a = false := by
  induction words using List.reverseRecOn with
  | nil => exact absurd rfl some
  | append_singleton words a ih =>
    obtain rfl | nonempty := eq_or_ne words []
    · exact ⟨[a], [], rfl, by simp, rfl, fun b first => nomatch first⟩
    · obtain ⟨line, post, split, lineSome, isLine, breaks⟩ := ih nonempty
      cases post with
      | cons b post => exact ⟨line, b :: post ++ [a], by rw [split, List.append_assoc], lineSome, isLine, breaks⟩
      | nil =>
        rw [List.append_nil] at split
        cases stay : staysOn avail line a with
        | true =>
          refine ⟨line ++ [a], [], by rw [split, List.append_nil], by simp, ?_, fun b first => nomatch first⟩
          rw [lastLine_snoc, isLine, if_neg lineSome, if_pos stay]
        | false =>
          refine ⟨line, [a], by rw [split], lineSome, isLine, fun b first => ?_⟩
          obtain rfl := Option.mem_some_iff.mp first
          exact stay

/-- A line starts where its first word does not stay. -/
theorem lastLine_starts {pre rest : List Text} {a : Text} (isLine : lastLine avail (pre ++ a :: rest) = a :: rest) :
    lastLine avail (pre ++ [a]) = [a] := by
  induction rest using List.reverseRecOn with
  | nil => exact isLine
  | append_singleton rest b ih =>
    apply ih
    rw [← List.cons_append, ← List.append_assoc, lastLine_snoc] at isLine
    split at isLine
    · simp at isLine
    · split at isLine
      · exact List.append_cancel_right isLine
      · simp at isLine

/-- No line but the first starts with a lead. -/
theorem safe_of_starts {pre : List Text} {a : Text} (some : pre ≠ []) (isLine : lastLine avail (pre ++ [a]) = [a]) :
    isWrapUnsafeLead a = false := by
  have nonempty := @lastLine_ne_nil avail pre some
  rw [lastLine_snoc, if_neg nonempty] at isLine
  split at isLine
  · simp [nonempty] at isLine
  next breaks =>
    rw [staysOn, stays, Bool.not_eq_true, Bool.or_eq_false_iff, Bool.or_eq_false_iff] at breaks
    exact breaks.2.1

/-- Words are filled into no line exactly if there are none. -/
theorem wrapAtoms_eq_nil : wrapAtoms words avail = [] ↔ words = [] := by
  constructor
  · intro none
    by_contra some
    obtain ⟨line, post, split, lineSome, isLine, breaks⟩ := @exists_first_line avail words some
    have member : joinWords line ∈ wrapAtoms words avail := mem_wrapAtoms.mpr ⟨line, ⟨[], post, split, lineSome, isLine, breaks⟩, rfl⟩
    rw [none] at member
    cases member
  · rintro rfl
    rfl

/-! ## Words -/

/-- A text that does not start with a space starts with its first word. -/
inductive FirstWord (text : Text) (s : AtomScan) : Prop where
  | inside (none : s.out = []) (cur : s.cur = text)
  | behind {first : Text} {rest : List Text} {c : Char} {more : Text} (out : s.out = first :: rest) (reads : text = first ++ c :: more)
      (space : isSpace c = true)

theorem FirstWord.step {text : Text} {s : AtomScan} (word : FirstWord text s) (c : Char) (starts : text = [] → isSpace c = false) :
    FirstWord (text ++ [c]) (s.step c) := by
  have delimit : (s.delimit c).out = s.out ∧ (s.delimit c).cur = s.cur := by
    unfold AtomScan.delimit
    repeat' split
    all_goals exact ⟨rfl, rfl⟩
  unfold AtomScan.step
  split
  next breaks =>
    cases word with
    | inside none cur =>
      have some : text ≠ [] := fun empty => by
        rw [starts empty] at breaks
        exact absurd breaks.2.2.2 (by decide)
      refine @FirstWord.behind _ _ s.cur [] c [] ?_ (by rw [cur]) breaks.2.2.2
      rw [AtomScan.flush, if_pos (by rw [cur]; exact List.length_pos_of_ne_nil some), none]
      rfl
    | @behind first rest d more out reads space =>
      refine @FirstWord.behind _ _ first (rest ++ if s.cur.length > 0 then [s.cur] else []) d (more ++ [c]) ?_ ?_ space
      · rw [AtomScan.flush]
        split
        · show s.out ++ [s.cur] = _
          rw [out]
          rfl
        · rw [List.append_nil, ← out]
      · rw [reads, List.append_assoc]
        rfl
  next =>
    cases word with
    | inside none cur => exact .inside (delimit.1.trans none) (by rw [← cur, ← delimit.2])
    | behind out reads space => exact .behind (delimit.1.trans out) (by rw [reads, List.append_assoc]; rfl) space

theorem firstWord_scan {text : Text} (starts : ∀ c ∈ text.head?, isSpace c = false) :
    FirstWord text (text.foldl AtomScan.step ⟨[], [], false, 0, false, false⟩) := by
  induction text using List.reverseRecOn with
  | nil => exact .inside rfl rfl
  | append_singleton text c ih =>
    rw [List.foldl_append]
    refine (ih fun d first => starts d ?_).step c fun empty => starts c ?_
    · cases text with
      | nil => cases first
      | cons e text => exact first
    · rw [empty]
      rfl

/-- The first word of a text, and what stands behind it. -/
theorem atomsOf_first {text : Text} {atoms : List Text} (scan : atomsOf text = some atoms) (nonempty : text ≠ [])
    (starts : ∀ c ∈ text.head?, isSpace c = false) :
    ∃ first rest, atoms = first :: rest ∧ (text = first ∨ ∃ c more, text = first ++ c :: more ∧ isSpace c = true) := by
  have word := firstWord_scan starts
  unfold atomsOf at scan
  dsimp only at scan
  generalize text.foldl AtomScan.step ⟨[], [], false, 0, false, false⟩ = s at word scan
  split at scan
  · cases scan
  · obtain rfl := Option.some.inj scan
    cases word with
    | inside none cur =>
      refine ⟨text, [], ?_, .inl rfl⟩
      rw [AtomScan.flush, if_pos (by rw [cur]; exact List.length_pos_of_ne_nil nonempty), none, cur]
      rfl
    | @behind first rest c more out reads space =>
      refine ⟨first, rest ++ if s.cur.length > 0 then [s.cur] else [], ?_, .inr ⟨c, more, reads, space⟩⟩
      rw [AtomScan.flush]
      split
      · show s.out ++ [s.cur] = _
        rw [out]
        rfl
      · rw [List.append_nil, ← out]

/-- Words are not empty. -/
theorem atomsOf_ne_nil {text : Text} {atoms : List Text} (scan : atomsOf text = some atoms) : ∀ a ∈ atoms, a ≠ [] := by
  have flush : ∀ s : AtomScan, (∀ a ∈ s.out, a ≠ []) → ∀ a ∈ s.flush.out, a ≠ [] := by
    intro s all
    rw [AtomScan.flush]
    split
    next some =>
      intro a member
      obtain old | new := List.mem_append.mp member
      · exact all a old
      · rw [List.mem_singleton.mp new]
        exact List.ne_nil_of_length_pos some
    next => exact all
  have step : ∀ (s : AtomScan) (c : Char), (∀ a ∈ s.out, a ≠ []) → ∀ a ∈ (s.step c).out, a ≠ [] := by
    intro s c all
    have delimit : (s.delimit c).out = s.out := by
      unfold AtomScan.delimit
      repeat' split
      all_goals rfl
    unfold AtomScan.step
    split
    · exact flush s all
    · exact delimit ▸ all
  have run : ∀ (text : Text) (s : AtomScan), (∀ a ∈ s.out, a ≠ []) → ∀ a ∈ (text.foldl AtomScan.step s).out, a ≠ [] := by
    intro text
    induction text with
    | nil => exact fun s all => all
    | cons c text ih => exact fun s all => ih _ (step s c all)
  unfold atomsOf at scan
  dsimp only at scan
  split at scan
  · cases scan
  · obtain rfl := Option.some.inj scan
    exact flush _ (run text _ fun a member => (List.not_mem_nil member).elim)

end Thera.Prose
