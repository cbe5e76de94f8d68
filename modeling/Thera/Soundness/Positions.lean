import Thera.Model.Lsp.Positions
import Thera.Proofs.Sdk.Scan

/-! # Positions and offsets are inverse

Two walks meet here: one splits the text into its lines, the other follows the text as the lexer does. Both are read off the place
behind a part of the text: how many lines it ends, and where its last line starts.
-/

namespace Thera.Lsp

open Sdk

/-- The offset behind some lines. -/
def offsetBehind (lines : List Text) : ℤ := lines.foldl (fun (offset : ℤ) l => offset + l.length + 1) 0

/-- Behind `pre`, `n` lines have ended and the next one started at `start`, in every text that goes on from there. -/
structure LineAt (pre : Text) (n start : ℕ) : Prop where
  start_le : start ≤ pre.length
  splits : ∃ lines, lines.length = n ∧ offsetBehind lines = start ∧ ∀ post first rest, post.splitOn '\n' = first :: rest →
    (pre ++ post).splitOn '\n' = lines ++ (pre.drop start ++ first) :: rest

theorem offsetBehind_snoc (lines : List Text) (l : Text) : offsetBehind (lines ++ [l]) = offsetBehind lines + l.length + 1 := by
  rw [offsetBehind, List.foldl_append]
  rfl

theorem LineAt.nil : LineAt [] 0 0 := ⟨le_refl 0, [], rfl, rfl, fun _ _ _ split => split⟩

theorem splitOn_newline (post : Text) : ('\n' :: post).splitOn '\n' = [] :: post.splitOn '\n' :=
  List.splitOnP_append_cons [] post rfl

theorem splitOn_other {c : Char} {post first : Text} {rest : List Text} (other : c ≠ '\n') (split : post.splitOn '\n' = first :: rest) :
    (c :: post).splitOn '\n' = (c :: first) :: rest := by
  rw [List.splitOn, List.splitOnP_cons_eq_if_modifyHead, if_neg (by rwa [beq_iff_eq]), ← List.splitOn, split]
  rfl

section

variable {pre : Text} {n start : ℕ}

theorem LineAt.newline (here : LineAt pre n start) : LineAt (pre ++ ['\n']) (n + 1) (pre.length + 1) := by
  obtain ⟨bound, lines, count, offset, splits⟩ := here
  refine ⟨by rw [List.length_append, List.length_singleton], lines ++ [pre.drop start], ?_, ?_, ?_⟩
  · rw [List.length_append, count, List.length_singleton]
  · rw [offsetBehind_snoc, offset, List.length_drop]
    omega
  · intro post first rest split
    have empty : (pre ++ ['\n']).drop (pre.length + 1) = [] := List.drop_eq_nil_of_le (by rw [List.length_append, List.length_singleton])
    have whole := splits _ _ _ (splitOn_newline post)
    rw [split, List.append_nil] at whole
    rw [empty, List.append_assoc, List.append_assoc]
    exact whole

theorem LineAt.other {c : Char} (here : LineAt pre n start) (other : c ≠ '\n') : LineAt (pre ++ [c]) n start := by
  obtain ⟨bound, lines, count, offset, splits⟩ := here
  refine ⟨by rw [List.length_append]; omega, lines, count, offset, ?_⟩
  intro post first rest split
  rw [List.append_assoc, List.drop_append_of_le_length bound, List.append_assoc]
  exact splits _ _ _ (splitOn_other other split)

/-! ## Following the text -/

/-- The line and column behind one more character. -/
def advancePlace (place : ℤ × ℤ) (c : Char) : ℤ × ℤ := if c = '\n' then (place.1 + 1, 1) else (place.1, place.2 + 1)

/-- The line and column behind a part of a text, counted from 1, as the lexer counts them. -/
def placeBehind (pre : Text) : ℤ × ℤ := pre.foldl advancePlace (1, 1)

theorem exists_lineAt (pre : Text) :
    ∃ n start, LineAt pre n start ∧ placeBehind pre = ((n : ℤ) + 1, (pre.length : ℤ) - start + 1) := by
  induction pre using List.reverseRecOn with
  | nil => exact ⟨0, 0, .nil, rfl⟩
  | append_singleton pre c ih =>
    obtain ⟨n, start, here, place⟩ := ih
    have step : placeBehind (pre ++ [c]) = advancePlace (placeBehind pre) c := by
      rw [placeBehind, List.foldl_append]
      rfl
    rw [step, place, advancePlace]
    by_cases newline : c = '\n'
    · subst newline
      refine ⟨n + 1, pre.length + 1, here.newline, ?_⟩
      rw [if_pos rfl, List.length_append, List.length_singleton]
      push_cast
      ring_nf
    · refine ⟨n, start, here.other newline, ?_⟩
      rw [if_neg newline, List.length_append, List.length_singleton]
      push_cast
      ring_nf

theorem walkSpan_spec (here : LineAt pre n start) (walked : Text) :
    ∃ n' start', LineAt (pre ++ walked) n' start' ∧
      (codePoints walked).foldl (walkSpan pre.length) ((n : ℤ) + 1, (start : ℤ), 0) = ((n' : ℤ) + 1, (start' : ℤ), (walked.length : ℤ)) := by
  induction walked using List.reverseRecOn with
  | nil => exact ⟨n, start, by rwa [List.append_nil], rfl⟩
  | append_singleton walked c ih =>
    obtain ⟨n', start', there, run⟩ := ih
    rw [codePoints, List.map_append, List.foldl_append, ← codePoints, run, ← List.append_assoc]
    show ∃ n'' start'', _ ∧ walkSpan pre.length ((n' : ℤ) + 1, (start' : ℤ), (walked.length : ℤ)) (codePoint c) = _
    have newline_iff : codePoint c = 10 ↔ c = '\n' := codePoint_inj (d := '\n')
    have total : (walked ++ [c]).length = walked.length + 1 := by rw [List.length_append, List.length_singleton]
    by_cases newline : c = '\n'
    · subst newline
      refine ⟨n' + 1, (pre ++ walked).length + 1, there.newline, ?_⟩
      rw [walkSpan, if_pos (newline_iff.mpr rfl), total, List.length_append]
      push_cast
      ring_nf
    · refine ⟨n', start', there.other newline, ?_⟩
      rw [walkSpan, if_neg (mt newline_iff.mp newline), total]
      push_cast
      rfl

/-! ## Units -/

theorem utf16Width_pos (cp : ℤ) : 1 ≤ utf16Width cp := by
  unfold utf16Width
  split <;> decide

theorem utf16Len_cons (c : Char) (s : Text) : utf16Len (c :: s) = utf16Width (codePoint c) + utf16Len s := by
  have shift : ∀ (cps : List ℤ) (units : ℤ), cps.foldl (fun units cp => units + utf16Width cp) units =
      units + cps.foldl (fun units cp => units + utf16Width cp) 0 := by
    intro cps
    induction cps with
    | nil => intro units; exact (add_zero units).symm
    | cons cp cps ih =>
      intro units
      rw [List.foldl_cons, ih, List.foldl_cons, ih (0 + utf16Width cp)]
      ring
  show (codePoints s).foldl _ (0 + utf16Width (codePoint c)) = _
  rw [shift, zero_add]
  rfl

theorem utf16Len_nonneg (s : Text) : 0 ≤ utf16Len s := by
  induction s with
  | nil => exact le_refl 0
  | cons c s ih =>
    have width := utf16Width_pos (codePoint c)
    rw [utf16Len_cons]
    omega

/-- The units of a part of a line lead to the end of that part. -/
theorem spendUnits_exact (tail first : Text) (units : ℤ) :
    spendUnits (units + utf16Len tail) units (codePoints (tail ++ first)) = tail.length := by
  induction tail generalizing units with
  | nil =>
    cases first with
    | nil => rfl
    | cons c first =>
      have width := utf16Width_pos (codePoint c)
      have empty : utf16Len [] = 0 := rfl
      exact if_neg (by rw [empty]; omega)
  | cons c tail ih =>
    have fits := utf16Len_nonneg tail
    show (if units + utf16Width (codePoint c) ≤ units + utf16Len (c :: tail) then
      1 + spendUnits (units + utf16Len (c :: tail)) (units + utf16Width (codePoint c)) (codePoints (tail ++ first)) else 0) = _
    rw [utf16Len_cons, if_pos (by omega), ← add_assoc, ih, List.length_cons]
    push_cast
    ring

/-- The units lead as far as they suffice for whole characters. -/
theorem spendUnits_spec (line : Text) (character units : ℤ) :
    ∃ k : ℕ, spendUnits character units (codePoints line) = k ∧ k ≤ line.length ∧
      (units ≤ character → units + utf16Len (line.take k) ≤ character) ∧
      (k < line.length → character < units + utf16Len (line.take (k + 1))) := by
  induction line generalizing units with
  | nil => exact ⟨0, rfl, le_refl 0, fun fits => by simpa [utf16Len, codePoints] using fits, fun no => absurd no (Nat.lt_irrefl 0)⟩
  | cons c line ih =>
    have width := utf16Width_pos (codePoint c)
    by_cases fits : units + utf16Width (codePoint c) ≤ character
    · obtain ⟨k, run, bound, within, stops⟩ := ih (units + utf16Width (codePoint c))
      refine ⟨k + 1, ?_, Nat.succ_le_succ bound, fun _ => ?_, fun more => ?_⟩
      · show (if units + utf16Width (codePoint c) ≤ character then _ else _) = _
        rw [if_pos fits]
        show 1 + spendUnits character (units + utf16Width (codePoint c)) (codePoints line) = _
        rw [run]
        push_cast
        ring
      · rw [List.take_succ_cons, utf16Len_cons, ← add_assoc]
        exact within fits
      · rw [List.take_succ_cons, utf16Len_cons, ← add_assoc]
        exact stops (Nat.lt_of_succ_lt_succ more)
    · refine ⟨0, if_neg fits, Nat.zero_le _, fun here => ?_, fun _ => ?_⟩
      · simpa [utf16Len, codePoints] using here
      · rw [List.take_succ_cons, List.take_zero, utf16Len_cons]
        have empty : utf16Len [] = 0 := rfl
        omega

/-- The offset of a position on a line: the lines before it, and what its units lead to. -/
theorem positionToOffset_numbered {text current : Text} {lines rest : List Text} (character : ℤ)
    (whole : text.splitOn '\n' = lines ++ current :: rest) :
    positionToOffset text lines.length character = some (offsetBehind lines + spendUnits character 0 (codePoints current)) := by
  have inside : ¬ (lines.length : ℤ) ≥ (text.splitOn '\n').length := by
    rw [whole, List.length_append, List.length_cons]
    push_cast
    omega
  have this_line : (text.splitOn '\n')[lines.length]? = some current := by
    rw [whole, List.getElem?_append_right (le_refl _), Nat.sub_self]
    rfl
  rw [positionToOffset, if_neg inside, if_neg (by omega), Int.toNat_natCast, this_line, whole, List.take_left]
  rfl

theorem positionToOffset_behind {post : Text} (here : LineAt pre n start) :
    positionToOffset (pre ++ post) n (utf16Len (pre.drop start)) = some (pre.length : ℤ) := by
  obtain ⟨bound, lines, rfl, offset, splits⟩ := here
  obtain ⟨first, rest, split⟩ := List.exists_cons_of_ne_nil (List.splitOn_ne_nil '\n' post)
  have spent := spendUnits_exact (pre.drop start) first 0
  rw [zero_add] at spent
  rw [positionToOffset_numbered _ (splits post first rest split), spent, offset, List.length_drop]
  congr 1
  omega

end

/-! ## Spans -/

/-- A span of the text that starts at the offset, with the line and column that the lexer counts there. -/
structure SourceSpan.Starts (span : SourceSpan) (text : Text) (o : ℕ) : Prop where
  inside : o ≤ text.length
  source : span.source = text
  offset : span.offset = o
  place : (span.line, span.column) = placeBehind (text.take o)

/-- A span of the text that ends at the offset. -/
def SourceSpan.Ends (span : SourceSpan) (text : Text) (o : ℕ) : Prop :=
  o ≤ text.length ∧ ∃ a, span.Starts text a ∧ a ≤ o ∧ span.length = (o : ℤ) - a

theorem slice_cast (s : Text) (start stop : ℕ) : slice s start stop = (s.take stop).drop start := by
  rw [slice, Int.toNat_natCast, Int.toNat_natCast]

section

variable {span : SourceSpan} {text : Text} {o : ℕ}

/-- The line that a span starts on. -/
theorem SourceSpan.Starts.line (starts : span.Starts text o) :
    ∃ n start, LineAt (text.take o) n start ∧ span.line = (n : ℤ) + 1 ∧ span.offset - (span.column - 1) = start := by
  obtain ⟨n, start, here, place⟩ := exists_lineAt (text.take o)
  have both := starts.place.trans place
  have line : span.line = (n : ℤ) + 1 := congrArg Prod.fst both
  have column : span.column = ((text.take o).length : ℤ) - start + 1 := congrArg Prod.snd both
  rw [List.length_take, Nat.min_eq_left starts.inside] at column
  refine ⟨n, start, here, line, ?_⟩
  rw [starts.offset, column]
  omega

theorem SourceSpan.Starts.column_nil (starts : span.Starts [] o) : span.column = 1 := by
  have place := starts.place
  rw [List.take_nil] at place
  exact congrArg Prod.snd place

/-- The range of a span whose text has been walked. -/
theorem spanToRange_walked {endLine endLineStart walked : ℤ}
    (run : (codePoints span.text).foldl (walkSpan span.offset) (span.line, span.offset - (span.column - 1), 0) =
      (endLine, endLineStart, walked)) :
    spanToRange span = if span.source = [] then ⟨⟨span.line - 1, span.column - 1⟩, ⟨endLine - 1, span.column - 1⟩⟩ else
      ⟨⟨span.line - 1, utf16Len (slice span.source (span.offset - (span.column - 1)) span.offset)⟩,
        ⟨endLine - 1, utf16Len (slice span.source endLineStart (span.offset + span.length))⟩⟩ := by
  rw [spanToRange, run]

theorem start_position (starts : span.Starts text o) :
    ∃ n start, LineAt (text.take o) n start ∧ (spanToRange span).start = ⟨n, utf16Len ((text.take o).drop start)⟩ := by
  obtain ⟨n, start, here, line, lineStart⟩ := starts.line
  refine ⟨n, start, here, ?_⟩
  rw [spanToRange_walked rfl, lineStart, line, starts.source, starts.offset, slice_cast, add_sub_cancel_right]
  split
  · rename_i empty
    subst empty
    rw [starts.column_nil, List.take_nil, List.drop_nil]
    rfl
  · rfl

theorem stop_position (ends : span.Ends text o) :
    ∃ n start, LineAt (text.take o) n start ∧ (spanToRange span).stop = ⟨n, utf16Len ((text.take o).drop start)⟩ := by
  obtain ⟨inside, a, starts, a_le, length⟩ := ends
  obtain ⟨n, start, here, line, lineStart⟩ := starts.line
  have stop : span.offset + span.length = o := by
    rw [starts.offset, length]
    omega
  have spanned : span.text = (text.take o).drop a := by
    rw [SourceSpan.text, starts.source, stop, starts.offset, slice_cast]
  have whole : text.take a ++ (text.take o).drop a = text.take o := by
    have front : (text.take o).take a = text.take a := by rw [List.take_take, Nat.min_eq_left a_le]
    rw [← front, List.take_append_drop]
  obtain ⟨n', start', there, run⟩ := walkSpan_spec here ((text.take o).drop a)
  rw [whole] at there
  rw [List.length_take, Nat.min_eq_left starts.inside, ← starts.offset, ← line, ← lineStart, ← spanned] at run
  refine ⟨n', start', there, ?_⟩
  rw [spanToRange_walked run, stop, starts.source, slice_cast, add_sub_cancel_right]
  split
  · rename_i empty
    subst empty
    rw [starts.column_nil, List.take_nil, List.drop_nil]
    rfl
  · rfl

end

theorem offset_of_line {text : Text} {o n start : ℕ} (here : LineAt (text.take o) n start) (inside : o ≤ text.length) :
    positionToOffset text n (utf16Len ((text.take o).drop start)) = some (o : ℤ) := by
  have back := @positionToOffset_behind _ _ _ (text.drop o) here
  rwa [List.take_append_drop, List.length_take, Nat.min_eq_left inside] at back

/-! ## Positions out of range -/

/-- Line `n` of the text stands behind `before` and reads `current`, up to a newline or the end of the text. -/
structure IsLine (text : Text) (n : ℕ) (before current : Text) : Prop where
  count : before.count '\n' = n
  starts : before = [] ∨ ∃ pre, before = pre ++ ['\n']
  newline_free : '\n' ∉ current
  reads : ∃ after, text = before ++ (current ++ after) ∧ (after = [] ∨ ∃ rest, after = '\n' :: rest)

/-- The first line of a text. -/
theorem exists_first_line (text : Text) :
    ∃ current after, text = current ++ after ∧ '\n' ∉ current ∧ (after = [] ∨ ∃ rest, after = '\n' :: rest) := by
  induction text with
  | nil => exact ⟨[], [], rfl, List.not_mem_nil, .inl rfl⟩
  | cons c text ih =>
    by_cases newline : c = '\n'
    · subst newline
      exact ⟨[], _, rfl, List.not_mem_nil, .inr ⟨text, rfl⟩⟩
    · obtain ⟨current, after, reads, free, ended⟩ := ih
      refine ⟨c :: current, after, by rw [reads]; rfl, ?_, ended⟩
      rintro (_ | ⟨_, later⟩)
      · exact newline rfl
      · exact free later

theorem LineAt.append {pre current : Text} {n start : ℕ} (here : LineAt pre n start) (free : '\n' ∉ current) :
    LineAt (pre ++ current) n start := by
  induction current generalizing pre with
  | nil => rwa [List.append_nil]
  | cons c current ih =>
    rw [List.append_cons]
    exact ih (here.other fun same => free (same ▸ List.mem_cons_self)) fun later => free (List.mem_cons_of_mem c later)

theorem exists_line {text : Text} {n : ℕ} (inside : n ≤ text.count '\n') :
    ∃ before current, IsLine text n before current ∧ LineAt before n before.length := by
  induction n with
  | zero =>
    obtain ⟨current, after, reads, free, ended⟩ := exists_first_line text
    exact ⟨[], current, ⟨rfl, .inl rfl, free, after, reads, ended⟩, .nil⟩
  | succ n ih =>
    obtain ⟨before, current, ⟨count, _, free, after, reads, ended⟩, here⟩ := ih (Nat.le_of_succ_le inside)
    have none : current.count '\n' = 0 := List.count_eq_zero.mpr free
    rw [reads, List.count_append, List.count_append, count, none] at inside
    obtain rfl | ⟨rest, rfl⟩ := ended
    · rw [List.count_nil] at inside
      omega
    · obtain ⟨next, after, next_reads, next_free, next_ended⟩ := exists_first_line rest
      refine ⟨before ++ current ++ ['\n'], next, ⟨?_, .inr ⟨_, rfl⟩, next_free, after, ?_, next_ended⟩, ?_⟩
      · rw [List.count_append, List.count_append, count, none]
        rfl
      · rw [reads, next_reads]
        simp
      · have line := (here.append free).newline
        rwa [show (before ++ current ++ ['\n']).length = (before ++ current).length + 1 from List.length_append]

theorem length_splitOn_newline (text : Text) : (text.splitOn '\n').length = text.count '\n' + 1 := by
  induction text with
  | nil => rfl
  | cons c text ih =>
    by_cases newline : c = '\n'
    · subst newline
      rw [splitOn_newline, List.length_cons, ih, List.count_cons_self]
    · obtain ⟨first, rest, split⟩ := List.exists_cons_of_ne_nil (List.splitOn_ne_nil '\n' text)
      rw [splitOn_other newline split, List.length_cons, show rest.length + 1 = (first :: rest).length from rfl, ← split, ih, List.count_cons_of_ne newline]

theorem splitOn_free {current : Text} {after : Text} (free : '\n' ∉ current) (ended : after = [] ∨ ∃ rest, after = '\n' :: rest) :
    ∃ rest, (current ++ after).splitOn '\n' = current :: rest := by
  induction current with
  | nil =>
    obtain rfl | ⟨rest, rfl⟩ := ended
    · exact ⟨[], rfl⟩
    · exact ⟨_, splitOn_newline rest⟩
  | cons c current ih =>
    obtain ⟨rest, split⟩ := ih fun later => free (List.mem_cons_of_mem c later)
    exact ⟨rest, splitOn_other (fun same => free (same ▸ List.mem_cons_self)) split⟩

/-- Where the units of a position lead on a line: as far as they suffice for whole characters, and never behind the line. -/
def Reaches (current : Text) (character : ℤ) (k : ℕ) : Prop :=
  k ≤ current.length ∧ (0 ≤ character → utf16Len (current.take k) ≤ character) ∧
    (k < current.length → character < utf16Len (current.take (k + 1)))

theorem positionToOffset_line {text before current : Text} {n : ℕ} (character : ℤ) (line : IsLine text n before current)
    (here : LineAt before n before.length) :
    ∃ k, Reaches current character k ∧ positionToOffset text n character = some ((before.length + k : ℕ) : ℤ) := by
  obtain ⟨_, _, free, after, reads, ended⟩ := line
  obtain ⟨_, lines, rfl, offset, splits⟩ := here
  obtain ⟨rest, split⟩ := splitOn_free free ended
  have whole := splits _ _ _ split
  rw [← reads, List.drop_length, List.nil_append] at whole
  obtain ⟨k, run, bound, within, stops⟩ := spendUnits_spec current character 0
  rw [zero_add] at within stops
  refine ⟨k, ⟨bound, within, stops⟩, ?_⟩
  rw [positionToOffset_numbered character whole, run, offset]
  rfl

theorem positionToOffset_beyond {text : Text} {line : ℤ} (character : ℤ) (beyond : (text.count '\n' : ℤ) < line) :
    positionToOffset text line character = some (text.length : ℤ) := by
  rw [positionToOffset, if_pos]
  rw [length_splitOn_newline]
  push_cast
  omega

/-- The position that a span reports for the offset it starts or ends at leads back to the offset; every position on a line from 0 on
leads to an offset on that line, or to the end of the text when there is no such line. -/
theorem positions_and_offsets (text : Text) :
    (∀ span o, SourceSpan.Starts span text o →
      positionToOffset text (spanToRange span).start.line (spanToRange span).start.character = some (o : ℤ)) ∧
    (∀ span o, SourceSpan.Ends span text o →
      positionToOffset text (spanToRange span).stop.line (spanToRange span).stop.character = some (o : ℤ)) ∧
    (∀ (line : ℕ) (character : ℤ), line ≤ text.count '\n' → ∃ before current k, IsLine text line before current ∧
      Reaches current character k ∧ positionToOffset text line character = some ((before.length + k : ℕ) : ℤ)) ∧
    (∀ (line : ℕ) (character : ℤ), text.count '\n' < line → positionToOffset text line character = some (text.length : ℤ)) := by
  refine ⟨?_, ?_, ?_, ?_⟩
  · intro span o starts
    obtain ⟨n, start, here, position⟩ := start_position starts
    rw [position]
    exact offset_of_line here starts.inside
  · intro span o ends
    obtain ⟨n, start, here, position⟩ := stop_position ends
    rw [position]
    exact offset_of_line here ends.1
  · intro line character inside
    obtain ⟨before, current, is_line, here⟩ := exists_line inside
    obtain ⟨k, reaches, offset⟩ := positionToOffset_line character is_line here
    exact ⟨before, current, k, is_line, reaches, offset⟩
  · intro line character beyond
    exact positionToOffset_beyond character (by exact_mod_cast beyond)

end Thera.Lsp
