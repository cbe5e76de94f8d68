import Thera.Proofs.Frontend.StringLiteral

/-! # Text blocks

The text of a block is its lines without the common margin and without trailing whitespace. Both are
measured on the characters as written, so neither an escaped blank nor an interpolation is trimmed.
-/

namespace Thera.Frontend

namespace Piece

/-- A space or tab as written. -/
def isIndent : Piece → Bool
  | plain c => c == Ch.space || c == Ch.tab
  | _ => false

/-- Whitespace as written. -/
def isBlank : Piece → Bool
  | plain c => Ch.isWhitespace c
  | _ => false

end Piece

/-- The indentation of a line. -/
def indentOf (line : List Piece) : List Piece := line.takeWhile Piece.isIndent

/-- A line without its indentation and its trailing whitespace; empty for a blank line. -/
def bodyOf (line : List Piece) : List Piece := (line.dropWhile Piece.isIndent).rdropWhile Piece.isBlank

/-- Put a piece behind the current line, which a newline ends. -/
def feedLine (state : List (List Piece) × List Piece) (piece : Piece) : List (List Piece) × List Piece :=
  if piece = .plain Ch.lf then (state.1 ++ [state.2], []) else (state.1, state.2 ++ [piece])

/-- The lines of a block, the one with the closing delimiter apart. -/
def linesOf (pieces : List Piece) : List (List Piece) × List Piece := pieces.foldl feedLine ([], [])

/-- The least indentation of the lines that are not blank and of the line the delimiter has to itself. -/
def marginOf (content : List (List Piece)) (own : List (List Piece)) : ℕ :=
  (((content.filter fun line => bodyOf line ≠ []) ++ own).map fun line => (indentOf line).length).min?.getD 0

/-- A line once the margin is stripped. -/
def lineText (margin : ℕ) (line : List Piece) : List Piece :=
  if bodyOf line = [] then [] else (indentOf line).drop margin ++ bodyOf line

/-- The text of a block: its lines, the last one included unless the delimiter has it to itself. -/
def blockText (pieces : List Piece) : List Piece :=
  let (lines, last) := linesOf pieces
  if bodyOf last = [] then
    List.intercalate [.plain Ch.lf] (lines.map (lineText (marginOf lines [last]))) ++
      (if lines = [] then [] else [.plain Ch.lf])
  else List.intercalate [.plain Ch.lf] ((lines ++ [last]).map (lineText (marginOf (lines ++ [last]) [])))

/-! ## Lines -/

/-- A captured line holds these pieces. -/
structure Captures (line : TextLine) (pieces : List Piece) : Prop where
  ws : line.ws.map .plain = indentOf pieces
  text : line.text = (pieces.dropWhile Piece.isIndent).flatMap (Piece.encode false)
  keep : line.keep = ((bodyOf pieces).flatMap (Piece.encode false)).length

theorem pushLiteral_ne_nil (c : ℕ) : pushLiteral c ≠ [] := by
  unfold pushLiteral
  split <;> exact List.cons_ne_nil _ _

theorem encode_ne_nil (piece : Piece) : piece.encode false ≠ [] := by
  cases piece with
  | plain c | escaped c => exact pushLiteral_ne_nil c
  | interp => exact List.cons_ne_nil _ _

theorem Captures.empty : Captures TextLine.empty [] := ⟨rfl, rfl, rfl⟩

variable {line cur : TextLine} {pieces : List Piece} {lines : List TextLine} {inIndent : Bool}
  {state : List (List Piece) × List Piece}

/-- A line is blank when nothing of it is kept. -/
theorem Captures.keep_pos (captures : Captures line pieces) : 0 < line.keep ↔ bodyOf pieces ≠ [] := by
  rw [captures.keep, List.length_pos_iff, ne_eq, ne_eq, List.flatMap_eq_nil_iff]
  constructor
  · rintro some_ empty
    exact some_ (by simp [empty])
  · intro some_ empty
    obtain ⟨piece, member⟩ := List.exists_mem_of_ne_nil _ some_
    exact encode_ne_nil piece (empty piece member)

theorem Captures.kept (captures : Captures line pieces) :
    line.text.take line.keep = (bodyOf pieces).flatMap (Piece.encode false) := by
  obtain ⟨dropped, same⟩ := List.rdropWhile_prefix Piece.isBlank (l := pieces.dropWhile Piece.isIndent)
  rw [captures.keep, captures.text, ← same, List.flatMap_append]
  exact List.take_left

/-- Past the indentation, a piece joins the text. -/
theorem dropWhile_concat (pieces : List Piece) {piece : Piece}
    (text : piece.isIndent = false ∨ pieces.all Piece.isIndent = false) :
    (pieces ++ [piece]).takeWhile Piece.isIndent = pieces.takeWhile Piece.isIndent ∧
      (pieces ++ [piece]).dropWhile Piece.isIndent = pieces.dropWhile Piece.isIndent ++ [piece] := by
  induction pieces with
  | nil =>
    have plain : piece.isIndent = false := text.resolve_right (by simp)
    simp [plain]
  | cons first pieces ih =>
    cases indent : first.isIndent with
    | false => simp [indent]
    | true =>
      have tail := ih (text.imp_right fun mixed => by simpa [indent] using mixed)
      simp [indent, tail]

theorem bodyOf_concat {piece : Piece} (text : piece.isIndent = false ∨ pieces.all Piece.isIndent = false) :
    bodyOf (pieces ++ [piece]) =
      if piece.isBlank then bodyOf pieces else pieces.dropWhile Piece.isIndent ++ [piece] := by
  rw [bodyOf, (dropWhile_concat pieces text).2, List.rdropWhile_concat]
  rfl

theorem Captures.indent (captures : Captures line pieces) {c : ℕ} (inIndent : pieces.all Piece.isIndent = true)
    (blank : Piece.isIndent (.plain c) = true) :
    Captures { line with ws := line.ws ++ [c] } (pieces ++ [.plain c]) := by
  have all : ∀ piece ∈ pieces ++ [.plain c], Piece.isIndent piece = true := by
    intro piece member
    rcases List.mem_append.mp member with early | last
    · exact List.all_eq_true.mp inIndent piece early
    · rw [List.mem_singleton.mp last]
      exact blank
  have allBefore : ∀ piece ∈ pieces, Piece.isIndent piece = true := fun piece member => all piece (by simp [member])
  have ws := captures.ws
  rw [indentOf, List.takeWhile_eq_self_iff.mpr allBefore] at ws
  have noneBefore := List.dropWhile_eq_nil_iff.mpr allBefore
  have none_ := List.dropWhile_eq_nil_iff.mpr all
  refine ⟨?_, ?_, ?_⟩
  · rw [indentOf, List.takeWhile_eq_self_iff.mpr all, List.map_append, ws]
    rfl
  · rw [none_]
    exact captures.text.trans (by rw [noneBefore])
  · rw [bodyOf, none_]
    exact captures.keep.trans (by rw [bodyOf, noneBefore])

theorem Captures.decoded (captures : Captures line pieces) {piece : Piece} (visible : piece.isBlank = false)
    (text : piece.isIndent = false) : Captures (line.decoded (piece.encode false)) (pieces ++ [piece]) := by
  obtain ⟨same, tail⟩ := dropWhile_concat pieces (.inl text)
  have whole : line.text ++ piece.encode false =
      ((pieces ++ [piece]).dropWhile Piece.isIndent).flatMap (Piece.encode false) := by
    rw [tail, List.flatMap_append, ← captures.text]
    simp
  refine ⟨captures.ws.trans same.symm, whole, ?_⟩
  rw [bodyOf_concat (.inl text), visible, ← tail]
  exact congrArg List.length whole

theorem Captures.plain {line : TextLine} {pieces : List Piece} (captures : Captures line pieces) {c : ℕ}
    (text : Piece.isIndent (.plain c) = false ∨ pieces.all Piece.isIndent = false) :
    Captures (line.plain c) (pieces ++ [.plain c]) := by
  obtain ⟨same, tail⟩ := dropWhile_concat pieces text
  have whole : line.text ++ pushLiteral c =
      ((pieces ++ [Piece.plain c]).dropWhile Piece.isIndent).flatMap (Piece.encode false) := by
    rw [tail, List.flatMap_append, ← captures.text]
    simp [Piece.encode]
  refine ⟨captures.ws.trans same.symm, whole, ?_⟩
  rw [bodyOf_concat text, ← tail]
  change (if Ch.isWhitespace c = true then line.keep else (line.text ++ pushLiteral c).length) = _
  change _ = (List.flatMap _ (if Ch.isWhitespace c = true then _ else _)).length
  split
  · exact captures.keep
  · exact congrArg List.length whole

/-! ## Reading a block -/

/-- The scanner's lines hold the lines of the pieces read so far. -/
structure Holds (lines : List TextLine) (cur : TextLine) (inIndent : Bool) (state : List (List Piece) × List Piece) :
    Prop where
  lines : List.Forall₂ Captures lines state.1
  cur : Captures cur state.2
  inIndent : inIndent = state.2.all Piece.isIndent

theorem Holds.newline (holds : Holds lines cur inIndent state) :
    Holds (lines ++ [cur]) TextLine.empty true (feedLine state (.plain Ch.lf)) := by
  rw [feedLine, if_pos rfl]
  exact ⟨List.rel_append holds.lines (.cons holds.cur .nil), Captures.empty, rfl⟩

theorem Holds.indent {c : ℕ} (holds : Holds lines cur true state) (blank : c = Ch.space ∨ c = Ch.tab) :
    Holds lines { cur with ws := cur.ws ++ [c] } true (feedLine state (.plain c)) := by
  have isIndent : Piece.isIndent (.plain c) = true := by simpa [Piece.isIndent] using blank
  rw [feedLine, if_neg (by rcases blank with rfl | rfl <;> decide)]
  exact ⟨holds.lines, holds.cur.indent holds.inIndent.symm isIndent, by simp [← holds.inIndent, isIndent]⟩

theorem Holds.decoded (holds : Holds lines cur inIndent state) (piece : Piece) (visible : piece.isBlank = false) :
    Holds lines (cur.decoded (piece.encode false)) false (feedLine state piece) := by
  have text : piece.isIndent = false := by
    cases piece with
    | plain c => grind [Piece.isBlank, Piece.isIndent, Ch.isWhitespace]
    | _ => rfl
  have inside : piece ≠ .plain Ch.lf := by
    rintro rfl
    cases visible
  rw [feedLine, if_neg inside]
  exact ⟨holds.lines, holds.cur.decoded visible text, by simp [text]⟩

theorem Holds.plain {lines : List TextLine} {cur : TextLine} {inIndent : Bool}
    {state : List (List Piece) × List Piece} {c : ℕ} (holds : Holds lines cur inIndent state) (inside : c ≠ Ch.lf)
    (text : ¬ (inIndent = true ∧ (c = Ch.space ∨ c = Ch.tab))) :
    Holds lines (cur.plain c) false (feedLine state (.plain c)) := by
  have past : Piece.isIndent (.plain c) = false ∨ state.2.all Piece.isIndent = false := by
    rw [← holds.inIndent]
    cases inIndent with
    | false => exact .inr rfl
    | true => exact .inl (by simpa [Piece.isIndent] using text)
  rw [feedLine, if_neg (by simpa using inside)]
  refine ⟨holds.lines, holds.cur.plain past, ?_⟩
  rw [List.all_append]
  rcases past with piece | before <;> simp [*]

theorem closesThree_eq (quote c : ℕ) (rest : List ℕ) :
    closesThree quote (c :: rest) =
      if c = quote ∧ rest.head? = some quote ∧ rest.tail.head? = some quote then some rest.tail.tail else none := by
  rcases rest with _ | ⟨d, _ | ⟨e, rest⟩⟩ <;> simp [closesThree]

/-- A block that closes without a report was read piece by piece into its lines. -/
theorem scanTextLines_written {total quote : ℕ} {rest : List ℕ} (holds : Holds lines cur inIndent state)
    (within : rest.length ≤ total) (ends : (scanTextLines total quote lines cur inIndent rest).closed = true)
    (clean : (scanTextLines total quote lines cur inIndent rest).errors = []) :
    ∃ pieces lines' cur' indented after, Written total (closesThree quote) rest pieces after ∧
      Holds lines' cur' indented (pieces.foldl feedLine state) ∧
      scanTextLines total quote lines cur inIndent rest =
        ⟨lines', cur', true, pieces.filterMap Piece.region?, [], after⟩ := by
  fun_induction scanTextLines total quote lines cur inIndent rest generalizing state with
  | case1 => cases ends
  | case2 lines cur inIndent c rest closes =>
    exact ⟨[], lines, cur, inIndent, rest.tail.tail, .close (by rw [closesThree_eq, if_pos closes]), holds, rfl⟩
  | case3 lines cur inIndent rest goes ih =>
    obtain ⟨pieces, lines', cur', indented, after, written, held, read⟩ :=
      ih holds.newline (Nat.le_of_succ_le within) ends clean
    exact ⟨.plain Ch.lf :: pieces, lines', cur', indented, after,
      .plain (by rw [closesThree_eq, if_neg goes]) (by decide) (fun dollar => absurd dollar.1 (by decide)) written,
      held, read⟩
  | case4 lines cur inIndent c rest goes inside blank ih =>
    obtain ⟨rfl, space⟩ := blank
    obtain ⟨pieces, lines', cur', indented, after, written, held, read⟩ :=
      ih (holds.indent space) (Nat.le_of_succ_le within) ends clean
    have text : c ≠ Ch.backslash ∧ c ≠ Ch.dollar := by rcases space with rfl | rfl <;> decide
    exact ⟨.plain c :: pieces, lines', cur', indented, after,
      .plain (by rw [closesThree_eq, if_neg goes]) text.1 (fun dollar => text.2 dollar.1) written, held, read⟩
  | case5 =>
    rw [scanTextLines] at ends
    cases ends
  | case6 lines cur inIndent e rest escape inside indent goes =>
    rename_i ih
    obtain ⟨escapeClean, clean⟩ := List.append_eq_nil_iff.mp clean
    obtain ⟨c, middle, decodes, scanned⟩ := scanStringEscape_escape escapeClean
    have shorter := length_scanStringEscape (total - (rest.length + 2)) e rest
    simp only [List.length_cons] at within
    have fed : Holds lines (cur.decoded escape.buf) false (feedLine state (.escaped c)) := by
      rw [show escape.buf = _ from congrArg Scanned.buf scanned]
      exact holds.decoded (.escaped c) rfl
    obtain ⟨pieces, lines', cur', indented, after, written, held, read⟩ :=
      ih fed (Nat.le_trans shorter (by omega)) ends clean
    rw [show escape.rest = _ from congrArg Scanned.rest scanned] at written
    refine ⟨.escaped c :: pieces, lines', cur', indented, after,
      .escaped (by rw [closesThree_eq, if_neg goes]) decodes written, held, ?_⟩
    rw [read, escapeClean]
    rfl
  | case7 lines cur inIndent c rest goes inside indent text opening interp =>
    rename_i ih
    obtain ⟨rfl, brace⟩ := opening
    have shorter := length_scanInterpolation total rest.tail
    have size : rest.tail.length + 2 ≤ total := by
      rw [← List.cons_head?_tail brace] at within
      exact within
    have more : interp.rest ≠ [] := by
      intro ended
      rw [ended, scanTextLines] at ends
      cases ends
    obtain ⟨source, middle, interpolated, scanned⟩ := scanInterpolation_interpolated (by omega) more
    let piece : Piece := .interp ⟨total - rest.tail.length, source.length⟩ source
    have fed : Holds lines (cur.decoded interp.buf) false (feedLine state piece) := by
      rw [show interp.buf = _ from congrArg Scanned.buf scanned]
      exact holds.decoded piece rfl
    obtain ⟨pieces, lines', cur', indented, after, written, held, read⟩ :=
      ih fed (Nat.le_trans shorter (by omega)) ends clean
    rw [show interp.rest = _ from congrArg Scanned.rest scanned] at written
    refine ⟨piece :: pieces, lines', cur', indented, after, ?_, held, ?_⟩
    · rw [← List.cons_head?_tail brace] at goes ⊢
      exact .interp (by rw [closesThree_eq, if_neg goes]) interpolated written
    · rw [read, show interp.interps = _ from congrArg Scanned.interps scanned]
      rfl
  | case8 lines cur inIndent c rest goes inside indent text single ih =>
    obtain ⟨pieces, lines', cur', indented, after, written, held, read⟩ :=
      ih (holds.plain inside indent) (Nat.le_of_succ_le within) ends clean
    exact ⟨.plain c :: pieces, lines', cur', indented, after,
      .plain (by rw [closesThree_eq, if_neg goes]) text single written, held, read⟩

/-! ## The value of a block -/

theorem flatMap_intercalate {α β : Type} (f : α → List β) (separator : List α) (lists : List (List α)) :
    (List.intercalate separator lists).flatMap f =
      List.intercalate (separator.flatMap f) (lists.map (List.flatMap f)) := by
  induction lists with
  | nil => rfl
  | cons list lists ih =>
    cases lists with
    | nil => simp
    | cons next lists =>
      rw [List.intercalate_cons_cons, List.flatMap_append, List.flatMap_append, ih, List.map_cons, List.map_cons,
        List.map_cons, List.intercalate_cons_cons]

theorem Captures.length_ws (captures : Captures line pieces) : line.ws.length = (indentOf pieces).length := by
  rw [← captures.ws, List.length_map]

/-- A line's value is the encoding of its text. -/
theorem Captures.value (captures : Captures line pieces) (margin : ℕ) :
    line.value margin = (lineText margin pieces).flatMap (Piece.encode false) := by
  have blank : ∀ piece ∈ indentOf pieces, Piece.encode false piece = piece.char?.toList := by
    intro piece member
    have isIndent := List.mem_takeWhile_imp member
    cases piece with
    | plain c => grind [Piece.isIndent, Piece.encode, pushLiteral, Piece.char?, Ch.space, Ch.tab, Ch.backslash, Ch.dollar]
    | escaped c | interp => cases isIndent
  rw [TextLine.value, lineText]
  by_cases empty : bodyOf pieces = []
  · rw [if_pos empty, if_neg fun kept => captures.keep_pos.mp kept empty]
    rfl
  · rw [if_neg empty, if_pos (captures.keep_pos.mpr empty), captures.kept, List.flatMap_append]
    congr 1
    rw [List.flatMap_congr fun piece member => blank piece (List.mem_of_mem_drop member), ← captures.ws,
      ← List.map_drop, List.flatMap_map]
    simp [Piece.char?]

theorem min?_concat (lengths : List ℕ) (length : ℕ) :
    (lengths ++ [length]).min? = if lengths.min?.all (length < ·) then some length else lengths.min? := by
  cases lengths with
  | nil => rfl
  | cons first lengths =>
    rw [List.cons_append, List.min?_cons', List.min?_cons', List.foldl_append]
    simp only [List.foldl_cons, List.foldl_nil, Option.all_some, decide_eq_true_eq]
    split <;> congr 1 <;> omega

/-- The scanner's running minimum is the least indentation. -/
theorem leastIndent_eq {content : List (List Piece)} (captured : List.Forall₂ Captures lines content) (seen : List ℕ) :
    leastIndent seen.min? lines =
      (seen ++ (content.filter fun line => bodyOf line ≠ []).map fun line => (indentOf line).length).min? := by
  induction captured generalizing seen with
  | nil => rw [List.filter_nil, List.map_nil, List.append_nil]; rfl
  | @cons line pieces lines content head _ ih =>
    rw [leastIndent, List.foldl_cons]
    by_cases empty : bodyOf pieces = []
    · rw [if_neg fun kept => head.keep_pos.mp kept.1 empty, List.filter_cons_of_neg (by simpa using empty)]
      exact ih seen
    · have step := min?_concat seen line.ws.length
      have next := ih (seen ++ [line.ws.length])
      simp only [head.keep_pos.mpr empty, true_and]
      rw [← step, List.filter_cons_of_pos (by simpa using empty), List.map_cons, ← head.length_ws]
      rw [leastIndent, List.append_assoc] at next
      exact next

/-- The captured value of a block is the encoding of its text. -/
theorem Holds.value {indented : Bool} (holds : Holds lines cur indented (linesOf pieces)) (interps : List Region)
    (errors : List LexError) (rest : List ℕ) :
    TextBlock.value ⟨lines, cur, true, interps, errors, rest⟩ =
      (blockText pieces).flatMap (Piece.encode false) := by
  have values (margin : ℕ) {lines : List TextLine} {content : List (List Piece)}
      (captured : List.Forall₂ Captures lines content) :
      lines.map (TextLine.value margin) =
        (content.map (lineText margin)).map (List.flatMap (Piece.encode false)) := by
    induction captured with
    | nil => rfl
    | cons head _ ih => rw [List.map_cons, List.map_cons, List.map_cons, head.value margin, ih]
  have separator : [Ch.lf] = [Piece.plain Ch.lf].flatMap (Piece.encode false) := by decide
  rcases split : linesOf pieces with ⟨content, last⟩
  rw [split] at holds
  unfold TextBlock.value blockText
  rw [split]
  by_cases own : bodyOf last = []
  · have blank : cur.keep = 0 := Nat.eq_zero_of_not_pos fun kept => holds.cur.keep_pos.mp kept own
    have least : leastIndent none lines = _ := leastIndent_eq holds.lines []
    have margin := min?_concat ((content.filter fun line => bodyOf line ≠ []).map fun line => (indentOf line).length)
      (indentOf last).length
    have size : 0 < lines.length ↔ content ≠ [] := by rw [holds.lines.length_eq, List.length_pos_iff]
    rw [List.nil_append] at least
    simp only [blank, beq_self_eq_true, Bool.and_self, if_true, true_and, least, own, holds.cur.length_ws, ← margin, size]
    rw [values _ holds.lines, separator, ← flatMap_intercalate, marginOf, List.map_append, List.flatMap_append]
    congr 1
    by_cases empty : content = [] <;> simp [empty]
  · have kept : (cur.keep == 0) = false := by
      have positive := holds.cur.keep_pos.mpr own
      simp only [beq_eq_false_iff_ne]
      omega
    have all : List.Forall₂ Captures (lines ++ [cur]) (content ++ [last]) :=
      List.rel_append holds.lines (.cons holds.cur .nil)
    have least : leastIndent none (lines ++ [cur]) = _ := leastIndent_eq all []
    rw [List.nil_append] at least
    simp only [kept, Bool.and_false, Bool.false_eq_true, if_false, false_and, least, own, List.append_nil]
    rw [values _ all, separator, ← flatMap_intercalate, marginOf, List.append_nil]

/-! ## Nothing but whitespace is dropped -/

/-- The piece, if it is an interpolation. -/
def Piece.interp? : Piece → List Piece
  | interp region source => [interp region source]
  | _ => []

theorem regions_eq (pieces : List Piece) :
    pieces.filterMap Piece.region? = (pieces.flatMap Piece.interp?).filterMap Piece.region? := by
  induction pieces with
  | nil => rfl
  | cons piece pieces ih => cases piece <;> simp [List.filterMap_cons, Piece.interp?, Piece.region?, ih]

theorem interp?_of_isIndent {line : List Piece} (blank : ∀ piece ∈ line, piece.isIndent = true) :
    line.flatMap Piece.interp? = [] := by
  rw [List.flatMap_eq_nil_iff]
  intro piece member
  cases piece with
  | interp => cases blank _ member
  | _ => rfl

theorem interp?_of_isBlank {line : List Piece} (blank : ∀ piece ∈ line, piece.isBlank = true) :
    line.flatMap Piece.interp? = [] := by
  rw [List.flatMap_eq_nil_iff]
  intro piece member
  cases piece with
  | interp => cases blank _ member
  | _ => rfl

theorem interps_bodyOf (line : List Piece) : (bodyOf line).flatMap Piece.interp? = line.flatMap Piece.interp? := by
  have trimmed : line.dropWhile Piece.isIndent =
      bodyOf line ++ (line.dropWhile Piece.isIndent).rtakeWhile Piece.isBlank :=
    (List.rdropWhile_append_rtakeWhile ..).symm
  conv_rhs => rw [← List.takeWhile_append_dropWhile (p := Piece.isIndent) (l := line), trimmed]
  have dropped : ((line.dropWhile Piece.isIndent).rtakeWhile Piece.isBlank).flatMap Piece.interp? = [] :=
    interp?_of_isBlank fun _ => List.mem_rtakeWhile_imp
  rw [List.flatMap_append, List.flatMap_append, interp?_of_isIndent fun _ => List.mem_takeWhile_imp, dropped,
    List.nil_append, List.append_nil]

theorem interps_lineText (margin : ℕ) (line : List Piece) :
    (lineText margin line).flatMap Piece.interp? = line.flatMap Piece.interp? := by
  rw [lineText, ← interps_bodyOf line]
  split
  next empty => rw [empty]
  next =>
    have blank : ∀ piece ∈ (indentOf line).drop margin, piece.isIndent = true :=
      fun _ member => List.mem_takeWhile_imp (List.mem_of_mem_drop member)
    rw [List.flatMap_append, interp?_of_isIndent blank, List.nil_append]

theorem interps_linesOf (pieces : List Piece) :
    ((linesOf pieces).1 ++ [(linesOf pieces).2]).flatMap (List.flatMap Piece.interp?) =
      pieces.flatMap Piece.interp? := by
  have general (pieces : List Piece) (state : List (List Piece) × List Piece) :
      ((pieces.foldl feedLine state).1 ++ [(pieces.foldl feedLine state).2]).flatMap (List.flatMap Piece.interp?) =
        (state.1 ++ [state.2]).flatMap (List.flatMap Piece.interp?) ++ pieces.flatMap Piece.interp? := by
    induction pieces generalizing state with
    | nil => simp
    | cons piece pieces ih =>
      rw [List.foldl_cons, ih, feedLine]
      split
      next newline => simp [newline, Piece.interp?]
      next => simp
  exact general pieces ([], [])

theorem interps_intercalate (margin : ℕ) (lines : List (List Piece)) :
    (List.intercalate [.plain Ch.lf] (lines.map (lineText margin))).flatMap Piece.interp? =
      lines.flatMap (List.flatMap Piece.interp?) := by
  induction lines with
  | nil => rfl
  | cons line lines ih =>
    cases lines with
    | nil => simp [interps_lineText]
    | cons next lines =>
      rw [List.map_cons, List.map_cons] at *
      rw [List.intercalate_cons_cons, List.flatMap_append, List.flatMap_append, ih, interps_lineText, List.flatMap_cons]
      simp [Piece.interp?]

/-- A block's text has all its interpolations, in order. -/
theorem interps_blockText (pieces : List Piece) :
    (blockText pieces).flatMap Piece.interp? = pieces.flatMap Piece.interp? := by
  rw [← interps_linesOf pieces, blockText]
  rcases linesOf pieces with ⟨lines, last⟩
  dsimp only
  split
  next empty =>
    have none_ : last.flatMap Piece.interp? = [] := by rw [← interps_bodyOf, empty]; rfl
    rw [List.flatMap_append, interps_intercalate, List.flatMap_append]
    split <;> simp [none_, Piece.interp?]
  next => exact interps_intercalate ..

theorem mem_interps {region : Region} {source : List ℕ} :
    .interp region source ∈ pieces.flatMap Piece.interp? ↔ .interp region source ∈ pieces := by
  rw [List.mem_flatMap]
  constructor
  · rintro ⟨piece, member, found⟩
    cases piece with
    | interp =>
      rw [List.mem_singleton.mp found]
      exact member
    | _ => cases found
  · exact fun member => ⟨_, member, List.mem_singleton_self _⟩

theorem splittable_of_closes (closes : ∀ region source, .interp region source ∈ pieces → Closes source) :
    Splittable false pieces := by
  induction pieces with
  | nil => trivial
  | cons piece pieces ih =>
    have tail := ih fun region source member => closes region source (List.mem_cons_of_mem _ member)
    cases piece with
    | plain c => exact ⟨fun bare => absurd bare (by decide), tail⟩
    | escaped c => exact tail
    | interp region source => exact ⟨closes region source List.mem_cons_self, tail⟩

theorem Written.closes {total : ℕ} {ends : List ℕ → Option (List ℕ)} {rest after : List ℕ}
    (written : Written total ends rest pieces after) (region : Region) (source : List ℕ)
    (member : .interp region source ∈ pieces) : Closes source := by
  induction written with
  | close => cases member
  | plain goes text single tail ih | escaped goes decodes tail ih => exact ih (by simpa using member)
  | interp goes scanned tail ih =>
    rcases List.mem_cons.mp member with same | later
    · cases same
      exact scanned.closes
    · exact ih later

/-- A text block that lexes without a report captures the text it denotes. -/
theorem scanTextBlock_written {total start quote : ℕ} {rest : List ℕ} (within : rest.length ≤ total)
    (clean : (scanTextBlock total start quote rest).errors = []) :
    ∃ opening body pieces after, rest = opening ++ Ch.lf :: body ∧ (∀ c ∈ opening, Ch.isWhitespace c = true) ∧
      Ch.lf ∉ opening ∧ Written total (closesThree quote) body pieces after ∧ Splittable false (blockText pieces) ∧
      scanTextBlock total start quote rest = capture false (blockText pieces) after := by
  let blank (c : ℕ) : Bool := decide (c ≠ Ch.lf ∧ Ch.isWhitespace c = true)
  have split : rest = rest.takeWhile blank ++ rest.dropWhile blank := (List.takeWhile_append_dropWhile ..).symm
  have space : ∀ c ∈ rest.takeWhile blank, c ≠ Ch.lf ∧ Ch.isWhitespace c = true := by
    intro c member
    have accepted : blank c = true := List.mem_takeWhile_imp member
    exact of_decide_eq_true accepted
  have shorter : (rest.dropWhile blank).length ≤ rest.length := (List.dropWhile_sublist _).length_le
  have errors := clean
  simp only [scanTextBlock, List.append_eq_nil_iff] at errors
  obtain ⟨⟨opened, blockClean⟩, closed⟩ := errors
  have opening : (rest.dropWhile blank).head? = some Ch.lf := by
    by_contra other
    rw [if_neg (by simpa [blank] using other)] at opened
    cases opened
  have begins : (rest.dropWhile blank).head? == some Ch.lf := by simpa using opening
  rw [if_pos begins] at blockClean closed
  have ends : (scanTextLines total quote [] TextLine.empty true (rest.dropWhile blank).tail).closed = true := by
    by_contra other
    rw [if_neg other] at closed
    cases closed
  have empty : Holds [] TextLine.empty true ([], []) := ⟨.nil, Captures.empty, rfl⟩
  obtain ⟨pieces, lines, cur, indented, after, written, holds, read⟩ :=
    scanTextLines_written empty (by rw [List.length_tail]; omega) ends blockClean
  refine ⟨rest.takeWhile blank, (rest.dropWhile blank).tail, pieces, after, ?_, fun c member => (space c member).2,
    fun member => (space _ member).1 rfl, written, splittable_of_closes fun region source member => ?_, ?_⟩
  · rw [List.cons_head?_tail opening]
    exact split
  · rw [← mem_interps, interps_blockText, mem_interps] at member
    exact written.closes region source member
  · change Scanned.mk _ _ _ _ = _
    rw [if_pos begins, read, if_pos begins, if_pos rfl]
    rw [capture, regions_eq (blockText pieces), interps_blockText, ← regions_eq, ← holds.value]
    rfl

end Thera.Frontend
