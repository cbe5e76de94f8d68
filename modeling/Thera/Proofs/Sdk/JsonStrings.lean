import Thera.Proofs.Sdk.JsonGrammar

/-! # JSON strings

What the scanner does on the strings of the grammar. For each function of the scanner: on a text that starts with
the token it returns the token's meaning behind it, and whatever it returns is the meaning of a token it has
passed over.
-/

namespace Thera.Sdk

open Scanning Grammar

variable {text rest : List Char} {pos : ℕ} {c : Char}

/-! ## Escapes -/

theorem hexDigits_run (value : ℤ) {digits : List HexDigit} (here : At text pos (digits.map Subtype.val ++ rest)) :
    Yields (hexDigits (codePoints text) value digits.length) text pos
      (digits.foldl (fun v d => v * 16 + hexValue (codePoint d.1)) value) rest := by
  induction digits generalizing value pos with
  | nil => exact .pure here
  | cons d digits ih =>
    have here : At text pos (d.1 :: (digits.map Subtype.val ++ rest)) := here
    refine .step (atEnd_run here) (.step (current_run here) ?_)
    rw [if_neg (not_lt.mpr d.2)]
    exact .step advance_run (ih _ here.step)

theorem hexDigits_ends {value : ℤ} {n : ℕ} (here : At text pos rest) :
    Ends Stop.Reported (hexDigits (codePoints text) value n) pos fun v p => ∃ (digits : List HexDigit) (rest' : List Char),
      digits.length = n ∧ rest = digits.map Subtype.val ++ rest' ∧ At text p rest' ∧
        v = digits.foldl (fun v d => v * 16 + hexValue (codePoint d.1)) value := by
  induction n generalizing value pos rest with
  | zero => exact .pure ⟨[], rest, rfl, rfl, here, rfl⟩
  | succ n ih =>
    rw [hexDigits]
    cases rest with
    | nil => exact .step (atEnd_end here) (ends_fail here _)
    | cons c rest =>
      refine .step (atEnd_run here) (.step (current_run here) ?_)
      by_cases hex : hexValue (codePoint c) < 0
      · rw [if_pos hex]
        exact ends_fail here _
      · rw [if_neg hex]
        refine .step advance_run (.mono (ih here.step) ?_)
        rintro v p ⟨digits, rest', rfl, rfl, there, rfl⟩
        exact ⟨⟨c, not_lt.mp hex⟩ :: digits, rest', rfl, rfl, there, rfl⟩

theorem parseHex4_run (a b c d : HexDigit) (here : At text pos (a.1 :: b.1 :: c.1 :: d.1 :: rest)) :
    Yields (parseHex4 (codePoints text)) text pos (Item.unicode a b c d).unit rest := by
  have run := @hexDigits_run text rest pos 0 [a, b, c, d] here
  simpa [parseHex4, Item.unit] using run

theorem parseHex4_ends (here : At text pos rest) :
    Ends Stop.Reported (parseHex4 (codePoints text)) pos fun v p => ∃ (a b c d : HexDigit) (rest' : List Char),
      rest = a.1 :: b.1 :: c.1 :: d.1 :: rest' ∧ At text p rest' ∧ v = (Item.unicode a b c d).unit := by
  refine .mono (hexDigits_ends here) ?_
  rintro v p ⟨digits, rest', four, rfl, there, rfl⟩
  obtain ⟨a, b, c, d, rfl⟩ := List.length_eq_four.mp four
  exact ⟨a, b, c, d, rest', rfl, there, by simp [Item.unit]⟩

theorem escapeFollows_run (here : At text pos rest) :
    ∃ follows, escapeFollows (codePoints text) pos = .ok (follows, pos) ∧
      (follows = true ↔ ∃ rest', rest = '\\' :: 'u' :: rest') := by
  have length := here.length
  rw [escapeFollows, run_get]
  match rest, here with
  | [], here =>
    rw [if_neg (by rw [length_codePoints, here.end_]; omega)]
    exact ⟨false, rfl, by simp⟩
  | [c], here =>
    rw [if_neg (by rw [length_codePoints, ← length, List.length_singleton]; omega)]
    exact ⟨false, rfl, by simp⟩
  | c :: d :: rest, here =>
    rw [if_pos (by rw [length_codePoints]; exact here.step.lt), run_bind (charAt_run here.getElem?)]
    by_cases backslash : codePoint c = 92
    · rw [if_pos backslash, run_bind (charAt_run here.step.getElem?)]
      refine ⟨_, rfl, ?_⟩
      have isBackslash : c = '\\' := codePoint_inj.mp backslash
      have isU : codePoint d = 117 ↔ d = 'u' := codePoint_inj (d := 'u')
      simp [isBackslash, isU]
    · rw [if_neg backslash]
      refine ⟨false, rfl, ?_⟩
      have notBackslash : c ≠ '\\' := fun same => backslash (congrArg codePoint same)
      simp [notBackslash]

/-! ## Chunks of a string -/

/-- The items that one code point is decoded from: an item that is no surrogate, or a surrogate pair. -/
def Chunk (items : List Item) (cp : ℤ) : Prop :=
  (∃ i, items = [i] ∧ i.isHigh = false ∧ i.isLow = false ∧ cp = i.unit) ∨
    ∃ i j, items = [i, j] ∧ i.isHigh = true ∧ j.isLow = true ∧ cp = pairValue i j

variable {chunk items : List Item} {cp : ℤ}

theorem Chunk.paired (isChunk : Chunk chunk cp) : paired (chunk ++ items) = paired items := by
  obtain ⟨i, rfl, notHigh, notLow, -⟩ | ⟨i, j, rfl, high, low, -⟩ := isChunk
  · cases items <;> simp [Grammar.paired, notHigh, notLow]
  · simp [Grammar.paired, high, low]

theorem Chunk.decode (isChunk : Chunk chunk cp) : decode (chunk ++ items) = cp :: decode items := by
  obtain ⟨i, rfl, notHigh, -, rfl⟩ | ⟨i, j, rfl, high, -, rfl⟩ := isChunk
  · cases items <;> simp [Grammar.decode, notHigh]
  · simp [Grammar.decode, high]

theorem exists_chunk {i : Item} (pairs : paired (i :: items) = true) :
    ∃ chunk cp items', i :: items = chunk ++ items' ∧ Chunk chunk cp ∧ chunk ≠ [] := by
  cases high : i.isHigh with
  | false =>
    refine ⟨[i], i.unit, items, rfl, .inl ⟨i, rfl, high, ?_, rfl⟩, by simp⟩
    cases items <;> simp_all [Grammar.paired]
  | true =>
    cases items with
    | nil => simp [Grammar.paired, high] at pairs
    | cons j items =>
      refine ⟨[i, j], pairValue i j, items, rfl, .inr ⟨i, j, rfl, high, ?_, rfl⟩, by simp⟩
      simp_all [Grammar.paired]

theorem isHigh_unicode {a b c d : HexDigit} :
    (Item.unicode a b c d).isHigh = true ↔
      (Item.unicode a b c d).unit ≥ 55296 ∧ (Item.unicode a b c d).unit ≤ 56319 := by
  simp [Item.isHigh]

theorem isLow_unicode {a b c d : HexDigit} :
    (Item.unicode a b c d).isLow = true ↔
      (Item.unicode a b c d).unit ≥ 56320 ∧ (Item.unicode a b c d).unit ≤ 57343 := by
  simp [Item.isLow]

theorem eq_unicode_of_isLow {i : Item} (low : i.isLow = true) : ∃ a b c d, i = .unicode a b c d := by
  cases i with
  | unescaped c | escape e => cases low
  | unicode a b c d => exact ⟨a, b, c, d, rfl⟩

theorem eq_unicode_of_isHigh {i : Item} (high : i.isHigh = true) : ∃ a b c d, i = .unicode a b c d := by
  cases i with
  | unescaped c | escape e => cases high
  | unicode a b c d => exact ⟨a, b, c, d, rfl⟩

theorem parseUnicodeEscape_single {a b c d : HexDigit} (notHigh : (Item.unicode a b c d).isHigh = false)
    (notLow : (Item.unicode a b c d).isLow = false) (here : At text pos (a.1 :: b.1 :: c.1 :: d.1 :: rest)) :
    Yields (parseUnicodeEscape (codePoints text)) text pos (Item.unicode a b c d).unit rest := by
  rw [← Bool.not_eq_true, isHigh_unicode] at notHigh
  rw [← Bool.not_eq_true, isLow_unicode] at notLow
  refine .bind (parseHex4_run a b c d here) fun there => ?_
  rw [if_neg notHigh, if_neg notLow]
  exact .pure there

theorem parseUnicodeEscape_pair {a b c d a' b' c' d' : HexDigit} (high : (Item.unicode a b c d).isHigh = true)
    (low : (Item.unicode a' b' c' d').isLow = true)
    (here : At text pos (a.1 :: b.1 :: c.1 :: d.1 :: '\\' :: 'u' :: a'.1 :: b'.1 :: c'.1 :: d'.1 :: rest)) :
    Yields (parseUnicodeEscape (codePoints text)) text pos (pairValue (.unicode a b c d) (.unicode a' b' c' d')) rest := by
  refine .bind (parseHex4_run a b c d here) fun there => ?_
  rw [if_pos (isHigh_unicode.mp high)]
  obtain ⟨follows, asked, answer⟩ := escapeFollows_run there
  refine .step asked ?_
  rw [if_pos (answer.mpr ⟨_, rfl⟩)]
  refine .step advance_run (.bind (parseHex4_run a' b' c' d' there.step.step) fun done => ?_)
  rw [if_pos (isLow_unicode.mp low)]
  exact .pure done

theorem parseUnicodeEscape_ends (here : At text pos rest) :
    Ends Stop.Reported (parseUnicodeEscape (codePoints text)) pos fun v p => ∃ chunk tail rest', Chunk chunk v ∧
      chunk.flatMap Item.text = '\\' :: 'u' :: tail ∧ rest = tail ++ rest' ∧ At text p rest' := by
  rw [parseUnicodeEscape]
  refine .bind (parseHex4_ends here) ?_
  rintro hi p ⟨a, b, c, d, rest, rfl, there, rfl⟩
  by_cases high : (Item.unicode a b c d).isHigh = true
  · rw [if_pos (isHigh_unicode.mp high)]
    obtain ⟨follows, asked, answer⟩ := escapeFollows_run there
    refine .step asked ?_
    cases follows with
    | false => exact ends_fail there _
    | true =>
      obtain ⟨rest, rfl⟩ := answer.mp rfl
      refine .step advance_run (.bind (parseHex4_ends there.step.step) ?_)
      rintro lo p ⟨a', b', c', d', rest, rfl, there, rfl⟩
      by_cases low : (Item.unicode a' b' c' d').isLow = true
      · rw [if_pos (isLow_unicode.mp low)]
        exact .pure ⟨[.unicode a b c d, .unicode a' b' c' d'], _, rest, .inr ⟨_, _, rfl, high, low, rfl⟩, rfl, rfl, there⟩
      · rw [if_neg (isLow_unicode.not.mp low)]
        exact ends_fail there _
  · rw [if_neg (isHigh_unicode.not.mp high)]
    by_cases low : (Item.unicode a b c d).isLow = true
    · rw [if_pos (isLow_unicode.mp low)]
      exact ends_fail there _
    · rw [if_neg (isLow_unicode.not.mp low)]
      exact .pure ⟨[.unicode a b c d], _, rest,
        .inl ⟨_, rfl, Bool.not_eq_true _ ▸ high, Bool.not_eq_true _ ▸ low, rfl⟩, rfl, rfl, there⟩

/-- An escape is decoded, after its backslash. -/
theorem parseEscape_run {tail : List Char} (isChunk : Chunk chunk cp)
    (escaped : chunk.flatMap Item.text = '\\' :: tail) (here : At text pos (tail ++ rest)) :
    Yields (parseEscape (codePoints text)) text pos cp rest := by
  obtain ⟨i, rfl, notHigh, notLow, rfl⟩ | ⟨i, j, rfl, high, low, rfl⟩ := isChunk
  · cases i with
    | unescaped c =>
      have first : c.1 = '\\' := (List.cons.inj escaped).1
      exact absurd first c.2.2.2
    | escape e =>
      obtain rfl : [e.letter] = tail := (List.cons.inj escaped).2
      refine .step (atEnd_run here) (.step (current_run here) (.step advance_run ?_))
      cases e <;> exact .pure here.step
    | unicode a b c d =>
      obtain rfl : ['u', a.1, b.1, c.1, d.1] = tail := (List.cons.inj escaped).2
      refine .step (atEnd_run here) (.step (current_run here) (.step advance_run ?_))
      exact parseUnicodeEscape_single notHigh notLow here.step
  · obtain ⟨a, b, c, d, rfl⟩ := eq_unicode_of_isHigh high
    obtain ⟨a', b', c', d', rfl⟩ := eq_unicode_of_isLow low
    obtain rfl : ['u', a.1, b.1, c.1, d.1, '\\', 'u', a'.1, b'.1, c'.1, d'.1] = tail := (List.cons.inj escaped).2
    refine .step (atEnd_run here) (.step (current_run here) (.step advance_run ?_))
    exact parseUnicodeEscape_pair high low here.step

theorem parseEscape_ends (here : At text pos rest) :
    Ends Stop.Reported (parseEscape (codePoints text)) pos fun v p => ∃ chunk tail rest', Chunk chunk v ∧
      chunk.flatMap Item.text = '\\' :: tail ∧ rest = tail ++ rest' ∧ At text p rest' := by
  rw [parseEscape]
  cases rest with
  | nil => exact .step (atEnd_end here) (ends_fail here _)
  | cons c rest =>
    refine .step (atEnd_run here) (.step (current_run here) (.step advance_run ?_))
    have letter (e : Escape) (same : codePoint c = codePoint e.letter) :
        ∃ chunk tail rest', Chunk chunk (codePoint e.meaning) ∧ chunk.flatMap Item.text = '\\' :: tail ∧
          c :: rest = tail ++ rest' ∧ At text (pos + 1) rest' := by
      obtain rfl := codePoint_inj.mp same
      exact ⟨[.escape e], [e.letter], rest, .inl ⟨_, rfl, rfl, rfl, rfl⟩, rfl, rfl, here.step⟩
    split_ifs with h1 h2 h3 h4 h5 h6 h7 h8 h9
    · exact .pure (letter .quote h1)
    · exact .pure (letter .backslash h2)
    · exact .pure (letter .slash h3)
    · exact .pure (letter .backspace h4)
    · exact .pure (letter .formFeed h5)
    · exact .pure (letter .lineFeed h6)
    · exact .pure (letter .carriageReturn h7)
    · exact .pure (letter .tab h8)
    · refine .mono (parseUnicodeEscape_ends here.step) ?_
      rintro v p ⟨chunk, tail, rest', isChunk, escaped, rfl, there⟩
      obtain rfl : c = 'u' := codePoint_inj.mp h9
      exact ⟨chunk, 'u' :: tail, rest', isChunk, escaped, rfl, there⟩
    · exact ends_fail here.step _

/-! ## Strings -/

/-- A chunk is one unescaped character, or starts with a backslash. -/
theorem Chunk.text_cases (isChunk : Chunk chunk cp) :
    (∃ c, chunk = [.unescaped c] ∧ cp = codePoint c.1) ∨ ∃ tail, chunk.flatMap Item.text = '\\' :: tail := by
  obtain ⟨i, rfl, -, -, rfl⟩ | ⟨i, j, rfl, high, -, -⟩ := isChunk
  · cases i with
    | unescaped c => exact .inl ⟨c, rfl, rfl⟩
    | escape e | unicode a b c d => exact .inr ⟨_, rfl⟩
  · obtain ⟨a, b, c, d, rfl⟩ := eq_unicode_of_isHigh high
    exact .inr ⟨_, rfl⟩

/-- The loop passes over one chunk. -/
theorem stringLoop_chunk {out v : List ℤ} {fuel : ℕ} {behind : List Char} (isChunk : Chunk chunk cp)
    (here : At text pos (chunk.flatMap Item.text ++ rest))
    (next : ∀ {p}, At text p rest → Yields (stringLoop (codePoints text) (out ++ [cp]) fuel) text p v behind) :
    Yields (stringLoop (codePoints text) out (fuel + 1)) text pos v behind := by
  obtain ⟨c, rfl, rfl⟩ | ⟨tail, escaped⟩ := isChunk.text_cases
  · have here : At text pos (c.1 :: rest) := here
    have notQuote : ¬ codePoint c.1 = 34 := fun same => c.2.2.1 (codePoint_inj.mp same)
    have notBackslash : ¬ codePoint c.1 = 92 := fun same => c.2.2.2 (codePoint_inj.mp same)
    have printable : ¬ codePoint c.1 < 32 := not_lt.mpr (Int.ofNat_le.mpr c.2.1)
    refine .step (atEnd_run here) (.step (current_run here) (.step advance_run ?_))
    rw [if_neg notQuote, if_neg notBackslash, if_neg printable]
    exact next here.step
  · rw [escaped] at here
    refine .step (atEnd_run here) (.step (current_run here) (.step advance_run ?_))
    exact .bind (parseEscape_run isChunk escaped here.step) next

theorem stringLoop_run {out : List ℤ} {fuel : ℕ} (pairs : paired items = true)
    (here : At text pos (items.flatMap Item.text ++ '"' :: rest)) (enough : items.length < fuel) :
    Yields (stringLoop (codePoints text) out fuel) text pos (out ++ decode items) rest := by
  induction fuel generalizing items out pos with
  | zero => omega
  | succ fuel ih =>
    cases items with
    | nil =>
      rw [decode, List.append_nil]
      exact .step (atEnd_run here) (.step (current_run here) (.step advance_run (.pure here.step)))
    | cons i items =>
      obtain ⟨chunk, cp, items', split, isChunk, nonempty⟩ := exists_chunk pairs
      rw [split] at pairs here enough ⊢
      rw [isChunk.paired] at pairs
      rw [List.flatMap_append, List.append_assoc] at here
      have shorter := List.length_pos_iff.mpr nonempty
      rw [List.length_append] at enough
      refine stringLoop_chunk isChunk here fun there => ?_
      rw [isChunk.decode, List.append_cons _ _ (decode items')]
      exact ih pairs there (by omega)

theorem stringLoop_ends {out : List ℤ} {fuel : ℕ} (here : At text pos rest) (enough : rest.length < fuel) :
    Ends Stop.Reported (stringLoop (codePoints text) out fuel) pos fun v p => ∃ (items : List Item) (rest' : List Char),
      paired items = true ∧ rest = items.flatMap Item.text ++ '"' :: rest' ∧ At text p rest' ∧ v = out ++ decode items := by
  induction fuel generalizing pos rest out with
  | zero => omega
  | succ fuel ih =>
    -- What is behind a chunk extends it to the whole string.
    have extend (chunk : List Item) {cp : ℤ} {rest' : List Char} {p : ℕ} (isChunk : Chunk chunk cp)
        (split : rest = chunk.flatMap Item.text ++ rest') (there : At text p rest') (shorter : rest'.length < rest.length) :
        Ends Stop.Reported (stringLoop (codePoints text) (out ++ [cp]) fuel) p fun v p => ∃ (items : List Item)
          (rest' : List Char), paired items = true ∧ rest = items.flatMap Item.text ++ '"' :: rest' ∧ At text p rest' ∧
            v = out ++ decode items := by
      refine .mono (ih there (by omega)) ?_
      rintro v p ⟨items, rest'', pairs, rfl, done, rfl⟩
      refine ⟨chunk ++ items, rest'', by rw [isChunk.paired, pairs], ?_, done, ?_⟩
      · rw [split, List.flatMap_append, List.append_assoc]
      · rw [isChunk.decode, List.append_assoc, List.singleton_append]
    rw [stringLoop]
    cases rest with
    | nil => exact .step (atEnd_end here) (ends_fail here _)
    | cons c rest =>
      refine .step (atEnd_run here) (.step (current_run here) (.step advance_run ?_))
      split_ifs with isQuote isBackslash control
      · obtain rfl : c = '"' := codePoint_inj.mp isQuote
        exact .pure ⟨[], rest, rfl, rfl, here.step, (List.append_nil out).symm⟩
      · obtain rfl : c = '\\' := codePoint_inj.mp isBackslash
        refine .bind (parseEscape_ends here.step) ?_
        rintro cp p ⟨chunk, tail, rest', isChunk, escaped, rfl, there⟩
        exact extend chunk isChunk (by rw [escaped]; rfl) there (by simp)
      · exact ends_fail here.step _
      · have printable : 32 ≤ c.toNat := Int.ofNat_le.mp (not_lt.mp control)
        have notQuote : c ≠ '"' := fun same => isQuote (congrArg codePoint same)
        have notBackslash : c ≠ '\\' := fun same => isBackslash (congrArg codePoint same)
        exact extend [.unescaped ⟨c, printable, notQuote, notBackslash⟩] (.inl ⟨_, rfl, rfl, rfl, rfl⟩) rfl
          here.step (by simp)

theorem length_items_le (items : List Item) : items.length ≤ (items.flatMap Item.text).length := by
  induction items with
  | nil => exact le_rfl
  | cons i items ih =>
    have nonempty : 1 ≤ i.text.length := by cases i <;> simp [Item.text]
    rw [List.flatMap_cons, List.length_append, List.length_cons]
    omega

theorem parseString_run (pairs : paired items = true) (here : At text pos (stringText items ++ rest)) :
    Yields (parseString (codePoints text)) text pos (stringValue items) rest := by
  have here : At text pos ('"' :: (items.flatMap Item.text ++ '"' :: rest)) := by simpa [stringText] using here
  have length := here.length
  have count := length_items_le items
  simp only [List.length_cons, List.length_append] at length
  exact .step advance_run (.bind (stringLoop_run pairs here.step (by rw [length_codePoints]; omega)) .pure)

theorem parseString_ends (here : At text pos ('"' :: rest)) :
    Ends Stop.Reported (parseString (codePoints text)) pos fun v p => ∃ (items : List Item) (rest' : List Char),
      paired items = true ∧ '"' :: rest = stringText items ++ rest' ∧ At text p rest' ∧ v = stringValue items := by
  have length := here.length
  rw [parseString]
  refine .step advance_run (.bind (stringLoop_ends here.step ?_) ?_)
  · rw [length_codePoints, ← length, List.length_cons]
    omega
  · rintro v p ⟨items, rest', pairs, rfl, there, rfl⟩
    exact .pure ⟨items, rest', pairs, by simp [stringText], there, by rw [List.nil_append, stringValue]⟩

end Thera.Sdk
