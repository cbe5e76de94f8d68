import Thera.Proofs.Sdk.JsonNumbers

/-! # JSON values

The parser and the grammar agree. Whatever the parser returns is the meaning of a derivation whose text it has
passed over, and on the text of a derivation it returns the derivation's meaning. The fuel that suffices is
three times what remains, with a little more for a value and for a loop.
-/

namespace Thera.Sdk

open Scanning Grammar

variable {text rest : List Char} {pos : ℕ} {c : Char} {D : Type} {round : List ℤ → D}

/-! ## White space and literals -/

theorem skipWs_run {ws : Ws} (here : At text pos (ws.1 ++ rest)) (next : isWhitespace (front rest) = false) :
    Yields (skipWs (codePoints text)) text pos () rest :=
  skipWhile_exact rfl here ws.2 next (by rw [length_codePoints]; omega)

theorem skipWs_splits (here : At text pos rest) :
    ∃ (ws : Ws) (rest' : List Char), rest = ws.1 ++ rest' ∧ isWhitespace (front rest') = false ∧
      skipWs (codePoints text) pos = .ok ((), pos + ws.1.length) ∧ At text (pos + ws.1.length) rest' := by
  obtain ⟨ws, rest', split, spaces, next, run, there⟩ :=
    skipWhile_splits isWhitespace rfl ((codePoints text).length + 1) here (by rw [length_codePoints]; omega)
  exact ⟨⟨ws, spaces⟩, rest', split, next, run, there⟩

theorem spells_run (literal : List Char) (offset : ℕ) (there : At text (pos + offset) rest) :
    ∃ spelt, spells (codePoints text) offset (codePoints literal) pos = .ok (spelt, pos) ∧
      (spelt = true ↔ ∃ rest', rest = literal ++ rest') := by
  induction literal generalizing offset rest with
  | nil => exact ⟨true, rfl, by simp⟩
  | cons want literal ih =>
    rw [show codePoints (want :: literal) = codePoint want :: codePoints literal from rfl, spells, run_get]
    cases rest with
    | nil =>
      rw [if_pos (by simpa using there.end_.ge)]
      exact ⟨false, rfl, by simp⟩
    | cons c rest =>
      rw [if_neg (by simpa using there.lt), run_bind (charAt_run there.getElem?)]
      by_cases same : c = want
      · subst same
        have next : At text (pos + (offset + 1)) rest := there.step
        obtain ⟨spelt, run, iff⟩ := ih _ next
        rw [if_neg (not_not.mpr rfl)]
        exact ⟨spelt, run, by simpa using iff⟩
      · rw [if_pos (fun equal => same (codePoint_inj.mp equal))]
        exact ⟨false, rfl, by simp [same]⟩

theorem matchLiteral_run (literal : List Char) (here : At text pos (literal ++ rest)) :
    matchLiteral (codePoints text) literal pos = .ok (true, pos + literal.length) := by
  obtain ⟨spelt, run, iff⟩ := spells_run literal 0 here
  rw [matchLiteral, run_bind run, if_pos (iff.mpr ⟨rest, rfl⟩)]
  rfl

theorem matchLiteral_not (literal : List Char) (here : At text pos rest) (other : ∀ rest', rest ≠ literal ++ rest') :
    matchLiteral (codePoints text) literal pos = .ok (false, pos) := by
  obtain ⟨spelt, run, iff⟩ := spells_run literal 0 here
  rw [matchLiteral, run_bind run, if_neg (fun spells => (iff.mp spells).elim other)]
  rfl

/-- A literal is passed over, or the position stays. -/
theorem matchLiteral_ends (literal : List Char) (here : At text pos rest) :
    (∃ rest', rest = literal ++ rest' ∧ At text (pos + literal.length) rest' ∧
      matchLiteral (codePoints text) literal pos = .ok (true, pos + literal.length)) ∨
    matchLiteral (codePoints text) literal pos = .ok (false, pos) := by
  by_cases spelt : ∃ rest', rest = literal ++ rest'
  · obtain ⟨rest', rfl⟩ := spelt
    exact .inl ⟨rest', rfl, here.append, matchLiteral_run literal here⟩
  · exact .inr (matchLiteral_not literal here fun rest' same => spelt ⟨rest', same⟩)

/-! ## Keys -/

theorem parseKey_run {before after : Ws} {key : List Item} (pairs : paired key = true)
    (here : At text pos (before.1 ++ (stringText key ++ (after.1 ++ ':' :: rest)))) :
    Yields (parseKey (codePoints text)) text pos (stringValue key) rest := by
  refine .bind (skipWs_run here rfl) fun atKey => .step (peek_run atKey) ?_
  refine .bind (parseString_run pairs atKey) fun behind => .bind (skipWs_run behind rfl) fun atColon => ?_
  exact .step (peek_run atColon) (.step advance_run (.pure atColon.step))

theorem parseKey_ends (here : At text pos rest) :
    Ends Stop.Reported (parseKey (codePoints text)) pos fun v p => ∃ (before after : Ws) (key : List Item)
      (rest' : List Char), rest = before.1 ++ (stringText key ++ (after.1 ++ ':' :: rest')) ∧ At text p rest' ∧
        paired key = true ∧ v = stringValue key := by
  rw [parseKey]
  obtain ⟨before, rest₁, rfl, -, skipped, atKey⟩ := skipWs_splits here
  refine .step skipped (.step (peek_run atKey) ?_)
  by_cases isQuote : front rest₁ = 34
  · rw [if_neg (not_not.mpr isQuote)]
    obtain ⟨rest₂, rfl⟩ := front_eq (c := '"').mp isQuote
    refine .bind (parseString_ends atKey) ?_
    rintro _ p ⟨key, rest₃, pairs, split, behind, rfl⟩
    obtain ⟨after, rest₄, rfl, -, skipped, atColon⟩ := skipWs_splits behind
    refine .step skipped (.step (peek_run atColon) ?_)
    by_cases isColon : front rest₄ = 58
    · rw [if_neg (not_not.mpr isColon)]
      obtain ⟨rest₅, rfl⟩ := front_eq (c := ':').mp isColon
      exact .step advance_run (.pure ⟨before, after, key, rest₅, by rw [split], atColon.step, pairs, rfl⟩)
    · rw [if_pos isColon]
      exact ends_fail atColon _
  · rw [if_pos isQuote]
    exact ends_fail atKey _

/-! ## Fields -/

/-- Setting one field after the other keeps the last value of each key, where the key came first. -/
theorem setFields_eq_lastWins (fields : List (String × Json D)) :
    fields.foldl (fun fields (key, value) => setField fields key value) [] = OrderedAssoc.lastWins fields :=
  OrderedAssoc.insertAll_eq_lastWins (fun _ _ => decide_eq_true_iff) fields

/-! ## Leading space

The parser skips the space before the first element on its own; a derivation keeps it with the element.
-/

def noWs : Ws := ⟨[], fun _ member => absurd member List.not_mem_nil⟩

def appendWs (a b : Ws) : Ws := ⟨a.1 ++ b.1, fun c member => (List.mem_append.mp member).elim (a.2 c) (b.2 c)⟩

namespace Grammar

def Elements.before : Elements → Ws
  | .last before _ _ => before
  | .more before _ _ _ => before

/-- The text behind the first space. -/
def Elements.body : Elements → List Char
  | .last _ value after => value.text ++ after.1
  | .more _ value after rest => value.text ++ (after.1 ++ ',' :: rest.text)

theorem Elements.text_eq (d : Elements) : d.text = d.before.1 ++ d.body := by
  cases d <;> rw [Elements.text, before, body]

def Members.before : Members → Ws
  | .last before _ _ _ _ _ => before
  | .more before _ _ _ _ _ _ => before

/-- The text behind the first space. -/
def Members.body : Members → List Char
  | .last _ key afterKey beforeValue value after =>
      stringText key ++ (afterKey.1 ++ ':' :: (beforeValue.1 ++ (value.text ++ after.1)))
  | .more _ key afterKey beforeValue value after rest =>
      stringText key ++ (afterKey.1 ++ ':' :: (beforeValue.1 ++ (value.text ++ (after.1 ++ ',' :: rest.text))))

theorem Members.text_eq (d : Members) : d.text = d.before.1 ++ d.body := by
  cases d <;> rw [Members.text, before, body]

end Grammar

/-! ## Brackets and commas

An array and an object open, go on and close in the same way.
-/

section

variable {A : Type} {empty done v : A} {loop more : Scan A} {message : String} {P : A → ℕ → Prop} {behind : List Char}

/-- An opening bracket with nothing before the closing one, or with a loop over items. -/
def bracketed (chars : List ℤ) (close : ℤ) (empty : A) (loop : Scan A) : Scan A := do
  advance 1
  skipWs chars
  if (← peek chars) = close then
    advance 1
    return empty
  else loop

/-- What comes after an item. -/
def separated (chars : List ℤ) (close : ℤ) (more : Scan A) (done : A) (message : String) : Scan A := do
  skipWs chars
  let c ← peek chars
  if c = 44 then
    advance 1
    more
  else if c = close then
    advance 1
    return done
  else fail chars message

theorem bracketed_ends (close : Char) (here : At text pos (c :: rest))
    (nothing : ∀ {ws : Ws} {rest' p}, rest = ws.1 ++ close :: rest' → At text p rest' → P empty p)
    (items : ∀ {ws : Ws} {rest' p}, rest = ws.1 ++ rest' → At text p rest' → Ends Stop.Reported loop p P) :
    Ends Stop.Reported (bracketed (codePoints text) (codePoint close) empty loop) pos P := by
  obtain ⟨ws, rest₁, rfl, -, skipped, there⟩ := skipWs_splits here.step
  refine .step advance_run (.step skipped (.step (peek_run there) ?_))
  split_ifs with closes
  · obtain ⟨rest₂, rfl⟩ := front_eq.mp closes
    exact .step advance_run (.pure (nothing rfl there.step))
  · exact items rfl there

theorem separated_ends (close : Char) (here : At text pos rest)
    (goesOn : ∀ {ws : Ws} {rest' p}, rest = ws.1 ++ ',' :: rest' → At text p rest' → Ends Stop.Reported more p P)
    (ends : ∀ {ws : Ws} {rest' p}, rest = ws.1 ++ close :: rest' → At text p rest' → P done p) :
    Ends Stop.Reported (separated (codePoints text) (codePoint close) more done message) pos P := by
  obtain ⟨ws, rest₁, rfl, -, skipped, there⟩ := skipWs_splits here
  refine .step skipped (.step (peek_run there) ?_)
  split_ifs with comma closes
  · obtain ⟨rest₂, rfl⟩ := front_eq (c := ',').mp comma
    exact .step advance_run (goesOn rfl there.step)
  · obtain ⟨rest₂, rfl⟩ := front_eq.mp closes
    exact .step advance_run (.pure (ends rfl there.step))
  · exact ends_fail there _

theorem bracketed_empty {ws : Ws} {close : Char} (here : At text pos (c :: (ws.1 ++ close :: rest)))
    (noSpace : isWhitespace (codePoint close) = false) :
    Yields (bracketed (codePoints text) (codePoint close) empty loop) text pos empty rest := by
  refine .step advance_run (.bind (skipWs_run here.step noSpace) fun there => .step (peek_run there) ?_)
  rw [front, if_pos rfl]
  exact .step advance_run (.pure there.step)

theorem bracketed_items {ws : Ws} (close : Char) (here : At text pos (c :: (ws.1 ++ rest))) (noSpace : isWhitespace (front rest) = false)
    (noClose : front rest ≠ codePoint close) (next : ∀ {p}, At text p rest → Yields loop text p v behind) :
    Yields (bracketed (codePoints text) (codePoint close) empty loop) text pos v behind := by
  refine .step advance_run (.bind (skipWs_run here.step noSpace) fun there => .step (peek_run there) ?_)
  rw [if_neg noClose]
  exact next there

theorem separated_more {ws : Ws} (close : Char) (here : At text pos (ws.1 ++ ',' :: rest))
    (next : ∀ {p}, At text p rest → Yields more text p v behind) :
    Yields (separated (codePoints text) (codePoint close) more done message) text pos v behind := by
  refine .bind (skipWs_run here rfl) fun there => .step (peek_run there) ?_
  exact .step advance_run (next there.step)

theorem separated_done {ws : Ws} (close : Char) (here : At text pos (ws.1 ++ close :: rest))
    (noSpace : isWhitespace (codePoint close) = false) (noComma : codePoint close ≠ 44) :
    Yields (separated (codePoints text) (codePoint close) more done message) text pos done rest := by
  refine .bind (skipWs_run here noSpace) fun there => .step (peek_run there) ?_
  rw [front, if_neg noComma, if_pos rfl]
  exact .step advance_run (.pure there.step)

end

/-! ## What the parser returns -/

/-- The result of a parser that has passed over a value. -/
def DerivedAt (text : List Char) (round : List ℤ → D) (rest : List Char) (v : Json D) (p : ℕ) : Prop :=
  ∃ (d : Value) (rest' : List Char), rest = d.text ++ rest' ∧ At text p rest' ∧ d.Paired ∧ v = d.value round

/-! The parsers with this much fuel return only what the grammar derives, with space in front of the first item. -/

section

variable (text : List Char) (round : List ℤ → D) (fuel : ℕ)

def ValueEnds : Prop := ∀ {pos rest}, At text pos rest → 3 * rest.length + 1 ≤ fuel →
  Ends Stop.Reported (parseValue (codePoints text) round fuel) pos fun v p =>
    ∃ (ws : Ws) (rest' : List Char), rest = ws.1 ++ rest' ∧ DerivedAt text round rest' v p

def ArrayEnds : Prop := ∀ {pos rest}, At text pos ('[' :: rest) → 3 * rest.length + 3 ≤ fuel →
  Ends Stop.Reported (parseArray (codePoints text) round fuel) pos (DerivedAt text round ('[' :: rest))

def ElementsEnd : Prop := ∀ {pos rest items} (ws : Ws), At text pos rest → 3 * rest.length + 2 ≤ fuel →
  Ends Stop.Reported (elementsLoop (codePoints text) round items fuel) pos fun v p => ∃ (d : Elements) (rest' : List Char),
    ws.1 ++ rest = d.text ++ ']' :: rest' ∧ At text p rest' ∧ d.Paired ∧ v = .array (items ++ d.values round)

def ObjectEnds : Prop := ∀ {pos rest}, At text pos ('{' :: rest) → 3 * rest.length + 3 ≤ fuel →
  Ends Stop.Reported (parseObject (codePoints text) round fuel) pos (DerivedAt text round ('{' :: rest))

def MembersEnd : Prop := ∀ {pos rest fields} (ws : Ws), At text pos rest → 3 * rest.length + 2 ≤ fuel →
  Ends Stop.Reported (membersLoop (codePoints text) round fields fuel) pos fun v p => ∃ (d : Members) (rest' : List Char),
    ws.1 ++ rest = d.text ++ '}' :: rest' ∧ At text p rest' ∧ d.Paired ∧
      v = .object ((d.fields round).foldl (fun fields (key, value) => setField fields key value) fields)

structure Sound : Prop where
  value : ValueEnds text round fuel
  array : ArrayEnds text round fuel
  elements : ElementsEnd text round fuel
  object : ObjectEnds text round fuel
  members : MembersEnd text round fuel

end

variable {fuel : ℕ}

theorem parseArray_ends (sound : Sound text round fuel) : ArrayEnds text round (fuel + 1) := by
  intro pos rest here enough
  rw [parseArray]
  refine bracketed_ends ']' here ?_ ?_
  · rintro ws rest₁ p rfl done
    exact ⟨.emptyArray ws, rest₁, by simp [Value.text], done, trivial, rfl⟩
  · rintro ws rest₁ p rfl there
    rw [List.length_append] at enough
    refine .mono (sound.elements ws there (by omega)) ?_
    rintro v p ⟨d, rest₂, split, done, pairs, rfl⟩
    exact ⟨.array d, rest₂, by simp [Value.text, split], done, pairs, rfl⟩

theorem elementsLoop_ends (sound : Sound text round fuel) : ElementsEnd text round (fuel + 1) := by
  intro pos rest items ws here enough
  rw [elementsLoop]
  refine .bind (sound.value here (by omega)) ?_
  rintro _ p ⟨before, _, rfl, d, rest₁, rfl, there, pairs, rfl⟩
  refine separated_ends ']' there ?_ ?_
  · rintro after rest₂ p rfl there
    simp only [List.length_append, List.length_cons] at enough
    refine .mono (sound.elements noWs there (by omega)) ?_
    rintro _ p ⟨ds, rest₃, split, done, pairs', rfl⟩
    obtain rfl : rest₂ = ds.text ++ ']' :: rest₃ := split
    refine ⟨.more (appendWs ws before) d after ds, rest₃, by simp [Elements.text, appendWs], done, ⟨pairs, pairs'⟩, ?_⟩
    rw [Elements.values, List.append_assoc, List.singleton_append]
  · rintro after rest₂ p rfl done
    exact ⟨.last (appendWs ws before) d after, rest₂, by simp [Elements.text, appendWs], done, pairs, rfl⟩

theorem parseObject_ends (sound : Sound text round fuel) : ObjectEnds text round (fuel + 1) := by
  intro pos rest here enough
  rw [parseObject]
  refine bracketed_ends '}' here ?_ ?_
  · rintro ws rest₁ p rfl done
    exact ⟨.emptyObject ws, rest₁, by simp [Value.text], done, trivial, rfl⟩
  · rintro ws rest₁ p rfl there
    rw [List.length_append] at enough
    refine .mono (sound.members ws there (by omega)) ?_
    rintro v p ⟨d, rest₂, split, done, pairs, rfl⟩
    exact ⟨.object d, rest₂, by simp [Value.text, split], done, pairs, by rw [Value.value, setFields_eq_lastWins]⟩

theorem membersLoop_ends (sound : Sound text round fuel) : MembersEnd text round (fuel + 1) := by
  intro pos rest fields ws here enough
  rw [membersLoop]
  refine .bind (parseKey_ends here) ?_
  rintro _ p ⟨before, afterKey, key, rest₁, rfl, atValue, keyPairs, rfl⟩
  simp only [List.length_append, List.length_cons] at enough
  refine .bind (sound.value atValue (by omega)) ?_
  rintro _ p ⟨beforeValue, _, rfl, d, rest₂, rfl, there, pairs, rfl⟩
  refine separated_ends '}' there ?_ ?_
  · rintro after rest₃ p rfl there
    simp only [List.length_append, List.length_cons] at enough
    refine .mono (sound.members noWs there (by omega)) ?_
    rintro _ p ⟨ds, rest₄, split, done, pairs', rfl⟩
    obtain rfl : rest₃ = ds.text ++ '}' :: rest₄ := split
    exact ⟨.more (appendWs ws before) key afterKey beforeValue d after ds, rest₄, by simp [Members.text, appendWs], done,
      ⟨keyPairs, pairs, pairs'⟩, rfl⟩
  · rintro after rest₃ p rfl done
    exact ⟨.last (appendWs ws before) key afterKey beforeValue d after, rest₃, by simp [Members.text, appendWs], done,
      ⟨keyPairs, pairs⟩, rfl⟩

theorem literal_ends {literal : List Char} {v : Json D} {next : Scan (Json D)} {P : Json D → ℕ → Prop}
    (here : At text pos rest)
    (taken : ∀ {rest'}, rest = literal ++ rest' → At text (pos + literal.length) rest' → P v (pos + literal.length))
    (otherwise : Ends Stop.Reported next pos P) :
    Ends Stop.Reported (do if ← matchLiteral (codePoints text) literal then return v else next) pos P := by
  obtain ⟨rest', split, there, run⟩ | run := matchLiteral_ends literal here
  · exact .step run (.pure (taken split there))
  · exact .step run otherwise

theorem parseLiteral_ends {first : ℤ} (here : At text pos rest) :
    Ends Stop.Reported (parseLiteral (codePoints text) first) pos (DerivedAt text round rest) := by
  rw [parseLiteral]
  refine literal_ends here (fun split done => ⟨.bool true, _, split, done, trivial, rfl⟩) ?_
  refine literal_ends here (fun split done => ⟨.bool false, _, split, done, trivial, rfl⟩) ?_
  refine literal_ends here (fun split done => ⟨.null, _, split, done, trivial, rfl⟩) ?_
  split_ifs
  · exact ends_fail here _
  · exact ends_fail here _

theorem parseValue_ends (sound : Sound text round fuel) : ValueEnds text round (fuel + 1) := by
  intro pos rest here enough
  rw [parseValue]
  obtain ⟨ws, rest₁, rfl, -, skipped, there⟩ := skipWs_splits here
  rw [List.length_append] at enough
  refine .step skipped (.step (peek_run there) (.mono ?_ fun _ _ found => ⟨ws, rest₁, rfl, found⟩))
  split_ifs with brace bracket isQuote number
  · obtain ⟨rest₂, rfl⟩ := front_eq (c := '{').mp brace
    rw [List.length_cons] at enough
    exact sound.object there (by omega)
  · obtain ⟨rest₂, rfl⟩ := front_eq (c := '[').mp bracket
    rw [List.length_cons] at enough
    exact sound.array there (by omega)
  · obtain ⟨rest₂, rfl⟩ := front_eq (c := '"').mp isQuote
    refine .bind (parseString_ends there) ?_
    rintro _ p ⟨items, rest₃, pairs, split, done, rfl⟩
    exact .pure ⟨.string items, rest₃, split, done, pairs, rfl⟩
  · refine .mono (parseNumber_ends there) ?_
    rintro _ p ⟨n, rest₂, rfl, done, rfl⟩
    exact ⟨.number n, rest₂, rfl, done, trivial, rfl⟩
  · exact parseLiteral_ends there

theorem sound (text : List Char) (round : List ℤ → D) (fuel : ℕ) : Sound text round fuel := by
  induction fuel with
  | zero =>
    exact ⟨fun _ few => by omega, fun _ few => by omega, fun _ _ few => by omega, fun _ few => by omega, fun _ _ few => by omega⟩
  | succ fuel ih =>
    exact ⟨parseValue_ends ih, parseArray_ends ih, elementsLoop_ends ih, parseObject_ends ih, membersLoop_ends ih⟩

/-! ## What the parser accepts -/

theorem Delimited.behind_ws (ws : Ws) (delimited : Delimited rest) : Delimited (ws.1 ++ rest) := by
  obtain ⟨_ | ⟨c, ws⟩, spaces⟩ := ws
  · exact delimited
  · exact .inr (.inl (spaces c List.mem_cons_self))

theorem front_number (n : Number) (rest : List Char) : front (n.text ++ rest) = 45 ∨ isDigit (front (n.text ++ rest)) = true := by
  rw [Number.text, Number.signText]
  cases n.minus with
  | true => exact .inl rfl
  | false =>
    refine .inr ?_
    rw [if_neg Bool.false_ne_true, List.nil_append, List.append_assoc]
    exact isDigit_front n.integer.1 _

theorem front_opening (c : Char) (opens : c ∈ ['n', 't', 'f', '"', '[', '{']) (tail : List Char) :
    isWhitespace (front (c :: tail)) = false ∧ front (c :: tail) ≠ 93 := by
  simp only [List.mem_cons, List.not_mem_nil, or_false] at opens
  obtain rfl | rfl | rfl | rfl | rfl | rfl := opens <;> exact ⟨rfl, by simp [front, codePoint]⟩

/-- A value starts with neither white space nor a closing bracket. -/
theorem front_value (d : Value) : isWhitespace (front (d.text ++ rest)) = false ∧ front (d.text ++ rest) ≠ 93 := by
  cases d with
  | number n =>
    have first := front_number n rest
    rw [Value.text]
    simp only [isDigit, Bool.and_eq_true, decide_eq_true_eq] at first
    simp only [isWhitespace, Bool.or_eq_false_iff, decide_eq_false_iff_not]
    omega
  | bool b =>
    cases b with
    | true => exact front_opening 't' (by decide) _
    | false => exact front_opening 'f' (by decide) _
  | null => exact front_opening 'n' (by decide) _
  | string items => exact front_opening '"' (by decide) _
  | emptyArray _ | array _ => exact front_opening '[' (by decide) _
  | emptyObject _ | object _ => exact front_opening '{' (by decide) _

theorem front_elements (d : Elements) (rest : List Char) :
    isWhitespace (front (d.body ++ rest)) = false ∧ front (d.body ++ rest) ≠ 93 := by
  cases d with
  | last before value after | more before value after others =>
    rw [Elements.body, List.append_assoc]
    exact front_value value

theorem front_members (d : Members) (rest : List Char) : front (d.body ++ rest) = 34 := by
  cases d with
  | last before key afterKey beforeValue value after | more before key afterKey beforeValue value after others => rfl

/-! The parsers with this much fuel return the meaning of every derivation. -/

section

variable (text : List Char) (round : List ℤ → D) (fuel : ℕ)

def ValueYields : Prop := ∀ {pos rest} {ws : Ws} {d : Value}, At text pos (ws.1 ++ (d.text ++ rest)) → Delimited rest →
  d.Paired → 3 * (d.text ++ rest).length + 1 ≤ fuel →
  Yields (parseValue (codePoints text) round fuel) text pos (d.value round) rest

def ArrayYields : Prop := ∀ {pos rest} {d : Elements}, At text pos ('[' :: (d.text ++ ']' :: rest)) → d.Paired →
  3 * (d.text ++ ']' :: rest).length + 3 ≤ fuel →
  Yields (parseArray (codePoints text) round fuel) text pos (.array (d.values round)) rest

def ElementsYield : Prop := ∀ {pos rest} items (ws : Ws) {d : Elements}, At text pos (ws.1 ++ (d.body ++ ']' :: rest)) →
  d.Paired → 3 * (d.body ++ ']' :: rest).length + 2 ≤ fuel →
  Yields (elementsLoop (codePoints text) round items fuel) text pos (.array (items ++ d.values round)) rest

def ObjectYields : Prop := ∀ {pos rest} {d : Members}, At text pos ('{' :: (d.text ++ '}' :: rest)) → d.Paired →
  3 * (d.text ++ '}' :: rest).length + 3 ≤ fuel →
  Yields (parseObject (codePoints text) round fuel) text pos (.object (OrderedAssoc.lastWins (d.fields round))) rest

def MembersYield : Prop := ∀ {pos rest} fields (ws : Ws) {d : Members}, At text pos (ws.1 ++ (d.body ++ '}' :: rest)) →
  d.Paired → 3 * (d.body ++ '}' :: rest).length + 2 ≤ fuel →
  Yields (membersLoop (codePoints text) round fields fuel) text pos
    (.object ((d.fields round).foldl (fun fields (key, value) => setField fields key value) fields)) rest

structure Complete : Prop where
  value : ValueYields text round fuel
  array : ArrayYields text round fuel
  elements : ElementsYield text round fuel
  object : ObjectYields text round fuel
  members : MembersYield text round fuel

end

theorem parseArray_run (complete : Complete text round fuel) : ArrayYields text round (fuel + 1) := by
  intro pos rest d here pairs enough
  rw [d.text_eq, List.append_assoc] at here enough
  rw [List.length_append] at enough
  obtain ⟨noSpace, noClose⟩ := front_elements d (']' :: rest)
  rw [parseArray]
  exact bracketed_items ']' here noSpace noClose fun there => complete.elements [] noWs there pairs (by omega)

theorem elementsLoop_run (complete : Complete text round fuel) : ElementsYield text round (fuel + 1) := by
  intro pos rest items ws d here pairs enough
  rw [elementsLoop]
  cases d with
  | last before value after =>
    simp only [Elements.body, List.append_assoc] at here enough
    have delimited : Delimited (after.1 ++ ']' :: rest) := .behind_ws after (by simp [Delimited, front, codePoint])
    refine .bind (complete.value here delimited pairs (by simp only [List.length_append] at enough ⊢; omega)) fun there => ?_
    exact separated_done ']' there rfl (by decide)
  | more before value after others =>
    simp only [Elements.body, List.append_assoc, List.cons_append] at here enough
    have delimited : Delimited (after.1 ++ ',' :: (others.text ++ ']' :: rest)) :=
      .behind_ws after (by simp [Delimited, front, codePoint])
    refine .bind (complete.value here delimited pairs.1 (by simp only [List.length_append] at enough ⊢; omega)) fun there => ?_
    refine separated_more ']' there fun next => ?_
    rw [others.text_eq, List.append_assoc] at next enough
    rw [Elements.values, List.append_cons items _ (others.values round)]
    exact complete.elements _ others.before next pairs.2 (by simp only [List.length_append, List.length_cons] at enough ⊢; omega)

theorem parseObject_run (complete : Complete text round fuel) : ObjectYields text round (fuel + 1) := by
  intro pos rest d here pairs enough
  rw [d.text_eq, List.append_assoc] at here enough
  rw [List.length_append] at enough
  have isQuote := front_members d ('}' :: rest)
  rw [parseObject, ← setFields_eq_lastWins]
  exact bracketed_items '}' here (by rw [isQuote]; rfl) (by rw [isQuote]; decide) fun there =>
    complete.members [] noWs there pairs (by omega)

theorem membersLoop_run (complete : Complete text round fuel) : MembersYield text round (fuel + 1) := by
  intro pos rest fields ws d here pairs enough
  rw [membersLoop]
  cases d with
  | last before key afterKey beforeValue value after =>
    simp only [Members.body, List.append_assoc, List.cons_append] at here enough
    have delimited : Delimited (after.1 ++ '}' :: rest) := .behind_ws after (by simp [Delimited, front, codePoint])
    refine .bind (parseKey_run pairs.1 here) fun atValue => .bind (complete.value atValue delimited pairs.2 ?_) fun there => ?_
    · simp only [List.length_append, List.length_cons] at enough ⊢
      omega
    · exact separated_done '}' there rfl (by decide)
  | more before key afterKey beforeValue value after others =>
    simp only [Members.body, List.append_assoc, List.cons_append] at here enough
    have delimited : Delimited (after.1 ++ ',' :: (others.text ++ '}' :: rest)) :=
      .behind_ws after (by simp [Delimited, front, codePoint])
    refine .bind (parseKey_run pairs.1 here) fun atValue => .bind (complete.value atValue delimited pairs.2.1 ?_) fun there => ?_
    · simp only [List.length_append, List.length_cons] at enough ⊢
      omega
    · refine separated_more '}' there fun next => ?_
      rw [others.text_eq, List.append_assoc] at next enough
      exact complete.members _ others.before next pairs.2.2
        (by simp only [List.length_append, List.length_cons] at enough ⊢; omega)

theorem literal_other {literal : List Char} {c d : Char} {tail : List Char} (differ : c ≠ d) (rest' : List Char) :
    c :: tail ≠ (d :: literal) ++ rest' := fun same => differ (List.cons.inj same).1

theorem parseLiteral_true {first : ℤ} (here : At text pos ("true".toList ++ rest)) :
    Yields (parseLiteral (codePoints text) first : Scan (Json D)) text pos (.bool true) rest :=
  .step (matchLiteral_run _ here) (.pure here.append)

theorem parseLiteral_false {first : ℤ} (here : At text pos ("false".toList ++ rest)) :
    Yields (parseLiteral (codePoints text) first : Scan (Json D)) text pos (.bool false) rest := by
  have notTrue := matchLiteral_not "true".toList here (literal_other (by decide))
  exact .step notTrue (.step (matchLiteral_run _ here) (.pure here.append))

theorem parseLiteral_null {first : ℤ} (here : At text pos ("null".toList ++ rest)) :
    Yields (parseLiteral (codePoints text) first : Scan (Json D)) text pos .null rest := by
  have notTrue := matchLiteral_not "true".toList here (literal_other (by decide))
  have notFalse := matchLiteral_not "false".toList here (literal_other (by decide))
  exact .step notTrue (.step notFalse (.step (matchLiteral_run _ here) (.pure here.append)))

theorem parseValue_run (complete : Complete text round fuel) : ValueYields text round (fuel + 1) := by
  intro pos rest ws d here delimited pairs enough
  rw [parseValue]
  refine .bind (skipWs_run here (front_value d).1) fun there => .step (peek_run there) ?_
  cases d with
  | null => exact parseLiteral_null there
  | bool b =>
    cases b with
    | true => exact parseLiteral_true there
    | false => exact parseLiteral_false there
  | number n =>
    rw [Value.text] at there ⊢
    have first := front_number n rest
    have other : front (n.text ++ rest) ≠ 123 ∧ front (n.text ++ rest) ≠ 91 ∧ front (n.text ++ rest) ≠ 34 := by
      simp only [isDigit, Bool.and_eq_true, decide_eq_true_eq] at first
      omega
    rw [if_neg other.1, if_neg other.2.1, if_neg other.2.2, if_pos first]
    exact parseNumber_run there delimited
  | string items => exact .bind (parseString_run pairs there) .pure
  | emptyArray between | emptyObject between =>
    rw [Value.text] at enough
    obtain ⟨fuel, rfl⟩ : ∃ n, fuel = n + 1 := ⟨fuel - 1, by simp at enough; omega⟩
    rw [Value.text, List.cons_append, List.append_assoc] at there
    exact bracketed_empty there rfl
  | array elements =>
    rw [Value.text, List.cons_append, List.append_assoc] at there enough
    exact complete.array there pairs (by simp at enough ⊢; omega)
  | object members =>
    rw [Value.text, List.cons_append, List.append_assoc] at there enough
    exact complete.object there pairs (by simp at enough ⊢; omega)

theorem complete (text : List Char) (round : List ℤ → D) (fuel : ℕ) : Complete text round fuel := by
  induction fuel with
  | zero =>
    exact ⟨fun _ _ _ few => by omega, fun _ _ few => by omega, fun _ _ _ _ few => by omega, fun _ _ few => by omega,
      fun _ _ _ _ few => by omega⟩
  | succ fuel ih =>
    exact ⟨parseValue_run ih, parseArray_run ih, elementsLoop_run ih, parseObject_run ih, membersLoop_run ih⟩

/-! ## Documents -/

theorem parseChars_ends (round : List ℤ → D) (text : List Char) :
    Ends Stop.Reported (parseChars round (codePoints text)) 0 fun v _ => ∃ doc : Document,
      doc.text = text ∧ doc.value.Paired ∧ v = doc.value.value round := by
  rw [parseChars]
  refine .bind ((sound text round _).value (.start text) (by rw [length_codePoints]; omega)) ?_
  rintro _ p ⟨before, _, split, d, rest₁, rfl, there, pairs, rfl⟩
  obtain ⟨after, rest₂, rfl, next, skipped, there⟩ := skipWs_splits there
  refine .step skipped (.get ?_)
  split_ifs with more
  · exact ends_fail there _
  · have length := there.length
    rw [length_codePoints] at more
    obtain rfl : rest₂ = [] := List.eq_nil_of_length_eq_zero (by omega)
    refine .pure ⟨⟨before, d, after⟩, ?_, pairs, rfl⟩
    rw [Document.text, split, List.append_nil]

theorem parseChars_run (round : List ℤ → D) {doc : Document} (pairs : doc.value.Paired) :
    Yields (parseChars round (codePoints doc.text)) doc.text 0 (doc.value.value round) [] := by
  have here : At doc.text 0 (doc.before.1 ++ (doc.value.text ++ (doc.after.1 ++ []))) := by
    rw [List.append_nil]
    exact .start doc.text
  refine .bind ((complete doc.text round _).value here (.behind_ws doc.after (.inl rfl)) pairs ?_) fun there => ?_
  · rw [length_codePoints, Document.text]
    simp
    omega
  · refine .bind (skipWs_run there rfl) fun done => .step rfl ?_
    rw [if_neg (by rw [length_codePoints, ← done.end_]; omega)]
    exact .pure done

end Thera.Sdk
