import Thera.Proofs.Prose.Blocks
import Thera.Proofs.Prose.Wrap

/-! # Wrapping and structure

A wrapped paragraph is read back as one paragraph unless the margin sets a bold label off on a line of its own: every other lead is
decided by the first word of its line, and no line but the first is started with such a word.
-/

namespace Thera.Prose

open Sdk

/-! ## Leads -/

/-- The leads that the first word of a line decides. -/
def Opens (content : Text) : Prop :=
  3 ≤ fenceLen content ∨ content.head? = some ' ' ∨
    (content.head? = some '-' ∧ (content.tail = [] ∨ content.tail.head? = some ' ')) ∨ isOrderedLead content = true

theorem isBlockLead_iff {content : Text} (some : content ≠ []) :
    isBlockLead content = true ↔ Opens content ∨ isBoldLabel content = true := by
  obtain ⟨c, rest, rfl⟩ := List.exists_cons_of_ne_nil some
  simp only [isBlockLead, Opens, List.head?_cons, List.tail_cons, Option.some_inj, ge_iff_le, Bool.if_true_left, Bool.or_eq_true,
    decide_eq_true_eq, or_assoc]

theorem takeWhile_space {test : Char → Bool} (stops : test ' ' = false) (content more : Text) :
    (content ++ ' ' :: more).takeWhile test = content.takeWhile test := by
  rw [List.takeWhile_append]
  split
  next all =>
    rw [List.takeWhile_cons_of_neg (by rw [stops]; decide), List.append_nil]
    exact (List.IsPrefix.eq_of_length (List.takeWhile_prefix _) all).symm
  next => rfl

theorem dropWhile_space {test : Char → Bool} (stops : test ' ' = false) (content more : Text) :
    (content ++ ' ' :: more).dropWhile test = content.dropWhile test ++ ' ' :: more := by
  rw [List.dropWhile_append]
  split
  next none =>
    rw [List.dropWhile_cons_of_neg (by rw [stops]; decide), List.isEmpty_iff.mp none]
    rfl
  next => rfl

theorem fenceLen_append (content more : Text) : fenceLen (content ++ ' ' :: more) = fenceLen content := by
  rw [fenceLen, fenceLen, takeWhile_space (by decide)]

theorem isOrderedLead_append (content more : Text) : isOrderedLead (content ++ ' ' :: more) = isOrderedLead content := by
  rw [isOrderedLead, isOrderedLead, takeWhile_space (by decide), dropWhile_space (by decide)]
  generalize content.takeWhile (fun c => isDigit (codePoint c)) = front
  generalize content.dropWhile (fun c => isDigit (codePoint c)) = back
  cases front with
  | nil => rfl
  | cons d front =>
    cases back with
    | nil => rfl
    | cons c back =>
      by_cases dot : c = '.'
      · subst dot
        cases back with
        | nil | cons e back => rfl
      · simp [dot]

/-- A word with a space behind it opens what the word opens. -/
theorem opens_append {content : Text} (some : content ≠ []) (more : Text) : Opens (content ++ ' ' :: more) ↔ Opens content := by
  obtain ⟨c, rest, rfl⟩ := List.exists_cons_of_ne_nil some
  have next : rest ++ ' ' :: more = [] ∨ (rest ++ ' ' :: more).head? = Option.some ' ' ↔ rest = [] ∨ rest.head? = Option.some ' ' := by
    cases rest <;> simp
  unfold Opens
  rw [fenceLen_append, isOrderedLead_append]
  simp only [List.cons_append, List.head?_cons, List.tail_cons, next]

theorem opens_joinWords {a : Text} (some : a ≠ []) (rest : List Text) : Opens (joinWords (a :: rest)) ↔ Opens a := by
  cases rest with
  | nil => rw [joinWords_singleton]
  | cons b rest => rw [joinWords_cons a (by simp), opens_append some]

theorem joinWords_ne_nil {a : Text} (some : a ≠ []) (rest : List Text) : joinWords (a :: rest) ≠ [] := by
  cases rest with
  | nil => rwa [joinWords_singleton]
  | cons b rest =>
    rw [joinWords_cons a (by simp)]
    simp

/-- A line is a paragraph's exactly if its first word opens nothing and it is no label. -/
theorem plain_joinWords {a : Text} (some : a ≠ []) (rest : List Text) :
    Plain (joinWords (a :: rest)) ↔ ¬ Opens a ∧ isBoldLabel (joinWords (a :: rest)) = false := by
  have nonempty := joinWords_ne_nil some rest
  rw [Plain, ← Bool.not_eq_true, isBlockLead_iff nonempty, opens_joinWords some, not_or, Bool.not_eq_true]
  exact and_iff_right nonempty

/-! ## Wrapped paragraphs -/

section

variable {text : Text} {atoms : List Text}

theorem wrapped_iff (scan : atomsOf text = some atoms) (avail : ℤ) :
    (∃ b, blocksOf (wrapAtoms atoms avail) = [b] ∧ b.kind = .prose) ↔
      (∃ first ∈ atoms.head?, ¬ Opens first) ∧ ∀ line, SetOff avail atoms line → isBoldLabel (joinWords line) = false := by
  have words := atomsOf_ne_nil scan
  rw [one_paragraph_iff, Ne, wrapAtoms_eq_nil]
  constructor
  · rintro ⟨some, plain⟩
    have plain_line {line : List Text} (setOff : SetOff avail atoms line) : Plain (joinWords line) :=
      plain _ (mem_wrapAtoms.mpr ⟨line, setOff, rfl⟩)
    constructor
    · obtain ⟨line, post, split, lineSome, isLine, breaks⟩ := @exists_first_line avail atoms some
      obtain ⟨first, rest, rfl⟩ := List.exists_cons_of_ne_nil lineSome
      refine ⟨first, by rw [split]; rfl, ?_⟩
      exact ((plain_joinWords (words first (by rw [split]; simp)) rest).mp (plain_line ⟨[], post, split, lineSome, isLine, breaks⟩)).1
    · intro line setOff
      obtain ⟨pre, post, split, lineSome, -⟩ := id setOff
      obtain ⟨a, rest, rfl⟩ := List.exists_cons_of_ne_nil lineSome
      exact ((plain_joinWords (words a (by rw [split]; simp)) rest).mp (plain_line setOff)).2
  · rintro ⟨⟨first, head, closed⟩, noLabel⟩
    refine ⟨fun none => (by rw [none] at head; cases head), fun line member => ?_⟩
    obtain ⟨line, setOff, rfl⟩ := mem_wrapAtoms.mp member
    obtain ⟨pre, post, split, lineSome, isLine, -⟩ := id setOff
    obtain ⟨a, rest, rfl⟩ := List.exists_cons_of_ne_nil lineSome
    have aSome : a ≠ [] := words a (by rw [split]; simp)
    refine (plain_joinWords aSome rest).mpr ⟨fun opens => ?_, noLabel _ setOff⟩
    cases pre with
    | nil =>
      rw [split] at head
      obtain rfl := Option.mem_some_iff.mp head
      exact closed opens
    | cons b pre =>
      -- A line behind the first does not start with a lead.
      have safe := safe_of_starts (by simp) (lastLine_starts isLine)
      unfold isWrapUnsafeLead at safe
      rw [if_pos ((isBlockLead_iff aSome).mpr (.inl opens))] at safe
      cases safe

/-- In lines without tabs, the first word opens what the first line opens. -/
theorem first_word_closed {lines : List Text} (some : lines ≠ []) (plain : ∀ line ∈ lines, Plain line)
    (noTab : ∀ line ∈ lines, '\t' ∉ line) (scan : atomsOf (joinWords lines) = .some atoms) : ∃ first ∈ atoms.head?, ¬ Opens first := by
  obtain ⟨l, more, rfl⟩ := List.exists_cons_of_ne_nil some
  obtain ⟨lSome, noLead⟩ := plain l List.mem_cons_self
  have closed : ¬ Opens (joinWords (l :: more)) := by
    rw [opens_joinWords lSome]
    intro opens
    rw [(isBlockLead_iff lSome).mpr (.inl opens)] at noLead
    cases noLead
  have tabFree : '\t' ∉ joinWords (l :: more) := by
    intro member
    obtain space | ⟨line, there, tab⟩ := mem_joinWords member
    · cases space
    · exact noTab line there tab
  have starts : ∀ c ∈ (joinWords (l :: more)).head?, isSpace c = false := by
    intro c head
    rw [isSpace, Bool.or_eq_false_iff, decide_eq_false_iff_not, decide_eq_false_iff_not]
    refine ⟨fun space => closed (.inr (.inl (space ▸ head))), fun tab => tabFree (List.mem_of_mem_head? (tab ▸ head))⟩
  obtain ⟨first, rest, rfl, reads⟩ := atomsOf_first scan (joinWords_ne_nil lSome more) starts
  refine ⟨first, rfl, fun opens => closed ?_⟩
  obtain same | ⟨c, behind, reads, space⟩ := reads
  · rwa [same]
  · rw [isSpace, Bool.or_eq_true, decide_eq_true_eq, decide_eq_true_eq] at space
    obtain rfl | rfl := space
    · rwa [reads, opens_append (atomsOf_ne_nil scan first List.mem_cons_self)]
    · exact absurd (by rw [reads]; simp) tabFree

end

/-- A paragraph that is wrapped is read back as one paragraph exactly if its first word opens nothing and the margin sets no bold label off
on a line of its own. A tab before or behind its first word aside, its first word opens nothing. -/
theorem wrap_is_one_paragraph_iff (lines : List Text) (block : Block) (atoms : List Text) (avail : ℤ) (produced : block ∈ blocksOf lines)
    (prose : block.kind = .prose) (scan : atomsOf (joinWords block.lines) = some atoms) :
    ((∃ b, blocksOf (wrapAtoms atoms avail) = [b] ∧ b.kind = .prose) ↔
      (∃ first ∈ atoms.head?, ¬ Opens first) ∧ ∀ line, SetOff avail atoms line → isBoldLabel (joinWords line) = false) ∧
    ((∀ line ∈ block.lines, '\t' ∉ line) → ∃ first ∈ atoms.head?, ¬ Opens first) := by
  obtain ⟨some, plain⟩ := (covers_blocksOf lines).2 block produced
  exact ⟨wrapped_iff scan avail, fun noTab => first_word_closed some (plain prose) noTab scan⟩

theorem wrap_is_one_paragraph_hello :
    ((∃ b, blocksOf (wrapAtoms ["hello".toList, "world".toList] 24) = [b] ∧ b.kind = .prose) ↔
      (∃ first ∈ ["hello".toList, "world".toList].head?, ¬ Opens first) ∧
        ∀ line, SetOff 24 ["hello".toList, "world".toList] line → isBoldLabel (joinWords line) = false) ∧
    ((∀ line ∈ ["hello".toList, "world".toList], '\t' ∉ line) → ∃ first ∈ ["hello".toList, "world".toList].head?, ¬ Opens first) :=
  wrap_is_one_paragraph_iff ["hello".toList, "world".toList] ⟨.prose, ["hello".toList, "world".toList]⟩ ["hello".toList, "world".toList] 24
    (by decide) rfl (by decide)

/-- Two lines that are one label when they are joined, and are read back as one. -/
theorem label_across_lines :
    blocksOf ["**Foo".toList, "bar:**".toList] = [⟨.prose, ["**Foo".toList, "bar:**".toList]⟩] ∧
    atomsOf (joinWords ["**Foo".toList, "bar:**".toList]) = some ["**Foo".toList, "bar:**".toList] ∧
    wrapAtoms ["**Foo".toList, "bar:**".toList] 80 = ["**Foo bar:**".toList] ∧
    blocksOf (wrapAtoms ["**Foo".toList, "bar:**".toList] 80) = [⟨.verbatim, ["**Foo bar:**".toList]⟩] := by
  decide

end Thera.Prose
