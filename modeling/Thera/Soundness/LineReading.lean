import Thera.Model.Sdk.Io
import Thera.Proofs.Sdk.Text

/-! # Lines do not depend on chunks

What a reader of lines will return depends on the bytes that are still to come and on nothing else: neither on how they arrive nor
on how far the buffer was scanned.
-/

namespace Thera.Sdk.Io

/-! ## The pieces of a stream -/

/-- The pieces between LF bytes; what stands behind the last LF is one if it is not empty. -/
def pieces (bytes : Bytes) : List Bytes :=
  if (bytes.splitOn 10).getLast? = some [] then (bytes.splitOn 10).dropLast else bytes.splitOn 10

theorem pieces_cons {bytes raw rest : Bytes} (splits : Splits bytes raw rest) : pieces bytes = raw :: pieces rest := by
  obtain ⟨rfl, none⟩ := splits
  have nonempty := List.splitOn_ne_nil 10 rest
  rw [pieces, pieces, List.splitOn_append_cons_self_of_not_mem none, List.getLast?_cons_of_ne_nil nonempty, List.dropLast_cons_of_ne_nil nonempty]
  split
  · rfl
  · rfl

theorem pieces_last {bytes : Bytes} (none : (10 : UInt8) ∉ bytes) : pieces bytes = if bytes = [] then [] else [bytes] := by
  rw [pieces, List.splitOn_eq_singleton none]
  by_cases empty : bytes = []
  · rw [if_pos empty, if_pos (by rw [empty]; rfl)]
    rfl
  · rw [if_neg empty, if_neg (by simpa using empty)]

/-! ## One line -/

def BufReader.stream (reader : BufReader) : Bytes := reader.buf ++ if reader.eof then [] else arriving reader.source

/-- The reader has not seen an LF in the part of the buffer that it skips, and its source will not fail. -/
structure BufReader.Fine (reader : BufReader) : Prop where
  scanned : (10 : UInt8) ∉ reader.buf.take reader.scanned
  healthy : reader.eof = false → failing reader.source = none

theorem indexOfLf_some {b raw rest : Bytes} {start : ℕ} (splits : Splits b raw rest) (before : (10 : UInt8) ∉ b.take start) :
    indexOfLf b start = some raw.length := by
  have inside := splits.inside before
  obtain ⟨rfl, none⟩ := splits
  rw [indexOfLf, findIdx?_drop_first none inside, Option.map_some, Nat.add_sub_cancel' inside]

theorem indexOfLf_none {b : Bytes} {start : ℕ} (none : (10 : UInt8) ∉ b) : indexOfLf b start = .none := by
  rw [indexOfLf, findIdx?_drop_absent none, Option.map_none]

/-- What a reader does: it returns the first piece of what is to come. -/
inductive Returns (reader : BufReader) : Except Halt (Option Text) × BufReader → Prop where
  | line {reader' : BufReader} {piece : Bytes} {text : Text} {rest : List Bytes} (first : pieces reader.stream = piece :: rest)
      (decoded : textOf (stripCr piece) = some text) (fine : reader'.Fine) (more : pieces reader'.stream = rest) :
      Returns reader (.ok (some text), reader')
  | invalid {reader' : BufReader} {piece : Bytes} {rest : List Bytes} (first : pieces reader.stream = piece :: rest)
      (undecoded : textOf (stripCr piece) = none) (fine : reader'.Fine) (more : pieces reader'.stream = rest) :
      Returns reader (.error .invalid, reader')
  | ended {reader' : BufReader} (noMore : pieces reader.stream = []) (fine : reader'.Fine) (more : pieces reader'.stream = []) :
      Returns reader (.ok none, reader')

theorem lineText_returns {reader reader' : BufReader} {piece : Bytes} {rest : List Bytes} (first : pieces reader.stream = piece :: rest)
    (fine : reader'.Fine) (more : pieces reader'.stream = rest) : Returns reader (lineText piece reader') := by
  rw [lineText]
  cases decoded : textOf (stripCr piece) with
  | some text => exact .line first decoded fine more
  | none => exact .invalid first decoded fine more

theorem Returns.congr {reader reader' : BufReader} {result : Except Halt (Option Text) × BufReader} (same : reader'.stream = reader.stream)
    (returns : Returns reader' result) : Returns reader result := by
  cases returns with
  | line first decoded fine more => exact .line (same ▸ first) decoded fine more
  | invalid first undecoded fine more => exact .invalid (same ▸ first) undecoded fine more
  | ended noMore fine more => exact .ended (same ▸ noMore) fine more

/-- A line that is in the buffer. -/
theorem readLineLoop_buffered {reader : BufReader} {fuel : ℕ} {raw rest : Bytes} (fine : reader.Fine) (splits : Splits reader.buf raw rest) :
    Returns reader (readLineLoop (fuel + 1) reader) := by
  have buf := splits.1
  have whole : Splits reader.stream raw (rest ++ if reader.eof then [] else arriving reader.source) :=
    ⟨by rw [BufReader.stream, buf, List.append_assoc]; rfl, splits.2⟩
  have behind : reader.buf.drop (raw.length + 1) = rest := by
    rw [buf, ← List.drop_drop, List.drop_left]
    rfl
  rw [readLineLoop, indexOfLf_some splits fine.scanned]
  dsimp only
  rw [behind, show reader.buf.take raw.length = raw by rw [buf, List.take_left]]
  exact lineText_returns (pieces_cons whole) ⟨List.not_mem_nil, fine.healthy⟩ rfl

/-- At the end of the input, what is in the buffer is the last line. -/
theorem readLineLoop_end {reader : BufReader} {fuel : ℕ} (here : (10 : UInt8) ∉ reader.buf) (atEnd : reader.eof = true) :
    Returns reader (readLineLoop (fuel + 1) reader) := by
  have stream : reader.stream = reader.buf := by rw [BufReader.stream, if_pos atEnd, List.append_nil]
  have healthy {P : Prop} (notEnd : reader.eof = false) : P := by
    rw [atEnd] at notEnd
    cases notEnd
  rw [readLineLoop, indexOfLf_none here]
  dsimp only
  rw [if_pos atEnd]
  by_cases empty : reader.buf = []
  · rw [if_neg (by rw [empty]; exact Nat.lt_irrefl 0)]
    refine .ended ?_ ⟨fun member => here (List.mem_of_mem_take member), healthy⟩ ?_
    · rw [stream, empty]
      rfl
    · rw [BufReader.stream, if_pos atEnd, empty]
      rfl
  · rw [if_pos (List.length_pos_of_ne_nil empty)]
    have last : pieces reader.stream = [reader.buf] := by rw [stream, pieces_last here, if_neg empty]
    refine lineText_returns last ⟨List.not_mem_nil, healthy⟩ ?_
    rw [BufReader.stream, if_pos atEnd]
    rfl

theorem readLineLoop_returns {reader : BufReader} {fuel : ℕ} (fine : reader.Fine)
    (enough : (if reader.eof then 0 else reader.source.length + 1) < fuel) : Returns reader (readLineLoop fuel reader) := by
  induction fuel generalizing reader with
  | zero => omega
  | succ fuel ih =>
    by_cases here : (10 : UInt8) ∈ reader.buf
    · obtain ⟨raw, rest, splits⟩ := List.eq_append_cons_of_mem here
      exact readLineLoop_buffered fine splits
    by_cases atEnd : reader.eof = true
    · exact readLineLoop_end here atEnd
    rw [if_neg atEnd] at enough
    have healthy := fine.healthy (Bool.eq_false_iff.mpr atEnd)
    rw [readLineLoop, indexOfLf_none here]
    dsimp only
    rw [if_neg atEnd]
    have skipped : (10 : UInt8) ∉ reader.buf.take reader.buf.length := by rwa [List.take_length]
    -- Reading on leaves the stream as it is; the buffer has no LF up to where it ended.
    cases source : reader.source with
    | nil =>
      refine .congr ?_ (ih ⟨skipped, Bool.noConfusion⟩ ?_)
      · rw [BufReader.stream, BufReader.stream, if_neg atEnd, source, arriving]
        rfl
      · rw [if_pos rfl]
        omega
    | cons answer rest =>
      rw [source] at healthy enough
      rw [List.length_cons] at enough
      cases answer with
      | error message => cases healthy
      | ok chunk =>
        cases chunk with
        | nil =>
          refine .congr ?_ (ih ⟨skipped, Bool.noConfusion⟩ ?_)
          · rw [BufReader.stream, BufReader.stream, if_neg atEnd, source, arriving]
            rfl
          · rw [if_pos rfl]
            omega
        | cons b chunk =>
          refine .congr ?_ (ih ⟨?_, fun _ => healthy⟩ ?_)
          · rw [BufReader.stream, BufReader.stream, if_neg atEnd, if_neg atEnd, source, arriving, List.append_assoc]
          · dsimp only
            rwa [List.take_left]
          · rw [if_neg atEnd]
            show rest.length + 1 < fuel
            omega

/-! ## All lines -/

/-- The reader after some calls. -/
def after : ℕ → BufReader → BufReader
  | 0, reader => reader
  | n + 1, reader => after n (readLine reader).2

theorem readLine_step {reader : BufReader} {texts : List Text} (fine : reader.Fine)
    (decoded : (pieces reader.stream).map (fun piece => textOf (stripCr piece)) = texts.map some) :
    (readLine reader).1 = .ok texts.head? ∧ (readLine reader).2.Fine ∧
      (pieces (readLine reader).2.stream).map (fun piece => textOf (stripCr piece)) = texts.tail.map some := by
  have returns : Returns reader (readLine reader) := readLineLoop_returns fine (by split <;> omega)
  generalize readLine reader = result at returns ⊢
  cases returns with
  | line first text fine' more =>
    rw [first, List.map_cons] at decoded
    cases texts with
    | nil => cases decoded
    | cons next texts =>
      obtain ⟨same, others⟩ := List.cons.inj decoded
      rw [text, Option.some.injEq] at same
      exact ⟨by rw [same]; rfl, fine', by rw [more]; exact others⟩
  | invalid first undecoded fine' more =>
    rw [first, List.map_cons, undecoded] at decoded
    cases texts with
    | nil => cases decoded
    | cons next texts => cases (List.cons.inj decoded).1
  | ended noMore fine' more =>
    rw [noMore] at decoded
    obtain rfl : texts = [] := List.map_eq_nil_iff.mp decoded.symm
    exact ⟨rfl, fine', by rw [more]; rfl⟩

theorem readLine_nth {reader : BufReader} {texts : List Text} (fine : reader.Fine)
    (decoded : (pieces reader.stream).map (fun piece => textOf (stripCr piece)) = texts.map some) (n : ℕ) :
    (readLine (after n reader)).1 = .ok texts[n]? := by
  induction n generalizing reader texts with
  | zero =>
    rw [← List.head?_eq_getElem?]
    exact (readLine_step fine decoded).1
  | succ n ih =>
    obtain ⟨-, fine', decoded'⟩ := readLine_step fine decoded
    rw [after, ih fine' decoded', List.getElem?_tail]

/-- Call by call, a reader returns the pieces of its bytes, each with one CR removed, and then nothing, however the bytes arrive. -/
theorem lines_ignore_chunks (chunks : List Bytes) (texts : List Text) (nonempty : ∀ chunk ∈ chunks, chunk ≠ [])
    (decoded : (pieces chunks.flatten).map (fun piece => textOf (stripCr piece)) = texts.map some) (n : ℕ) :
    (readLine (after n (BufReader.new (chunks.map .ok)))).1 = .ok texts[n]? := by
  obtain ⟨bytes, healthy⟩ := arriving_chunks nonempty
  apply readLine_nth ⟨List.not_mem_nil, fun _ => healthy⟩
  rwa [show (BufReader.new (chunks.map .ok)).stream = arriving (chunks.map .ok) from rfl, bytes]

theorem split_line_is_read :
    (readLine (after 1 (BufReader.new ([[97, 13], [10, 98], [99]].map .ok)))).1 = .ok (some ['b', 'c']) :=
  lines_ignore_chunks [[97, 13], [10, 98], [99]] [['a'], ['b', 'c']] (by decide) (by decide +kernel) 1

end Thera.Sdk.Io
