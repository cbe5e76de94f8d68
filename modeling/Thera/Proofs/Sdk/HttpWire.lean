import Thera.Model.Sdk.Http
import Thera.Proofs.Sdk.Text
import Thera.ToMathlib.Scanning

/-! # The wire as a stream

What a wire will give does not depend on the pieces in which it arrives: lines and bytes are taken from the front of one
stream, and what they leave is the stream of what comes next.
-/

namespace Thera.Sdk.Http

open Scanning

/-! ## Streams -/

/-- What is buffered and not consumed. -/
def Wire.rest (wire : Wire) : Bytes := wire.buf.drop wire.pos

def Wire.coming (wire : Wire) : Bytes := if wire.eof then [] else arriving wire.source

def Wire.stream (wire : Wire) : Bytes := wire.rest ++ wire.coming

def Wire.fails (wire : Wire) : Option String := if wire.eof then none else failing wire.source

def Wire.Valid (wire : Wire) : Prop := wire.pos ≤ wire.buf.length

theorem Wire.length_rest (wire : Wire) : wire.rest.length = wire.buffered := List.length_drop

/-- The wire has moved on in its stream. -/
structure Moved (wire wire' : Wire) (stream : Bytes) : Prop where
  valid : wire'.Valid
  stream : wire'.stream = stream
  fails : wire'.fails = wire.fails

theorem Moved.trans {wire wire' wire'' : Wire} {stream stream' : Bytes} (moved : Moved wire wire' stream)
    (moved' : Moved wire' wire'' stream') : Moved wire wire'' stream' :=
  ⟨moved'.valid, moved'.stream, moved'.fails.trans moved.fails⟩

/-! ## Filling the buffer -/

/-- What `fill` does. -/
inductive Filled (wire : Wire) : Except Halt (Bool × Wire) → Prop where
  | more {wire' : Wire} {chunk : Bytes} (moved : Moved wire wire' wire.stream) (rest : wire'.rest = wire.rest ++ chunk)
      (nonempty : chunk ≠ []) (shorter : wire'.source.length < wire.source.length) : Filled wire (.ok (true, wire'))
  | done {wire' : Wire} (moved : Moved wire wire' wire.stream) (rest : wire'.rest = wire.rest) (noMore : wire.coming = [])
      (noFailure : wire.fails = none) : Filled wire (.ok (false, wire'))
  | failed {message : String} (noMore : wire.coming = []) (failure : wire.fails = some message) :
      Filled wire (.error (.error (.body message)))

theorem fill_filled {wire : Wire} (valid : wire.Valid) : Filled wire (fill wire) := by
  rw [fill, run_get]
  by_cases atEnd : wire.eof = true
  · rw [if_pos atEnd]
    exact .done ⟨valid, rfl, rfl⟩ rfl (by rw [Wire.coming, if_pos atEnd]) (by rw [Wire.fails, if_pos atEnd])
  · have ended {wire' : Wire} (same : wire'.rest = wire.rest) (valid' : wire'.Valid) (isEnd : wire'.eof = true)
        (coming : wire.coming = []) (fails : wire.fails = none) : Filled wire (.ok (false, wire')) := by
      refine .done ⟨valid', ?_, ?_⟩ same coming fails
      · rw [Wire.stream, Wire.stream, coming, same, Wire.coming, if_pos isEnd]
      · rw [fails, Wire.fails, if_pos isEnd]
    rw [if_neg atEnd]
    cases source : wire.source with
    | nil =>
      exact ended rfl valid rfl (by rw [Wire.coming, if_neg atEnd, source, arriving]) (by rw [Wire.fails, if_neg atEnd, source, failing])
    | cons answer rest =>
      cases answer with
      | error message =>
        exact .failed (by rw [Wire.coming, if_neg atEnd, source, arriving]) (by rw [Wire.fails, if_neg atEnd, source, failing])
      | ok chunk =>
        cases chunk with
        | nil =>
          exact ended rfl valid rfl (by rw [Wire.coming, if_neg atEnd, source, arriving])
            (by rw [Wire.fails, if_neg atEnd, source, failing])
        | cons b chunk =>
          refine .more ⟨Nat.zero_le _, ?_, ?_⟩ rfl (List.cons_ne_nil b chunk) (by rw [source]; exact Nat.lt_succ_self _)
          · rw [Wire.stream, Wire.stream, Wire.coming, Wire.coming, if_neg atEnd, source, arriving]
            simp [Wire.rest, atEnd]
          · rw [Wire.fails, Wire.fails, if_neg atEnd, source, failing]
            simp [atEnd]

/-! ## Lines -/

/-- What `lineIn` finds. -/
theorem lineIn_some {wire : Wire} {scanned : ℕ} {raw rest : Bytes} (splits : Splits wire.rest raw rest) (inside : scanned ≤ raw.length) :
    lineIn wire scanned = some (stripCr raw, { wire with pos := wire.pos + raw.length + 1 }) := by
  obtain ⟨stream, none⟩ := splits
  have found : (List.drop scanned wire.rest).findIdx? (· = 10) = some (raw.length - scanned) := by
    rw [stream]
    exact findIdx?_drop_first none inside rest
  have here : wire.pos + scanned + (raw.length - scanned) = wire.pos + raw.length := by omega
  have byte (nonempty : raw ≠ []) : wire.buf.getD (wire.pos + raw.length - 1) 0 = raw.getLast nonempty := by
    have positive := List.length_pos_of_ne_nil nonempty
    have place : wire.pos + raw.length - 1 = wire.pos + (raw.length - 1) := by omega
    rw [place, List.getD_eq_getElem?_getD, ← List.getElem?_drop, show List.drop wire.pos wire.buf = wire.rest from rfl, stream,
      List.getElem?_append_left (by omega), List.getLast_eq_getElem, List.getElem?_eq_getElem (by omega)]
    rfl
  rw [lineIn, ← List.drop_drop, show wire.buf.drop wire.pos = wire.rest from rfl, found]
  simp only [here, Option.some.injEq, Prod.mk.injEq, and_true]
  show List.take _ wire.rest = _
  rw [stream, stripCr]
  by_cases nonempty : raw = []
  · subst nonempty
    simp
  · have positive := List.length_pos_of_ne_nil nonempty
    rw [byte nonempty, List.getLast?_eq_some_getLast nonempty]
    by_cases isCr : raw.getLast nonempty = 13
    · rw [if_pos ⟨by omega, isCr⟩, if_pos (by rw [isCr]), List.dropLast_eq_take,
        List.take_append_of_le_length (by omega)]
      congr 1
      omega
    · rw [if_neg (by tauto), if_neg (by simpa using isCr), List.take_append_of_le_length (by omega)]
      exact List.take_of_length_le (by omega)

theorem lineIn_none {wire : Wire} {scanned : ℕ} (none : (10 : UInt8) ∉ wire.rest) : lineIn wire scanned = .none := by
  rw [lineIn, ← List.drop_drop, show wire.buf.drop wire.pos = wire.rest from rfl, findIdx?_drop_absent none]

/-- What `readLine` does: it takes the first line of the stream, if there is one. -/
inductive LineRead (wire : Wire) : Except Halt (Option Text × Wire) → Prop where
  | line {raw rest : Bytes} {text : Text} {wire' : Wire} (splits : Splits wire.stream raw rest) (decoded : textOf (stripCr raw) = some text)
      (moved : Moved wire wire' rest) : LineRead wire (.ok (some text, wire'))
  | invalid {raw rest : Bytes} {message : String} (splits : Splits wire.stream raw rest) (undecoded : textOf (stripCr raw) = none) :
      LineRead wire (.error (.error (.protocol message)))
  | ended {wire' : Wire} (empty : wire.stream = []) (noFailure : wire.fails = none) (moved : Moved wire wire' []) :
      LineRead wire (.ok (none, wire'))
  | cut {message : String} (nonempty : wire.stream ≠ []) (noLine : (10 : UInt8) ∉ wire.stream) (noFailure : wire.fails = none) :
      LineRead wire (.error (.error (.protocol message)))
  | failed {message : String} (noLine : (10 : UInt8) ∉ wire.stream) (failure : wire.fails = some message) :
      LineRead wire (.error (.error (.body message)))

theorem LineRead.congr {wire wire' : Wire} {result : Except Halt (Option Text × Wire)} (same : Moved wire wire' wire.stream)
    (read : LineRead wire' result) : LineRead wire result := by
  have stream := same.stream
  have fails := same.fails
  cases read with
  | line splits decoded next => exact .line (stream ▸ splits) decoded (same.trans next)
  | invalid splits undecoded => exact .invalid (stream ▸ splits) undecoded
  | ended empty noFailure next => exact .ended (stream ▸ empty) (fails ▸ noFailure) (same.trans next)
  | cut nonempty noLine noFailure => exact .cut (stream ▸ nonempty) (stream ▸ noLine) (fails ▸ noFailure)
  | failed noLine failure => exact .failed (stream ▸ noLine) (fails ▸ failure)

theorem Moved.skip {wire : Wire} {raw rest : Bytes} (valid : wire.Valid) (splits : Splits wire.rest raw rest) :
    Moved wire { wire with pos := wire.pos + raw.length + 1 } (rest ++ wire.coming) := by
  have length := congrArg List.length splits.1
  rw [Wire.length_rest, Wire.buffered, List.length_append, List.length_cons] at length
  have rest' : wire.buf.drop (wire.pos + raw.length + 1) = rest := by
    rw [Nat.add_assoc, ← List.drop_drop, show wire.buf.drop wire.pos = wire.rest from rfl, splits.1, ← List.drop_drop, List.drop_left]
    rfl
  refine ⟨?_, ?_, rfl⟩
  · show wire.pos + raw.length + 1 ≤ wire.buf.length
    omega
  · exact congrArg (· ++ wire.coming) rest'

theorem readLineLoop_read {wire : Wire} {scanned fuel : ℕ} (valid : wire.Valid) (enough : wire.source.length < fuel)
    (before : (10 : UInt8) ∉ wire.rest.take scanned) : LineRead wire (readLineLoop scanned fuel wire) := by
  induction fuel generalizing wire scanned with
  | zero => omega
  | succ fuel ih =>
    rw [readLineLoop, run_get]
    by_cases here : (10 : UInt8) ∈ wire.rest
    · obtain ⟨raw, rest, splits⟩ := List.eq_append_cons_of_mem here
      have streams : Splits wire.stream raw (rest ++ wire.coming) :=
        ⟨by rw [Wire.stream, splits.1, List.append_assoc, List.cons_append], splits.2⟩
      rw [lineIn_some splits (Splits.inside splits before)]
      dsimp only
      rw [run_set]
      cases decoded : textOf (stripCr raw) with
      | some text => exact .line streams decoded (.skip valid splits)
      | none => exact .invalid streams decoded
    · rw [lineIn_none here]
      dsimp only
      refine bind_elim (P := LineRead wire) (fill_filled valid) (fun filled => ?_) fun _ wire' filled => ?_
      · cases filled with
        | failed noMore failure => exact .failed (by rwa [Wire.stream, noMore, List.append_nil]) failure
      · cases filled with
        | more moved rest nonempty shorter =>
          rw [if_pos rfl]
          refine .congr moved (ih moved.valid (by omega) ?_)
          rwa [rest, ← Wire.length_rest, List.take_left]
        | done moved rest noMore noFailure =>
          rw [if_neg Bool.false_ne_true, run_get, ← Wire.length_rest, rest]
          have stream : wire.stream = wire.rest := by rw [Wire.stream, noMore, List.append_nil]
          by_cases empty : wire.rest = []
          · rw [if_pos (by rw [empty]; rfl)]
            exact .ended (stream.trans empty) noFailure (by rwa [stream, empty] at moved)
          · rw [if_neg (by rwa [List.length_eq_zero_iff])]
            exact .cut (stream ▸ empty) (stream ▸ here) noFailure

theorem readLine_read {wire : Wire} (valid : wire.Valid) : LineRead wire (readLine wire) := by
  rw [readLine, run_get]
  exact readLineLoop_read valid (Nat.lt_succ_self _) (by simp)

/-! ## Bytes -/

/-- What `takeBuffered` does when it is asked for bytes. -/
inductive Took (wire : Wire) (max : ℤ) : Except Halt (Bytes × Wire) → Prop where
  | some (rest : Bytes) {got : Bytes} {wire' : Wire} (nonempty : got ≠ []) (stream : wire.stream = got ++ rest) (few : (got.length : ℤ) ≤ max)
      (moved : Moved wire wire' rest) : Took wire max (.ok (got, wire'))
  | none {wire' : Wire} (empty : wire.stream = []) (noFailure : wire.fails = Option.none) (moved : Moved wire wire' []) :
      Took wire max (.ok ([], wire'))
  | failed {message : String} (empty : wire.stream = []) (failure : wire.fails = Option.some message) :
      Took wire max (.error (.error (.body message)))

theorem takeHere_took {wire wire' : Wire} {max : ℤ} (positive : 0 < max) (moved : Moved wire wire' wire.stream)
    (more : wire'.rest ≠ []) : Took wire max (takeHere max wire') := by
  rw [takeHere, run_get, run_set]
  have bound := moved.valid
  have some := List.length_pos_of_ne_nil more
  rw [Wire.length_rest, Wire.buffered] at some
  rw [Wire.Valid] at bound
  refine .some (wire'.rest.drop (min wire'.buffered max.toNat) ++ wire'.coming) ?_ ?_ ?_ ⟨?_, ?_, moved.fails⟩
  · rw [Wire.buffered]
    apply List.ne_nil_of_length_pos
    rw [List.length_take, List.length_drop]
    omega
  · rw [← moved.stream, Wire.stream, Wire.rest, ← List.append_assoc, List.take_append_drop]
  · rw [List.length_take, List.length_drop, Wire.buffered]
    omega
  · show wire'.pos + min wire'.buffered max.toNat ≤ wire'.buf.length
    rw [Wire.buffered]
    omega
  · rw [Wire.stream, Wire.rest, Wire.rest, List.drop_drop]
    rfl

theorem takeBuffered_took {wire : Wire} {max : ℤ} (valid : wire.Valid) (positive : 0 < max) : Took wire max (takeBuffered max wire) := by
  rw [takeBuffered, if_neg (by omega), run_get, ← Wire.length_rest]
  by_cases empty : wire.rest = []
  · rw [if_pos (by rw [empty]; rfl)]
    have stream (noMore : wire.coming = []) : wire.stream = [] := by rw [Wire.stream, empty, noMore]; rfl
    refine bind_elim (P := Took wire max) (fill_filled valid) (fun filled => ?_) fun _ wire' filled => ?_
    · cases filled with
      | failed noMore failure => exact .failed (stream noMore) failure
    · cases filled with
      | more moved rest nonempty shorter =>
        rw [if_pos rfl]
        exact takeHere_took positive moved (by rw [rest]; simp [nonempty])
      | done moved rest noMore noFailure =>
        rw [if_neg Bool.false_ne_true]
        exact .none (stream noMore) noFailure (stream noMore ▸ moved)
  · rw [if_neg (by rwa [List.length_eq_zero_iff])]
    exact takeHere_took positive ⟨valid, rfl, rfl⟩ empty

end Thera.Sdk.Http
