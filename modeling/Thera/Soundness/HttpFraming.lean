import Thera.Proofs.Sdk.HttpBody

/-! # The framing of bodies

A body is delivered exactly when every length that is met is taken for the number its digits denote. Content lengths with
a sign, and chunk sizes that wrap around, are taken for something else.
-/

namespace Thera.Sdk.Http

open Scanning

/-! ## Declared framings -/

section

variable (lowering : Lowering) (headers : Headers) (untilEof : Bool)

/-- The framing that headers declare. -/
def Declared (framing : Framing) : Prop :=
  match header lowering headers transferEncoding, header lowering headers contentLength with
  | some _, some _ => False
  | some encoding, none => trim (lowering.lower encoding) = "chunked".toList ∧ framing = .chunked
  | none, some raw => ∃ n, PlainSize 10 (trim raw) n ∧ framing = .length n
  | none, none => framing = if untilEof then .toEof else .empty

/-- Headers give the framing that they declare, and are refused if they declare none. -/
def FramingExact : Prop :=
  ∀ wire framing, framingOf lowering headers untilEof wire = .ok (framing, wire) ↔ Declared lowering headers untilEof framing

/-- A content length that frames a body is plain, or is refused. -/
def LengthsFine : Prop :=
  header lowering headers transferEncoding = none → ∀ raw, header lowering headers contentLength = some raw → LengthFine (trim raw)

end

section

variable {lowering : Lowering} {headers : Headers} {untilEof : Bool}

theorem framingOf_length {raw : Text} {wire : Wire} {framing : Framing} (noEncoding : header lowering headers transferEncoding = none)
    (length : header lowering headers contentLength = some raw) :
    framingOf lowering headers untilEof wire = .ok (framing, wire) ↔ ∃ n, TakesLength raw n ∧ framing = .length n := by
  rw [framingOf, noEncoding, length]
  dsimp only
  cases parsed : toInt (codePoints (trim raw)) with
  | none =>
    constructor
    · nofun
    · rintro ⟨n, ⟨size, run, -⟩, -⟩
      rw [parsed] at run
      cases run
  | some size =>
    dsimp only
    by_cases negative : size.1 < 0
    · rw [if_pos negative]
      constructor
      · nofun
      · rintro ⟨n, ⟨size', run, positive, -⟩, -⟩
        rw [parsed, Option.some.injEq] at run
        subst run
        omega
    · rw [if_neg negative]
      constructor
      · intro run
        cases run
        exact ⟨_, ⟨size, parsed, by omega, rfl⟩, rfl⟩
      · rintro ⟨n, ⟨size', run, -, rfl⟩, rfl⟩
        rw [parsed, Option.some.injEq] at run
        subst run
        rfl

theorem framingExact_iff : FramingExact lowering headers untilEof ↔ LengthsFine lowering headers := by
  cases encoding : header lowering headers transferEncoding with
  | some value =>
    refine iff_of_true (fun wire framing => ?_) fun noEncoding => by rw [encoding] at noEncoding; cases noEncoding
    rw [Declared, framingOf, encoding]
    cases length : header lowering headers contentLength with
    | some raw => exact ⟨nofun, nofun⟩
    | none =>
      dsimp only
      by_cases chunked : trim (lowering.lower value) = "chunked".toList
      · rw [if_neg (not_not_intro chunked)]
        constructor
        · intro run
          cases run
          exact ⟨chunked, rfl⟩
        · rintro ⟨-, rfl⟩
          rfl
      · rw [if_pos chunked]
        exact ⟨nofun, fun declared => absurd declared.1 chunked⟩
  | none =>
    cases length : header lowering headers contentLength with
    | none =>
      refine iff_of_true (fun wire framing => ?_) fun _ raw present => by rw [length] at present; cases present
      rw [Declared, framingOf, encoding, length]
      cases untilEof with
      | true =>
        constructor
        · intro run
          cases run
          rfl
        · rintro rfl
          rfl
      | false =>
        constructor
        · intro run
          cases run
          rfl
        · rintro rfl
          rfl
    | some raw =>
      have lengths : LengthsFine lowering headers ↔ LengthExact raw := by
        rw [lengthExact_iff, LengthsFine, encoding, length]
        simp
      have declared (framing : Framing) :
          Declared lowering headers untilEof framing ↔ ∃ n, PlainSize 10 (trim raw) n ∧ framing = .length n := by
        rw [Declared, encoding, length]
      simp only [lengths, FramingExact, framingOf_length encoding length, declared]
      constructor
      · intro same n
        have here := same (Wire.new []) (.length n)
        simpa using here
      · intro exact_ wire framing
        simp only [exact_ _]

end

/-! ## Runs -/

/-- Reads with the given maxima; the first error ends them. -/
def readMany (reader : BodyReader) : List ℤ → Http (List Bytes × BodyReader)
  | [] => return ([], reader)
  | max :: maxima => do
      let (out, reader) ← readSome reader max
      let (outs, reader) ← readMany reader maxima
      return (out :: outs, reader)

/-- Some reads lead from one state to another. -/
def Leads (reader : BodyReader) (wire : Wire) (maxima : List ℤ) (outs : List Bytes) (reader' : BodyReader) (wire' : Wire) : Prop :=
  readMany reader maxima wire = .ok ((outs, reader'), wire')

/-- How many of the reads ask for bytes. -/
def asking (maxima : List ℤ) : ℕ := maxima.countP (0 < ·)

/-- A body is read exactly. -/
structure RunExact (framing : Framing) (wire : Wire) : Prop where
  /-- Every state that is reached is a place in the body, behind the bytes that were delivered. -/
  reached : ∀ maxima outs reader' wire', Leads (BodyReader.new framing) wire maxima outs reader' wire' →
    Partway framing wire.stream outs.flatten reader' wire'.stream
  /-- A chunk size is taken for the number it denotes, and refused if it denotes none. -/
  sizes : ∀ maxima outs reader' wire', Leads (BodyReader.new framing) wire maxima outs reader' wire' → NextExact reader' wire'.stream
  /-- Enough reads deliver a body that is delimited, and leave what is behind it. -/
  delivered : ∀ data rest maxima, Delimits framing wire.stream data rest → (framing = .toEof → wire.fails = none) →
    data.length < asking maxima → ∃ outs reader' wire', Leads (BodyReader.new framing) wire maxima outs reader' wire' ∧
      outs.flatten = data ∧ reader'.done = true ∧ wire'.stream = rest

/-- In every state that is reached, the size that comes next does not come out as some other size. -/
def SizesFine (framing : Framing) (wire : Wire) : Prop :=
  ∀ maxima outs reader' wire', Leads (BodyReader.new framing) wire maxima outs reader' wire' →
    reader'.framing = .chunked → reader'.remaining = 0 → reader'.done = false →
      ∀ line rest, Line wire'.stream line rest → SizeFine (sizeField line)

theorem Leads.nil (reader : BodyReader) (wire : Wire) : Leads reader wire [] [] reader wire := rfl

theorem Leads.cons {reader reader₁ reader' : BodyReader} {wire wire₁ wire' : Wire} {max : ℤ} {maxima : List ℤ} {out : Bytes}
    {outs : List Bytes} (first : readSome reader max wire = .ok ((out, reader₁), wire₁))
    (more : Leads reader₁ wire₁ maxima outs reader' wire') : Leads reader wire (max :: maxima) (out :: outs) reader' wire' := by
  rw [Leads, readMany, run_bind first]
  dsimp only
  rw [run_bind more]
  rfl

theorem Leads.cases {reader reader' : BodyReader} {wire wire' : Wire} {max : ℤ} {maxima : List ℤ} {outs : List Bytes}
    (leads : Leads reader wire (max :: maxima) outs reader' wire') :
    ∃ out reader₁ wire₁ outs', outs = out :: outs' ∧ readSome reader max wire = .ok ((out, reader₁), wire₁) ∧
      Leads reader₁ wire₁ maxima outs' reader' wire' := by
  obtain ⟨⟨out, reader₁⟩, wire₁, first, run₁⟩ := run_bind_ok leads
  obtain ⟨⟨outs', reader₂⟩, wire₂, more, run₂⟩ := run_bind_ok run₁
  cases run₂
  exact ⟨out, reader₁, wire₁, outs', rfl, first, more⟩

/-- Places are kept along a run whose sizes are all taken for what they denote. -/
theorem Leads.partway {framing : Framing} {stream got : Bytes} {reader reader' : BodyReader} {wire wire' : Wire} {maxima : List ℤ}
    {outs : List Bytes} (here : Partway framing stream got reader wire.stream) (valid : wire.Valid)
    (sizes : ∀ maxima outs reader' wire', Leads reader wire maxima outs reader' wire' → NextExact reader' wire'.stream)
    (leads : Leads reader wire maxima outs reader' wire') :
    Partway framing stream (got ++ outs.flatten) reader' wire'.stream := by
  induction maxima generalizing got reader wire outs with
  | nil =>
    cases leads
    rwa [List.flatten_nil, List.append_nil]
  | cons max maxima ih =>
    obtain ⟨out, reader₁, wire₁, outs', rfl, first, more⟩ := leads.cases
    obtain ⟨here', valid'⟩ := here.step valid (sizes [] [] reader wire (.nil reader wire)) first
    rw [List.flatten_cons, ← List.append_assoc]
    exact ih here' valid' (fun maxima outs reader' wire' leads' => sizes _ _ reader' wire' (.cons first leads')) more

theorem Owes.of_done {reader : BodyReader} {stream data rest : Bytes} (owes : Owes reader stream data rest)
    (done : reader.done = true) : data = [] ∧ rest = stream := by
  cases owes with
  | done framing stream => exact ⟨rfl, rfl⟩
  | counted | toEof | between | inside => cases done

theorem Owes.delivered {reader : BodyReader} {wire : Wire} {data rest : Bytes} {maxima : List ℤ}
    (owes : Owes reader wire.stream data rest) (valid : wire.Valid) (noFailure : reader.framing = .toEof → wire.fails = none)
    (enough : reader.done = true ∨ data.length < asking maxima) :
    ∃ outs reader' wire', Leads reader wire maxima outs reader' wire' ∧ outs.flatten = data ∧ reader'.done = true ∧
      wire'.stream = rest ∧ wire'.Valid := by
  induction maxima generalizing reader wire data with
  | nil =>
    have done := enough.resolve_right (Nat.not_lt_zero _)
    obtain ⟨rfl, rfl⟩ := owes.of_done done
    exact ⟨[], reader, wire, .nil reader wire, rfl, done, rfl, valid⟩
  | cons max maxima ih =>
    by_cases idle : reader.done = true ∨ max ≤ 0
    · have enough' : reader.done = true ∨ data.length < asking maxima := by
        obtain done | least := idle
        · exact .inl done
        · refine enough.imp_right fun few => ?_
          rwa [asking, List.countP_cons_of_neg (by simpa using least)] at few
      obtain ⟨outs, reader', wire', leads, rest'⟩ := ih owes valid noFailure enough'
      exact ⟨[] :: outs, reader', wire', .cons (readSome_idle idle) leads, rest'⟩
    · rw [not_or, not_le] at idle
      obtain ⟨out, reader₁, wire₁, first, delivers⟩ := readSome_delivers owes valid noFailure idle.2
      obtain ⟨data', rfl, owes'⟩ := delivers.owes
      have enough' : reader₁.done = true ∨ data'.length < asking maxima := by
        by_cases empty : out = []
        · exact .inl (delivers.progress empty)
        · have length := List.length_pos_of_ne_nil empty
          have few := enough.resolve_left idle.1
          rw [asking, List.countP_cons_of_pos (by simpa using idle.2), List.length_append] at few
          exact .inr (by rw [asking]; omega)
      obtain ⟨outs, reader', wire', leads, same, rest'⟩ :=
        ih owes' delivers.valid (fun toEof => by rw [delivers.fails, noFailure (delivers.framing ▸ toEof)]) enough'
      exact ⟨out :: outs, reader', wire', .cons first leads, by rw [List.flatten_cons, same], rest'⟩

theorem framing_new (framing : Framing) : (BodyReader.new framing).framing = framing := rfl

theorem runExact_iff {framing : Framing} {wire : Wire} (valid : wire.Valid) : RunExact framing wire ↔ SizesFine framing wire := by
  have sizes {reader' : BodyReader} {wire' : Wire} : NextExact reader' wire'.stream ↔
      (reader'.framing = .chunked → reader'.remaining = 0 → reader'.done = false →
        ∀ line rest, Line wire'.stream line rest → SizeFine (sizeField line)) := by
    simp only [NextExact, sizeExact_iff]
  constructor
  · intro exact_ maxima outs reader' wire' leads
    exact sizes.mp (exact_.sizes maxima outs reader' wire' leads)
  · intro fine
    have exact_ : ∀ maxima outs reader' wire', Leads (BodyReader.new framing) wire maxima outs reader' wire' →
        NextExact reader' wire'.stream := fun maxima outs reader' wire' leads => sizes.mpr (fine maxima outs reader' wire' leads)
    refine ⟨fun maxima outs reader' wire' leads => ?_, exact_, fun data rest maxima delimits noFailure enough => ?_⟩
    · exact leads.partway (Partway.start framing wire.stream) valid exact_
    · obtain ⟨outs, reader', wire', leads, same, done, last, -⟩ := (Owes.start delimits).delivered valid
        (fun toEof => noFailure (framing_new framing ▸ toEof)) (.inr enough)
      exact ⟨outs, reader', wire', leads, same, done, last⟩

/-! ## Results -/

def asciiLowering : Lowering where
  lower text := text.map Char.toLower
  ascii _ _ := rfl

/-- A stream with a single chunk. -/
def oneChunk (size : String) : Wire := Wire.new [.ok (bytesOf (size ++ "\r\nhello\r\n0\r\n\r\n").toList)]

end Thera.Sdk.Http
