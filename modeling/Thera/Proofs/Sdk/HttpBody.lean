import Thera.Proofs.Sdk.HttpSizes

/-! # Bodies

What a framing delimits in a stream, and what one read of a body does. The reader of a body is at a place that the framing
describes: behind some bytes of the body, with so many left of the current frame.
-/

namespace Thera.Sdk.Http

open Scanning

/-! ## Lines of text -/

/-- The stream starts with a line of text. -/
def Line (stream : Bytes) (line : Text) (rest : Bytes) : Prop := ∃ raw, Splits stream raw rest ∧ textOf (stripCr raw) = some line

variable {stream rest data : Bytes} {wire : Wire} {reader : BodyReader} {max : ℤ} {left : ℕ}

theorem Line.unique {rest' : Bytes} {line line' : Text} (here : Line stream line rest)
    (here' : Line stream line' rest') : line = line' ∧ rest = rest' := by
  obtain ⟨raw, splits, decoded⟩ := here
  obtain ⟨raw', splits', decoded'⟩ := here'
  obtain ⟨rfl, rfl⟩ := splits.unique splits'
  rw [decoded, Option.some.injEq] at decoded'
  exact ⟨decoded', rfl⟩

theorem Line.shorter {line : Text} (here : Line stream line rest) : rest.length < stream.length := by
  obtain ⟨raw, ⟨rfl, -⟩, -⟩ := here
  rw [List.length_append, List.length_cons]
  omega

theorem Line.lf {line : Text} (here : Line stream line rest) : (10 : UInt8) ∈ stream := by
  obtain ⟨raw, ⟨rfl, -⟩, -⟩ := here
  exact List.mem_append_right raw List.mem_cons_self

theorem noLine_of_undecoded {raw rest' : Bytes} {line : Text} (splits : Splits stream raw rest) (undecoded : textOf (stripCr raw) = none) :
    ¬ Line stream line rest' := by
  rintro ⟨raw', splits', decoded⟩
  obtain ⟨rfl, rfl⟩ := splits.unique splits'
  rw [undecoded] at decoded
  cases decoded

/-- A step that needs a line. -/
theorem readLine_elim {α : Type} {P : Except Halt (α × Wire) → Prop} {next : Option Text → Http α} (valid : wire.Valid)
    (failed : (∀ line rest, ¬ Line wire.stream line rest) → ∀ {e}, P (.error (.error e)))
    (ended : ∀ wire', ∃ e, next none wire' = .error (.error e))
    (taken : ∀ line rest wire', Line wire.stream line rest → Moved wire wire' rest → P (next (some line) wire')) :
    P ((readLine >>= next) wire) := by
  have missing (noLf : (10 : UInt8) ∉ wire.stream) : ∀ line rest, ¬ Line wire.stream line rest := fun _ _ here => noLf here.lf
  refine bind_elim (P := P) (readLine_read valid) (fun read => ?_) fun _ wire' read => ?_
  · cases read with
    | invalid splits undecoded => exact failed fun _ _ => noLine_of_undecoded splits undecoded
    | cut nonempty noLf | failed noLf => exact failed (missing noLf)
  · cases read with
    | line splits decoded moved => exact taken _ _ _ ⟨_, splits, decoded⟩ moved
    | ended empty =>
      obtain ⟨e, stops⟩ := ended wire'
      rw [stops]
      exact failed (missing (by simp [empty]))

/-! ## What a framing delimits -/

/-- A chunk-size line: its field is a plain number. -/
def SizeLine (stream : Bytes) (n : ℕ) (rest : Bytes) : Prop := ∃ line, Line stream line rest ∧ PlainSize 16 (sizeField line) n

/-- Trailer lines, up to a blank one. -/
inductive Trailers : Bytes → Bytes → Prop where
  | blank {stream rest : Bytes} (blank : Line stream [] rest) : Trailers stream rest
  | field {stream next rest : Bytes} {line : Text} (here : Line stream line next) (nonempty : line ≠ []) (more : Trailers next rest) :
      Trailers stream rest

/-- A chunk: its size, as many bytes, and a blank rest of the line. -/
def Chunk (stream chunk rest : Bytes) : Prop :=
  chunk ≠ [] ∧ ∃ behind, SizeLine stream chunk.length (chunk ++ behind) ∧ Line behind [] rest

inductive Chunks : Bytes → Bytes → Bytes → Prop where
  | nil (stream : Bytes) : Chunks stream [] stream
  | cons {stream chunk next data rest : Bytes} (first : Chunk stream chunk next) (more : Chunks next data rest) :
      Chunks stream (chunk ++ data) rest

def LastChunk (stream rest : Bytes) : Prop := ∃ next, SizeLine stream 0 next ∧ Trailers next rest

/-- The body that a framing delimits at the front of a stream, and what is behind it. -/
def Delimits : Framing → (stream data rest : Bytes) → Prop
  | .empty, stream, data, rest => data = [] ∧ rest = stream
  | .length n, stream, data, rest => stream = data ++ rest ∧ data.length = n
  | .chunked, stream, data, rest => ∃ next, Chunks stream data next ∧ LastChunk next rest
  | .toEof, stream, data, rest => data = stream ∧ rest = []

theorem Chunks.snoc {next chunk : Bytes} (chunks : Chunks stream data next) (last : Chunk next chunk rest) :
    Chunks stream (data ++ chunk) rest := by
  induction chunks with
  | nil stream =>
    have single := Chunks.cons last (.nil rest)
    rwa [List.append_nil] at single
  | cons first more ih =>
    rw [List.append_assoc]
    exact .cons first (ih last)

/-- A place in a body: the framing gives `got` at the front of the stream, and leaves the reader and `rest`. -/
inductive Partway : Framing → (stream got : Bytes) → BodyReader → (rest : Bytes) → Prop where
  | empty (stream : Bytes) : Partway .empty stream [] ⟨.empty, 0, true⟩ stream
  | counted {n left : ℕ} {stream got rest : Bytes} {done : Bool} (split : stream = got ++ rest) (total : got.length + left = n)
      (finished : done = true → left = 0) : Partway (.length n) stream got ⟨.length n, left, done⟩ rest
  | toEof {stream got rest : Bytes} {done : Bool} (split : stream = got ++ rest) (finished : done = true → rest = []) :
      Partway .toEof stream got ⟨.toEof, 0, done⟩ rest
  | between {stream got rest : Bytes} (chunks : Chunks stream got rest) : Partway .chunked stream got ⟨.chunked, 0, false⟩ rest
  | inside {stream before next part rest : Bytes} {left : ℕ} (chunks : Chunks stream before next)
      (size : SizeLine next (part.length + left) (part ++ rest)) (more : left ≠ 0) :
      Partway .chunked stream (before ++ part) ⟨.chunked, left, false⟩ rest
  | finished {stream got next rest : Bytes} (chunks : Chunks stream got next) (last : LastChunk next rest) :
      Partway .chunked stream got ⟨.chunked, 0, true⟩ rest

theorem Partway.start (framing : Framing) (stream : Bytes) : Partway framing stream [] (BodyReader.new framing) stream := by
  cases framing with
  | empty => exact .empty stream
  | length n => exact .counted rfl (Nat.zero_add n) nofun
  | chunked => exact .between (.nil stream)
  | toEof => exact .toEof rfl nofun

/-! ## What a read does -/

/-- A line that is taken for a chunk size. -/
def TakenLine (stream : Bytes) (n : ℕ) (rest : Bytes) : Prop := ∃ line, Line stream line rest ∧ TakesSize line n

theorem SizeLine.taken {n : ℕ} (here : SizeLine stream n rest) : TakenLine stream n rest := by
  obtain ⟨line, here, plain⟩ := here
  exact ⟨line, here, takesSize_of_plain plain⟩

theorem Wire.stream_length_le : wire.stream.length ≤ wire.unread := by
  have arrives (source : List (Except String Bytes)) : (arriving source).length ≤ (Wire.new source).unread := by
    induction source with
    | nil => exact le_refl 0
    | cons answer rest ih =>
      cases answer with
      | error message => exact Nat.zero_le _
      | ok chunk =>
        cases chunk with
        | nil => exact Nat.zero_le _
        | cons b chunk =>
          simp only [Wire.unread, Wire.new, Wire.buffered, List.length_nil, Nat.sub_self, Nat.zero_add] at ih ⊢
          rw [arriving, List.length_append, List.map_cons, List.sum_cons]
          exact Nat.add_le_add_left ih _
  have unread : wire.unread = wire.buffered + (Wire.new wire.source).unread := by
    simp only [Wire.unread, Wire.new, Wire.buffered, List.length_nil, Nat.sub_self, Nat.zero_add]
  rw [Wire.stream, List.length_append, Wire.length_rest, unread, Wire.coming]
  split
  · exact Nat.add_le_add_left (Nat.zero_le _) _
  · exact Nat.add_le_add_left (arrives wire.source) _

inductive TrailersTaken (wire : Wire) : Except Halt (Unit × Wire) → Prop where
  | taken {rest : Bytes} {wire' : Wire} (trailers : Trailers wire.stream rest) (moved : Moved wire wire' rest) :
      TrailersTaken wire (.ok ((), wire'))
  | failed {e : HttpError} (none : ∀ rest, ¬ Trailers wire.stream rest) : TrailersTaken wire (.error (.error e))

theorem Trailers.line {stream rest : Bytes} (trailers : Trailers stream rest) : ∃ line next, Line stream line next := by
  cases trailers with
  | blank blank => exact ⟨_, _, blank⟩
  | field here nonempty more => exact ⟨_, _, here⟩

theorem trailerLoop_taken {fuel : ℕ} (valid : wire.Valid) (enough : wire.stream.length < fuel) :
    TrailersTaken wire (trailerLoop fuel wire) := by
  induction fuel generalizing wire with
  | zero => omega
  | succ fuel ih =>
    rw [trailerLoop]
    refine readLine_elim (P := TrailersTaken wire) valid (fun noLine => .failed fun rest trailers => ?_) (fun _ => ⟨_, rfl⟩)
      fun line rest wire' here moved => ?_
    · obtain ⟨line, next, here⟩ := trailers.line
      exact noLine line next here
    · dsimp only
      by_cases blank : line = []
      · subst blank
        rw [if_pos rfl]
        exact .taken (.blank here) moved
      · rw [if_neg blank]
        have shorter := here.shorter
        rw [← moved.stream] at shorter
        have rest' := ih moved.valid (by omega)
        generalize trailerLoop fuel wire' = result at rest' ⊢
        cases rest' with
        | failed none =>
          refine .failed fun end_ trailers => ?_
          cases trailers with
          | blank here' => exact blank (here.unique here').1
          | field here' nonempty more =>
            obtain ⟨-, rfl⟩ := here.unique here'
            rw [moved.stream] at none
            exact none end_ more
        | taken trailers moved' =>
          rw [moved.stream] at trailers
          exact .taken (.field here blank trailers) (moved.trans moved')

inductive SizeTaken (reader : BodyReader) (wire : Wire) : Except Halt ((Bool × BodyReader) × Wire) → Prop where
  | chunk {n : ℕ} {rest : Bytes} {wire' : Wire} (size : TakenLine wire.stream n rest) (positive : n ≠ 0) (moved : Moved wire wire' rest) :
      SizeTaken reader wire (.ok ((true, { reader with remaining := n }), wire'))
  | last {next rest : Bytes} {wire' : Wire} (size : TakenLine wire.stream 0 next) (trailers : Trailers next rest)
      (moved : Moved wire wire' rest) : SizeTaken reader wire (.ok ((false, { reader with done := true }), wire'))
  | failed {e : HttpError} (none : ∀ n next, TakenLine wire.stream n next → n = 0 ∧ ∀ rest, ¬ Trailers next rest) :
      SizeTaken reader wire (.error (.error e))

theorem nextChunk_taken (valid : wire.Valid) : SizeTaken reader wire (nextChunk reader wire) := by
  rw [nextChunk]
  refine readLine_elim (P := SizeTaken reader wire) valid (fun noLine => .failed ?_) (fun _ => ⟨_, rfl⟩) fun line rest wire' here moved => ?_
  · rintro n next ⟨line, here, -⟩
    exact absurd here (noLine line next)
  · dsimp only
    -- Every size that the line is taken for comes from the one result of the parser.
    have only {n : ℕ} {next : Bytes} (size : TakenLine wire.stream n next) : TakesSize line n ∧ next = rest := by
      obtain ⟨line', here', takes⟩ := size
      obtain ⟨rfl, rfl⟩ := here.unique here'
      exact ⟨takes, rfl⟩
    cases parsed : toIntRadix 16 (sizeField line) with
    | none =>
      refine .failed ?_
      intro n next size
      obtain ⟨⟨size, run, -⟩, -⟩ := only size
      rw [parsed] at run
      cases run
    | some size =>
      dsimp only
      by_cases negative : size.1 < 0
      · rw [if_pos negative]
        refine .failed ?_
        intro n next size
        obtain ⟨⟨size', run, positive, -⟩, -⟩ := only size
        rw [parsed, Option.some.injEq] at run
        subst run
        omega
      · rw [if_neg negative]
        have takes : TakenLine wire.stream size.1.toNat rest := ⟨line, here, size, parsed, by omega, rfl⟩
        by_cases positive : size.1 > 0
        · rw [if_pos positive]
          exact .chunk takes (by omega) moved
        · rw [if_neg positive, run_get]
          have zero : size.1.toNat = 0 := by omega
          rw [zero] at takes
          have trailers := trailerLoop_taken moved.valid (Nat.lt_succ_of_le Wire.stream_length_le)
          refine bind_elim (P := SizeTaken reader wire) trailers (fun trailers => ?_) fun _ wire' trailers => ?_
          · cases trailers with
            | failed none =>
              refine .failed fun n next size' => ?_
              obtain ⟨⟨size', run, -, same⟩, rfl⟩ := only size'
              rw [parsed, Option.some.injEq] at run
              subst run
              rw [moved.stream] at none
              exact ⟨by omega, none⟩
          · cases trailers with
            | taken trailers moved' =>
              rw [moved.stream] at trailers
              exact .last takes trailers (moved.trans moved')

inductive ChunkGot (reader : BodyReader) (wire : Wire) : Except Halt ((Bytes × BodyReader) × Wire) → Prop where
  | part {got rest : Bytes} {wire' : Wire} (nonempty : got ≠ []) (split : wire.stream = got ++ rest)
      (more : got.length < reader.remaining) (moved : Moved wire wire' rest) :
      ChunkGot reader wire (.ok ((got, { reader with remaining := reader.remaining - got.length }), wire'))
  | whole {got behind rest : Bytes} {wire' : Wire} (nonempty : got ≠ []) (split : wire.stream = got ++ behind)
      (all : got.length = reader.remaining) (blank : Line behind [] rest) (moved : Moved wire wire' rest) :
      ChunkGot reader wire (.ok ((got, { reader with remaining := 0 }), wire'))
  | failed {e : HttpError}
      (none : ∀ chunk behind rest, wire.stream = chunk ++ behind → chunk.length = reader.remaining → ¬ Line behind [] rest) :
      ChunkGot reader wire (.error (.error e))

theorem chunkData_got (valid : wire.Valid) (positive : 0 < max) (some : reader.remaining ≠ 0) :
    ChunkGot reader wire (chunkData reader max wire) := by
  have took : Took wire (min reader.remaining max) _ := takeBuffered_took valid (by omega)
  have tooShort (empty : wire.stream = []) : ∀ chunk behind rest, wire.stream = chunk ++ behind →
      chunk.length = reader.remaining → ¬ Line behind [] rest := by
    intro chunk behind rest split length
    obtain ⟨rfl, -⟩ := List.append_eq_nil_iff.mp (split.symm.trans empty)
    exact absurd length.symm some
  rw [chunkData]
  refine bind_elim (P := ChunkGot reader wire) took (fun took => ?_) fun got wire₁ took => ?_
  · cases took with
    | failed empty failure => exact .failed (tooShort empty)
  · cases took with
    | none empty noFailure moved =>
      rw [if_pos rfl]
      exact .failed (tooShort empty)
    | some rest nonempty split few moved =>
      rw [if_neg nonempty]
      by_cases all : reader.remaining - got.length = 0
      · rw [if_pos all, all]
        have length : got.length = reader.remaining := by omega
        have behind {chunk behind' : Bytes} (split' : wire.stream = chunk ++ behind') (length' : chunk.length = reader.remaining) :
            behind' = rest := (List.append_inj (split'.symm.trans split) (length'.trans length.symm)).2
        refine readLine_elim (P := ChunkGot reader wire) moved.valid (fun noLine => .failed ?_) (fun _ => ⟨_, rfl⟩) fun line rest' wire₂ here moved' => ?_
        · intro chunk behind' rest' split' length'
          rw [behind split' length']
          rw [moved.stream] at noLine
          exact noLine [] rest'
        · rw [moved.stream] at here
          dsimp only
          by_cases blank : line = []
          · subst blank
            rw [if_neg (not_not_intro rfl)]
            exact .whole nonempty split length here (moved.trans moved')
          · rw [if_pos blank]
            refine .failed fun chunk behind' rest'' split' length' here' => ?_
            rw [behind split' length'] at here'
            exact blank (here.unique here').1
      · rw [if_neg all]
        exact .part nonempty split (by omega) moved

inductive CountedGot (reader : BodyReader) (wire : Wire) : Except Halt ((Bytes × BodyReader) × Wire) → Prop where
  | none (all : reader.remaining = 0) : CountedGot reader wire (.ok (([], { reader with done := true }), wire))
  | some {got rest : Bytes} {wire' : Wire} (nonempty : got ≠ []) (split : wire.stream = got ++ rest)
      (few : got.length ≤ reader.remaining) (moved : Moved wire wire' rest) :
      CountedGot reader wire (.ok ((got, { reader with
        remaining := reader.remaining - got.length
        done := reader.done || decide (reader.remaining - got.length = 0) }), wire'))
  | failed {e : HttpError} (empty : wire.stream = []) (more : reader.remaining ≠ 0) : CountedGot reader wire (.error (.error e))

theorem readCounted_got (valid : wire.Valid) (positive : 0 < max) :
    CountedGot reader wire (readCounted reader max wire) := by
  rw [readCounted]
  by_cases all : reader.remaining = 0
  · rw [if_pos all]
    exact .none all
  · rw [if_neg all]
    have took : Took wire (min reader.remaining max) _ := takeBuffered_took valid (by omega)
    refine bind_elim (P := CountedGot reader wire) took (fun took => ?_) fun _ _ took => ?_
    · cases took with
      | failed empty failure => exact .failed empty all
    · cases took with
      | none empty noFailure moved =>
        rw [if_pos rfl]
        exact .failed empty all
      | some rest nonempty split few moved =>
        rw [if_neg nonempty]
        have bound : (List.length _ : ℤ) ≤ reader.remaining := few.trans (min_le_left _ _)
        exact .some nonempty split (by exact_mod_cast bound) moved

/-! ## Places are kept -/

theorem readSome_idle (idle : reader.done = true ∨ max ≤ 0) :
    readSome reader max wire = .ok (([], reader), wire) := by
  rw [readSome, if_pos idle]
  rfl

theorem readSome_counted {n : ℕ} (positive : 0 < max) :
    readSome ⟨.length n, left, false⟩ max wire = readCounted ⟨.length n, left, false⟩ max wire := by
  rw [readSome, if_neg (by simp; omega)]

theorem readSome_chunked (positive : 0 < max) :
    readSome ⟨.chunked, left, false⟩ max wire = readChunked ⟨.chunked, left, false⟩ max wire := by
  rw [readSome, if_neg (by simp; omega)]

theorem readSome_toEof {wire' : Wire} {got : Bytes} (positive : 0 < max)
    (run : takeBuffered max wire = .ok (got, wire')) :
    readSome ⟨.toEof, left, false⟩ max wire = .ok ((got, ⟨.toEof, left, decide (got = [])⟩), wire') := by
  rw [readSome, if_neg (by simp; omega)]
  dsimp only
  rw [run_bind run]
  rfl

/-- The next line is a size, and it is taken for what it denotes. -/
def NextExact (reader : BodyReader) (stream : Bytes) : Prop :=
  reader.framing = .chunked → reader.remaining = 0 → reader.done = false → ∀ line rest, Line stream line rest → SizeExact line

theorem TakenLine.plain {stream rest : Bytes} {n : ℕ} (taken : TakenLine stream n rest)
    (exact_ : ∀ line rest, Line stream line rest → SizeExact line) : SizeLine stream n rest := by
  obtain ⟨line, here, takes⟩ := taken
  exact ⟨line, here, (exact_ line rest here n).mp takes⟩

/-- Bytes of a chunk keep the place. -/
theorem ChunkGot.partway {before next part : Bytes} {wire' : Wire} {out : Bytes} {reader' : BodyReader}
    (chunks : Chunks stream before next) (size : SizeLine next (part.length + left) (part ++ wire.stream))
    (got : ChunkGot ⟨.chunked, left, false⟩ wire (.ok ((out, reader'), wire'))) :
    Partway .chunked stream (before ++ part ++ out) reader' wire'.stream ∧ wire'.Valid := by
  cases got with
  | part nonempty split more moved =>
    refine ⟨?_, moved.valid⟩
    rw [moved.stream, List.append_assoc]
    refine .inside chunks ?_ (Nat.sub_ne_zero_of_lt more)
    have total : (part ++ out).length + (left - out.length) = part.length + left := by
      dsimp only at more
      rw [List.length_append]
      omega
    rwa [total, List.append_assoc, ← split]
  | whole nonempty split all blank moved =>
    refine ⟨?_, moved.valid⟩
    rw [moved.stream, List.append_assoc]
    refine .between (chunks.snoc ⟨?_, _, ?_, blank⟩)
    · exact List.append_ne_nil_of_right_ne_nil part nonempty
    · dsimp only at all
      rwa [List.length_append, all, List.append_assoc, ← split]

theorem Partway.step {framing : Framing} {got out : Bytes} {reader' : BodyReader} {wire' : Wire}
    (here : Partway framing stream got reader wire.stream) (valid : wire.Valid)
    (exact_ : NextExact reader wire.stream) (run : readSome reader max wire = .ok ((out, reader'), wire')) :
    Partway framing stream (got ++ out) reader' wire'.stream ∧ wire'.Valid := by
  by_cases idle : reader.done = true ∨ max ≤ 0
  · rw [readSome_idle idle] at run
    cases run
    rw [List.append_nil]
    exact ⟨here, valid⟩
  have positive : 0 < max := by
    by_contra least
    exact idle (.inr (by omega))
  cases here with
  | empty => exact absurd (.inl rfl) idle
  | @counted n left _ _ _ done split total finished =>
    obtain rfl : done = false := Bool.eq_false_iff.mpr fun already => idle (.inl already)
    have counted : CountedGot ⟨.length n, left, false⟩ wire _ := readCounted_got valid positive
    rw [← readSome_counted positive, run] at counted
    cases counted with
    | none all =>
      rw [List.append_nil]
      exact ⟨.counted split total (fun _ => all), valid⟩
    | some nonempty split' few moved =>
      refine ⟨.counted ?_ ?_ ?_, moved.valid⟩
      · rw [moved.stream, List.append_assoc, ← split', split]
      · have bound : out.length ≤ left := few
        rw [List.length_append, ← total]
        show got.length + out.length + (left - out.length) = got.length + left
        omega
      · exact of_decide_eq_true
  | @toEof _ _ _ done split finished =>
    obtain rfl : done = false := Bool.eq_false_iff.mpr fun already => idle (.inl already)
    have took := takeBuffered_took valid positive
    cases taken : takeBuffered max wire with
    | error e =>
      rw [readSome, if_neg idle] at run
      dsimp only at run
      rw [run_bind_error taken] at run
      cases run
    | ok result =>
      rw [readSome_toEof positive taken] at run
      cases run
      rw [taken] at took
      cases took with
      | some rest nonempty split' few moved =>
        refine ⟨.toEof ?_ fun empty => absurd (of_decide_eq_true empty) nonempty, moved.valid⟩
        rw [moved.stream, List.append_assoc, ← split', split]
      | none empty noFailure moved =>
        refine ⟨.toEof ?_ fun _ => moved.stream, moved.valid⟩
        rw [moved.stream, List.append_nil, split, empty]
  | between chunks =>
    rw [readSome_chunked positive, readChunked, if_pos rfl] at run
    have taken : SizeTaken ⟨.chunked, 0, false⟩ wire _ := nextChunk_taken valid
    obtain ⟨result, wire₁, next, run₁⟩ := run_bind_ok run
    rw [next] at taken
    cases taken with
    | @chunk n _ _ size nonzero moved =>
      dsimp only at run₁
      rw [if_pos rfl] at run₁
      have data : ChunkGot ⟨.chunked, n, false⟩ wire₁ _ := chunkData_got moved.valid positive nonzero
      have plain := size.plain (exact_ rfl rfl rfl)
      rw [run₁] at data
      rw [← moved.stream, ← Nat.zero_add n] at plain
      have here : Partway .chunked stream (got ++ [] ++ out) reader' wire'.stream ∧ wire'.Valid := data.partway chunks plain
      rwa [List.append_nil] at here
    | last size trailers moved =>
      dsimp only at run₁
      rw [if_neg Bool.false_ne_true] at run₁
      cases run₁
      rw [List.append_nil, moved.stream]
      exact ⟨.finished chunks ⟨_, size.plain (exact_ rfl rfl rfl), trailers⟩, moved.valid⟩
  | @inside _ _ _ _ _ left chunks size more =>
    rw [readSome_chunked positive, readChunked, if_neg more] at run
    have data : ChunkGot ⟨.chunked, left, false⟩ wire _ := chunkData_got valid positive more
    rw [run] at data
    exact data.partway chunks size
  | finished chunks last => exact absurd (.inl rfl) idle

/-! ## Bodies are delivered -/

/-- What a reader still owes of a body that is delimited. -/
inductive Owes : BodyReader → (stream data rest : Bytes) → Prop where
  | done (framing : Framing) (stream : Bytes) : Owes ⟨framing, 0, true⟩ stream [] stream
  | counted {n left : ℕ} {stream data rest : Bytes} (split : stream = data ++ rest) (total : data.length = left) :
      Owes ⟨.length n, left, false⟩ stream data rest
  | toEof (stream : Bytes) : Owes ⟨.toEof, 0, false⟩ stream stream []
  | between {stream data rest : Bytes} (delimits : Delimits .chunked stream data rest) : Owes ⟨.chunked, 0, false⟩ stream data rest
  | inside {stream chunk behind next data rest : Bytes} {left : ℕ} (split : stream = chunk ++ behind) (total : chunk.length = left)
      (more : left ≠ 0) (blank : Line behind [] next) (delimits : Delimits .chunked next data rest) :
      Owes ⟨.chunked, left, false⟩ stream (chunk ++ data) rest

theorem Owes.start {framing : Framing} (delimits : Delimits framing stream data rest) :
    Owes (BodyReader.new framing) stream data rest := by
  cases framing with
  | empty =>
    obtain ⟨rfl, rfl⟩ := delimits
    exact .done .empty rest
  | length n => exact .counted delimits.1 delimits.2
  | chunked => exact .between delimits
  | toEof =>
    obtain ⟨rfl, rfl⟩ := delimits
    exact .toEof data

theorem Trailers.unique {rest' : Bytes} (trailers : Trailers stream rest) (trailers' : Trailers stream rest') :
    rest = rest' := by
  induction trailers with
  | blank blank =>
    cases trailers' with
    | blank blank' => exact (blank.unique blank').2
    | field here nonempty more => exact absurd (blank.unique here).1.symm nonempty
  | field here nonempty more ih =>
    cases trailers' with
    | blank blank => exact absurd (here.unique blank).1 nonempty
    | field here' nonempty' more' =>
      obtain ⟨rfl, rfl⟩ := here.unique here'
      exact ih more'

theorem TakenLine.unique {rest' : Bytes} {n n' : ℕ} (taken : TakenLine stream n rest)
    (taken' : TakenLine stream n' rest') : n = n' ∧ rest = rest' := by
  obtain ⟨line, here, size, run, -, rfl⟩ := taken
  obtain ⟨line', here', size', run', -, rfl⟩ := taken'
  obtain ⟨rfl, rfl⟩ := here.unique here'
  rw [run, Option.some.injEq] at run'
  exact ⟨by rw [run'], rfl⟩

/-- A read delivers the next bytes that are owed. -/
structure Delivers (reader : BodyReader) (wire : Wire) (data rest out : Bytes) (reader' : BodyReader) (wire' : Wire) : Prop where
  owes : ∃ data', data = out ++ data' ∧ Owes reader' wire'.stream data' rest
  progress : out = [] → reader'.done = true
  framing : reader'.framing = reader.framing
  valid : wire'.Valid
  fails : wire'.fails = wire.fails

/-- The read succeeds and delivers. -/
def Delivered (reader : BodyReader) (wire : Wire) (data rest : Bytes) (result : Except Halt ((Bytes × BodyReader) × Wire)) : Prop :=
  ∃ out reader' wire', result = .ok ((out, reader'), wire') ∧ Delivers reader wire data rest out reader' wire'

theorem ChunkGot.delivers {chunk behind next : Bytes} {result : Except Halt ((Bytes × BodyReader) × Wire)}
    (got : ChunkGot ⟨.chunked, left, false⟩ wire result) (split : wire.stream = chunk ++ behind)
    (total : chunk.length = left) (blank : Line behind [] next) (delimits : Delimits .chunked next data rest) :
    Delivered ⟨.chunked, left, false⟩ wire (chunk ++ data) rest result := by
  cases got with
  | @part out rest' wire' nonempty split' more moved =>
    have bound : out.length < chunk.length := total.symm ▸ more
    have same := split'.symm.trans split
    obtain ⟨left', rfl, same'⟩ := List.append_eq_append_iff.mp same |>.resolve_right (by
      rintro ⟨extra, rfl, -⟩
      rw [List.length_append] at bound
      omega)
    refine ⟨out, _, wire', rfl, ⟨left' ++ data, List.append_assoc _ _ _, ?_⟩, fun empty => absurd empty nonempty, rfl, moved.valid, moved.fails⟩
    rw [moved.stream]
    rw [List.length_append] at total bound
    exact .inside same' (by dsimp only; omega) (by dsimp only; omega) blank delimits
  | @whole out behind' rest' wire' nonempty split' all blank' moved =>
    obtain ⟨rfl, rfl⟩ := List.append_inj (split.symm.trans split') (total.trans all.symm)
    obtain ⟨-, rfl⟩ := blank.unique blank'
    refine ⟨_, _, wire', rfl, ⟨data, rfl, ?_⟩, fun empty => absurd empty nonempty, rfl, moved.valid, moved.fails⟩
    rw [moved.stream]
    exact .between delimits
  | failed none => exact absurd blank (none chunk behind next split total)

theorem readCounted_delivers {n : ℕ} (split : wire.stream = data ++ rest) (total : data.length = left)
    (valid : wire.Valid) (positive : 0 < max) :
    Delivered ⟨.length n, left, false⟩ wire data rest (readCounted ⟨.length n, left, false⟩ max wire) := by
  have counted : CountedGot ⟨.length n, left, false⟩ wire _ := readCounted_got valid positive
  generalize readCounted ⟨.length n, left, false⟩ max wire = result at counted ⊢
  cases counted with
  | none all =>
    obtain rfl : data = [] := List.eq_nil_of_length_eq_zero (total.trans all)
    refine ⟨_, _, wire, rfl, ⟨[], rfl, ?_⟩, fun _ => rfl, rfl, valid, rfl⟩
    rw [split]
    dsimp only at all ⊢
    rw [all]
    exact .done _ _
  | @some out rest' wire' nonempty split' few moved =>
    have bound : out.length ≤ data.length := total.symm ▸ few
    obtain ⟨left', rfl, same⟩ := List.append_eq_append_iff.mp (split'.symm.trans split) |>.elim id (by
      rintro ⟨extra, rfl, rfl⟩
      obtain rfl : extra = [] := List.eq_nil_of_length_eq_zero (by rw [List.length_append] at bound; omega)
      exact ⟨[], by simp, by simp⟩)
    rw [List.length_append] at total
    refine ⟨_, _, wire', rfl, ⟨left', rfl, ?_⟩, fun empty => absurd empty nonempty, rfl, moved.valid, moved.fails⟩
    rw [moved.stream, same]
    by_cases last : left - out.length = 0
    · obtain rfl : left' = [] := List.eq_nil_of_length_eq_zero (by omega)
      dsimp only
      rw [decide_eq_true last, last]
      exact .done _ _
    · dsimp only
      rw [decide_eq_false last]
      exact .counted rfl (by omega)
  | failed empty more =>
    obtain ⟨rfl, -⟩ := List.append_eq_nil_iff.mp (split.symm.trans empty)
    exact absurd total.symm more

theorem readChunked_delivers (delimits : Delimits .chunked wire.stream data rest) (valid : wire.Valid)
    (positive : 0 < max) :
    Delivered ⟨.chunked, 0, false⟩ wire data rest (readChunked ⟨.chunked, 0, false⟩ max wire) := by
  rw [readChunked, if_pos rfl]
  obtain ⟨next, chunks, last⟩ := delimits
  refine bind_elim (P := Delivered _ wire data rest) (nextChunk_taken valid) (fun taken => ?_) fun _ wire' taken => ?_
  · cases taken with
    | failed none =>
      cases chunks with
      | nil =>
        obtain ⟨behind, size, trailers⟩ := last
        exact absurd trailers ((none 0 behind size.taken).2 rest)
      | cons first more =>
        obtain ⟨nonempty, behind, size, blank⟩ := first
        exact absurd (none _ _ size.taken).1 (List.length_pos_of_ne_nil nonempty).ne'
  · cases chunks with
    | nil =>
      obtain ⟨behind, size, trailers⟩ := last
      cases taken with
      | chunk size' nonzero moved => exact absurd (size'.unique size.taken).1 nonzero
      | last size' trailers' moved =>
        obtain ⟨-, rfl⟩ := size'.unique size.taken
        obtain rfl := trailers.unique trailers'
        refine ⟨_, _, wire', rfl, ⟨[], rfl, ?_⟩, fun _ => rfl, rfl, moved.valid, moved.fails⟩
        rw [moved.stream]
        exact .done _ _
    | @cons _ chunk next' data _ first more =>
      obtain ⟨nonempty, behind, size, blank⟩ := first
      cases taken with
      | chunk size' nonzero moved =>
        obtain ⟨rfl, rfl⟩ := size'.unique size.taken
        have got : ChunkGot ⟨.chunked, chunk.length, false⟩ wire' _ := chunkData_got moved.valid positive nonzero
        obtain ⟨out, reader', wire'', run', delivers⟩ := got.delivers moved.stream rfl blank ⟨next, more, last⟩
        exact ⟨out, reader', wire'', run',
          delivers.owes, delivers.progress, delivers.framing, delivers.valid, delivers.fails.trans moved.fails⟩
      | last size' trailers' moved =>
        exact absurd (size'.unique size.taken).1.symm (List.length_pos_of_ne_nil nonempty).ne'

theorem readSome_delivers (owes : Owes reader wire.stream data rest) (valid : wire.Valid)
    (noFailure : reader.framing = .toEof → wire.fails = none) (positive : 0 < max) :
    Delivered reader wire data rest (readSome reader max wire) := by
  generalize remains : wire.stream = stream at owes
  cases owes with
  | done framing stream =>
    exact ⟨[], _, wire, readSome_idle (.inl rfl), ⟨[], rfl, by rw [remains]; exact .done _ _⟩, fun _ => rfl, rfl, valid, rfl⟩
  | counted split total =>
    rw [readSome_counted positive]
    exact readCounted_delivers (remains.trans split) total valid positive
  | toEof =>
    have took := takeBuffered_took valid positive
    cases taken : takeBuffered max wire with
    | error e =>
      rw [taken] at took
      cases took with
      | failed empty failure =>
        rw [noFailure rfl] at failure
        cases failure
    | ok result =>
      rw [taken] at took
      cases took with
      | @some rest' out wire' nonempty split' few moved =>
        refine ⟨out, _, wire', readSome_toEof positive taken, ⟨rest', remains.symm.trans split', ?_⟩, fun empty => absurd empty nonempty,
          rfl, moved.valid, moved.fails⟩
        rw [moved.stream, decide_eq_false nonempty]
        exact .toEof rest'
      | @none wire' empty noFailure moved =>
        refine ⟨[], _, wire', readSome_toEof positive taken, ⟨[], remains.symm.trans empty, ?_⟩, fun _ => rfl, rfl, moved.valid, moved.fails⟩
        rw [moved.stream]
        exact .done _ _
  | between delimits =>
    rw [readSome_chunked positive]
    exact readChunked_delivers (remains.symm ▸ delimits) valid positive
  | inside split total more blank delimits =>
    rw [readSome_chunked positive, readChunked, if_neg more]
    exact (chunkData_got valid positive more).delivers (remains.trans split) total blank delimits

end Thera.Sdk.Http
