import Mathlib

/-! # Writers and prefix readers

A reader is a state computation over the symbols it has not consumed yet; a writer is the list of
pieces it appends, any of which may be missing. `Reads` says that a reader recovers a value from
its symbols and leaves whatever follows them untouched, so readers of consecutive pieces compose
without any length bookkeeping. `Codes` adds that the writer produced its symbols in the first
place; it asks the reader to recover the value only from outputs below `limit` symbols, which is
what bounds every count and every length prefix inside them. `joined` is the concatenation the
rules are stated for.
-/

namespace Framing

variable {β ε α γ : Type}

/-- A reader consumes a prefix of its input or fails. -/
abbrev Reader (β ε α : Type) := StateT (List β) (Except ε) α

/-- The reader recovers `value` from `symbols` in front of any continuation. -/
def Reads (run : Reader β ε α) (symbols : List β) (value : α) : Prop :=
  ∀ rest, run (symbols ++ rest) = .ok (value, rest)

/-- The writer produced some symbols, and unless there are too many the reader recovers `value`. -/
def Codes (limit : ℕ) (output : Option (List β)) (run : Reader β ε α) (value : α) : Prop :=
  ∃ symbols, output = some symbols ∧ (symbols.length < limit → Reads run symbols value)

/-- Concatenate the pieces in order; one missing piece loses the whole output. -/
def joined : List (Option (List β)) → Option (List β)
  | [] => some []
  | piece :: pieces => do
      let symbols ← piece
      let rest ← joined pieces
      some (symbols ++ rest)

/-- Run one reader a given number of times, in order. -/
def readMany (run : Reader β ε α) : ℕ → Reader β ε (List α)
  | 0 => pure []
  | count + 1 => do
      let value ← run
      let values ← readMany run count
      pure (value :: values)

theorem Reads.pure (value : α) : Reads (pure value : Reader β ε α) [] value := fun _ => rfl

variable {value : α} {symbols : List β} {run : Reader β ε α}

theorem Reads.bind {first : Reader β ε α} {next : α → Reader β ε γ} {left right : List β} {result : γ}
    (head : Reads first left value) (tail : Reads (next value) right result) :
    Reads (first >>= next) (left ++ right) result := by
  intro rest
  change (first (left ++ right ++ rest) >>= fun pair => next pair.1 pair.2) = _
  rw [List.append_assoc, head]
  exact tail rest

/-- A check after the value was read consumes nothing. -/
theorem Reads.check {first : Reader β ε α} {next : α → Reader β ε γ} {result : γ} (head : Reads first symbols value)
    (passes : Reads (next value) [] result) : Reads (first >>= next) symbols result := by
  simpa only [List.append_nil] using head.bind passes

/-- Post-processing a value consumes nothing. -/
theorem Reads.map (reads : Reads run symbols value) (f : α → γ) : Reads (f <$> run) symbols (f value) := by
  intro rest
  change (run (symbols ++ rest) >>= fun pair => Except.ok (f pair.1, pair.2)) = _
  rw [reads]
  rfl

/-- A reader that recovers a value from the whole input ends with nothing left. -/
theorem Reads.run_all (reads : Reads run symbols value) : run symbols = .ok (value, []) := by
  simpa only [List.append_nil] using reads []

theorem Reads.of_toOption (reads : ∀ rest, (run (symbols ++ rest)).toOption = some (value, rest)) : Reads run symbols value := by
  intro rest
  have read := reads rest
  cases ran : run (symbols ++ rest) with
  | error _ => rw [ran] at read; cases read
  | ok _ => rw [ran] at read; exact congrArg Except.ok (Option.some_inj.mp read)

theorem joined_cons_some {piece : Option (List β)} {pieces : List (Option (List β))} {output : List β} :
    joined (piece :: pieces) = some output ↔
      ∃ symbols rest, piece = some symbols ∧ joined pieces = some rest ∧ symbols ++ rest = output := by
  simp only [joined, bind, Option.bind_eq_some_iff, Option.some.injEq]
  constructor
  · rintro ⟨symbols, present, rest, more, rfl⟩
    exact ⟨symbols, rest, present, more, rfl⟩
  · rintro ⟨symbols, rest, present, more, rfl⟩
    exact ⟨symbols, present, rest, more, rfl⟩

/-- Pieces that are all present join to their concatenation. -/
@[simp] theorem joined_map_some {values : List α} {encode : α → List β} :
    joined (values.map fun value => some (encode value)) = some (values.flatMap encode) := by
  induction values with
  | nil => rfl
  | cons value values ih =>
    exact joined_cons_some.mpr ⟨encode value, values.flatMap encode, rfl, ih, List.flatMap_cons.symm⟩

theorem joined_ne_nil {piece : Option (List β)} {pieces : List (Option (List β))} (nonempty : piece ≠ some []) :
    joined (piece :: pieces) ≠ some [] := by
  intro empty
  obtain ⟨symbols, _, present, -, appended⟩ := joined_cons_some.mp empty
  obtain ⟨rfl, -⟩ := List.append_eq_nil_iff.mp appended
  exact nonempty present

/-- A writer that spends at least one symbol on each value bounds their number. -/
theorem length_le_of_joined {values : List α} {encode : α → Option (List β)} {output : List β}
    (nonempty : ∀ value ∈ values, encode value ≠ some []) (written : joined (values.map encode) = some output) :
    values.length ≤ output.length := by
  induction values generalizing output with
  | nil => exact Nat.zero_le _
  | cons value values ih =>
    obtain ⟨symbols, rest, present, more, rfl⟩ := joined_cons_some.mp written
    have tail := ih (fun other member => nonempty other (List.mem_cons_of_mem _ member)) more
    have head : 0 < symbols.length := List.length_pos_iff.mpr fun empty =>
      nonempty value (List.mem_cons_self ..) (empty ▸ present)
    rw [List.length_cons, List.length_append]
    omega

variable {limit : ℕ}

theorem Codes.of_reads (reads : Reads run symbols value) :
    Codes limit (some symbols) run value := ⟨symbols, rfl, fun _ => reads⟩

theorem Codes.nil (value : α) :
    Codes limit (joined ([] : List (Option (List β)))) (pure value : Reader β ε α) value :=
  Codes.of_reads (Reads.pure value)

theorem Codes.cons {piece : Option (List β)} {pieces : List (Option (List β))} {first : Reader β ε α}
    {next : α → Reader β ε γ} {value : α} {result : γ} (head : Codes limit piece first value)
    (tail : Codes limit (joined pieces) (next value) result) :
    Codes limit (joined (piece :: pieces)) (first >>= next) result := by
  obtain ⟨left, present, readsLeft⟩ := head
  obtain ⟨right, more, readsRight⟩ := tail
  refine ⟨left ++ right, joined_cons_some.mpr ⟨left, right, present, more, rfl⟩, fun short => ?_⟩
  rw [List.length_append] at short
  exact (readsLeft (by omega)).bind (readsRight (by omega))

theorem Codes.map {output : Option (List β)} (codes : Codes limit output run value) (f : α → γ) :
    Codes limit output (f <$> run) (f value) := by
  obtain ⟨symbols, present, reads⟩ := codes
  exact ⟨symbols, present, fun short => (reads short).map f⟩

/-- Writing each element and reading as many back recovers the list. -/
theorem Codes.many {encode : α → Option (List β)} {run : Reader β ε γ} {decoded : α → γ} {values : List α}
    (each : ∀ value ∈ values, Codes limit (encode value) run (decoded value)) :
    Codes limit (joined (values.map encode)) (readMany run values.length) (values.map decoded) := by
  induction values with
  | nil => exact Codes.nil []
  | cons value values ih =>
    rw [List.map_cons, List.map_cons, List.length_cons]
    apply Codes.cons (each value (List.mem_cons_self ..))
    have rest := ih fun other member => each other (List.mem_cons_of_mem _ member)
    simpa only [map_eq_pure_bind] using rest.map (decoded value :: ·)

/-- A list behind its count is recovered when the count is, for every list that fits the limit. -/
theorem Codes.counted {encode : α → Option (List β)} {run : Reader β ε γ} {decoded : α → γ} {values : List α}
    {count : List β} {readCount : Reader β ε ℕ}
    (counts : values.length < limit → Reads readCount count values.length)
    (nonempty : ∀ value ∈ values, encode value ≠ some [])
    (each : ∀ value ∈ values, Codes limit (encode value) run (decoded value)) :
    Codes limit (joined (some count :: values.map encode)) (readCount >>= readMany run) (values.map decoded) := by
  obtain ⟨symbols, present, reads⟩ := Codes.many each
  refine ⟨count ++ symbols, joined_cons_some.mpr ⟨count, symbols, rfl, present, rfl⟩, fun short => ?_⟩
  have few := length_le_of_joined nonempty present
  rw [List.length_append] at short
  exact (counts (by omega)).bind (reads (by omega))

end Framing
