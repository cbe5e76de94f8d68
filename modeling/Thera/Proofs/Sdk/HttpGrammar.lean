import Thera.Proofs.Sdk.Scan
import Thera.Proofs.Sdk.HttpSizes

/-! # The grammar of messages

HTTP/1.1 messages as the grammar has them: a start line, field lines, a blank line and a body. A text is judged character by
character, as its bytes are: the bytes of a character beyond ASCII are all opaque to the grammar.
-/

namespace Thera.Sdk.Http

/-! ## Tokens and text -/

/-- `tchar`. -/
def isTchar (n : ℕ) : Bool :=
  (48 ≤ n && n ≤ 57) || (65 ≤ n && n ≤ 90) || (97 ≤ n && n ≤ 122) ||
    [33, 35, 36, 37, 38, 39, 42, 43, 45, 46, 94, 95, 96, 124, 126].contains n

/-- A tab, a space, a visible character or one beyond ASCII. -/
def isTextual (n : ℕ) : Bool := n = 9 || (32 ≤ n && n ≠ 127)

/-- `token`. -/
def IsToken (bytes : Bytes) : Prop := bytes ≠ [] ∧ ∀ b ∈ bytes, isTchar b.toNat = true

def IsText (bytes : Bytes) : Prop := ∀ b ∈ bytes, isTextual b.toNat = true

/-- The value denotes a length, between optional blanks. -/
def IsLength (value : Bytes) (n : ℕ) : Prop :=
  ∃ (before after : Bytes) (digits : Text), (∀ b ∈ before ++ after, b = 32 ∨ b = 9) ∧ value = before ++ bytesOf digits ++ after ∧
    plainValue 10 digits = some n

theorem isTchar_lt {n : ℕ} (tchar : isTchar n = true) : n < 128 := by
  simp [isTchar] at tchar
  omega

theorem isToken_bytesOf {text : Text} : IsToken (bytesOf text) ↔ text ≠ [] ∧ ∀ c ∈ text, isTchar c.toNat = true := by
  rw [IsToken, Ne, bytesOf_eq_nil]
  refine and_congr_right fun _ => forall_bytesOf (p := fun n => isTchar n = true) (fun m n large large' => ?_) text
  constructor
  · intro tchar
    exact absurd (isTchar_lt tchar) (by omega)
  · intro tchar
    exact absurd (isTchar_lt tchar) (by omega)

theorem isText_bytesOf {text : Text} : IsText (bytesOf text) ↔ ∀ c ∈ text, isTextual c.toNat = true := by
  refine forall_bytesOf (p := fun n => isTextual n = true) (fun m n large large' => ?_) text
  simp only [isTextual, Bool.or_eq_true, Bool.and_eq_true, decide_eq_true_eq, ne_eq]
  omega

/-! ## Lines -/

/-- Lines, each ended by CRLF. -/
def joinLines (lines : List Bytes) : Bytes := lines.flatMap (· ++ [13, 10])

theorem joinLines_cons (line : Bytes) (lines : List Bytes) : joinLines (line :: lines) = line ++ 13 :: 10 :: joinLines lines := by
  rw [joinLines, List.flatMap_cons, List.append_assoc]
  rfl

theorem joinLines_append (a b : List Bytes) : joinLines (a ++ b) = joinLines a ++ joinLines b := List.flatMap_append

theorem count_joinLines (lines : List Bytes) :
    (joinLines lines).count 10 = (lines.map fun line => line.count 10).sum + lines.length := by
  induction lines with
  | nil => rfl
  | cons line lines ih =>
    rw [joinLines_cons, List.count_append, List.count_cons_of_ne (by decide), List.count_cons_self, ih, List.map_cons, List.sum_cons,
      List.length_cons]
    omega

/-- Texts of as many lines are the same lines, if the lines of one of them have no LF inside. -/
theorem joinLines_injective {lines lines' : List Bytes} (count : lines.length = lines'.length)
    (whole : ∀ line ∈ lines', (10 : UInt8) ∉ line) (same : joinLines lines = joinLines lines') : lines = lines' := by
  have counts := congrArg (List.count 10) same
  rw [count_joinLines, count_joinLines, count] at counts
  have none : (lines'.map fun line => line.count 10).sum = 0 := by
    rw [List.sum_eq_zero_iff]
    intro n member
    obtain ⟨line, inside, rfl⟩ := List.mem_map.mp member
    exact List.count_eq_zero_of_not_mem (whole line inside)
  have whole' : ∀ line ∈ lines, (10 : UInt8) ∉ line := by
    intro line inside
    apply List.count_eq_zero.mp
    have total : (lines.map fun line => line.count 10).sum = 0 := by omega
    exact List.sum_eq_zero_iff.mp total _ (List.mem_map_of_mem inside)
  clear counts none
  induction lines generalizing lines' with
  | nil => exact (List.eq_nil_of_length_eq_zero count.symm).symm
  | cons line lines ih =>
    cases lines' with
    | nil => cases count
    | cons line' lines' =>
      rw [joinLines_cons, joinLines_cons] at same
      have behind {line : Bytes} (noLf : (10 : UInt8) ∉ line) (rest : Bytes) :
          Splits (line ++ 13 :: 10 :: rest) (line ++ [13]) rest :=
        ⟨by rw [List.append_assoc]; rfl, by simpa using noLf⟩
      have first := behind (whole' line List.mem_cons_self) (joinLines lines)
      rw [same] at first
      obtain ⟨same', rest⟩ := first.unique (behind (whole line' List.mem_cons_self) (joinLines lines'))
      rw [List.append_cancel_right same', ih (Nat.succ.inj count) (fun line inside => whole line (List.mem_cons_of_mem _ inside)) rest
        fun line inside => whole' line (List.mem_cons_of_mem _ inside)]

/-! ## Messages -/

/-- A field line, cut at its colon. -/
abbrev Field := Bytes × Bytes

def Field.line (field : Field) : Bytes := field.1 ++ 58 :: field.2

def Field.Formed (field : Field) : Prop := IsToken field.1 ∧ IsText field.2

/-- A name without regard to the case of ASCII letters. -/
def lowerName (name : Bytes) : Bytes := name.map fun b => if 65 ≤ b ∧ b ≤ 90 then b + 32 else b

def Field.isFraming (field : Field) : Bool :=
  decide (lowerName field.1 = bytesOf contentLength) || decide (lowerName field.1 = bytesOf transferEncoding)

/-- The whole of the bytes is one message: a start line, as many field lines as said, a blank line and the body, whose length the one
framing field gives. -/
def OneMessage (start : (line body : Bytes) → Prop) (bytes : Bytes) (count : ℕ) (body : Bytes) : Prop :=
  ∃ (line : Bytes) (fields : List Field) (framing : Field), start line body ∧ (∀ field ∈ fields, field.Formed) ∧
    bytes = joinLines (line :: fields.map Field.line ++ [[]]) ++ body ∧ fields.length = count ∧
    fields.filter Field.isFraming = [framing] ∧ lowerName framing.1 = bytesOf contentLength ∧ IsLength framing.2 body.length

/-- The grammar of request targets; a target has neither blanks nor controls. -/
structure Targets where
  isTarget : Bytes → Prop
  visible : ∀ target, isTarget target → ∀ b ∈ target, 32 < b.toNat ∧ b.toNat ≠ 127

def isDigitByte (b : UInt8) : Bool := 48 ≤ b && b ≤ 57

/-- `HTTP-version`. -/
def IsVersion (version : Bytes) : Prop :=
  ∃ major minor, isDigitByte major = true ∧ isDigitByte minor = true ∧ version = bytesOf "HTTP/".toList ++ [major, 46, minor]

/-- `request-line`. -/
def RequestStart (targets : Targets) (line _body : Bytes) : Prop :=
  ∃ method target version, IsToken method ∧ targets.isTarget target ∧ IsVersion version ∧ line = method ++ 32 :: (target ++ 32 :: version)

/-- The number that three digits denote. -/
def codeOf (a b c : UInt8) : ℤ := (a.toNat - 48) * 100 + (b.toNat - 48) * 10 + (c.toNat - 48)

/-- `status-line`, of a response that may have the body. -/
def StatusStart (line body : Bytes) : Prop :=
  ∃ version a b c reason, IsVersion version ∧ (isDigitByte a = true ∧ isDigitByte b = true ∧ isDigitByte c = true) ∧ IsText reason ∧
    line = version ++ 32 :: a :: b :: c :: 32 :: reason ∧ (statusHasNoBody (codeOf a b c) = true → body = [])

theorem Field.Formed.noLf {field : Field} (formed : field.Formed) : (10 : UInt8) ∉ field.line := by
  intro member
  obtain inName | inRest := List.mem_append.mp member
  · exact absurd (formed.1.2 10 inName) (by decide)
  · obtain colon | inValue := List.mem_cons.mp inRest
    · exact absurd colon (by decide)
    · exact absurd (formed.2 10 inValue) (by decide)

theorem IsVersion.visible {version : Bytes} (isVersion : IsVersion version) : ∀ b ∈ version, 32 < b.toNat := by
  obtain ⟨major, minor, major', minor', rfl⟩ := isVersion
  simp only [isDigitByte, Bool.and_eq_true, decide_eq_true_eq, UInt8.le_iff_toNat_le] at major' minor'
  have letters : ∀ b ∈ bytesOf "HTTP/".toList, 32 < b.toNat := by decide +kernel
  have dot : 32 < (46 : UInt8).toNat := by decide
  have digit : (48 : UInt8).toNat = 48 := rfl
  intro b member
  obtain inLetters | inRest := List.mem_append.mp member
  · exact letters b inLetters
  · simp only [List.mem_cons, List.not_mem_nil, or_false] at inRest
    obtain rfl | rfl | rfl := inRest
    · omega
    · exact dot
    · omega

theorem isVersion_written : IsVersion (bytesOf "HTTP/1.1".toList) := ⟨49, 49, rfl, rfl, by decide +kernel⟩

theorem RequestStart.noLf {targets : Targets} {line body : Bytes} (start : RequestStart targets line body) : (10 : UInt8) ∉ line := by
  obtain ⟨method, target, version, token, isTarget, isVersion, rfl⟩ := start
  intro member
  simp only [List.mem_append, List.mem_cons] at member
  obtain inMethod | space | inTarget | space | inVersion := member
  · exact absurd (token.2 10 inMethod) (by decide)
  · exact absurd space (by decide)
  · exact absurd (targets.visible target isTarget 10 inTarget).1 (by decide)
  · exact absurd space (by decide)
  · exact absurd (isVersion.visible 10 inVersion) (by decide)

theorem StatusStart.noLf {line body : Bytes} (start : StatusStart line body) : (10 : UInt8) ∉ line := by
  obtain ⟨version, a, b, c, reason, isVersion, ⟨aDigit, bDigit, cDigit⟩, text, rfl, -⟩ := start
  intro member
  simp only [List.mem_append, List.mem_cons] at member
  obtain inVersion | space | rfl | rfl | rfl | space | inReason := member
  · exact absurd (isVersion.visible 10 inVersion) (by decide)
  · exact absurd space (by decide)
  · exact absurd aDigit (by decide)
  · exact absurd bDigit (by decide)
  · exact absurd cDigit (by decide)
  · exact absurd space (by decide)
  · exact absurd (text 10 inReason) (by decide)

end Thera.Sdk.Http
