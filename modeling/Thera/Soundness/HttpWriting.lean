import Thera.Proofs.Sdk.HttpGrammar

/-! # What the writers put on the wire

The texts of a message are written as they are. The bytes are one message with one framing field exactly if the texts keep to
the grammar and no name spells a framing field in other letters.
-/

namespace Thera.Sdk.Http

/-! ## Written lines -/

/-- The fields that are written for a header. -/
def fieldsOf (entry : Text × Text) : List (Text × Text) :=
  if entry.1 ≠ contentLength ∧ entry.1 ≠ transferEncoding then
    if entry.1 = setCookie then (entry.2.splitOn '\n').map fun cookie => (entry.1, cookie) else [entry]
  else []

def writtenFields (headers : Headers) : List (Text × Text) := headers.flatMap fieldsOf

/-- The line of a field, without its end. -/
def fieldText (field : Text × Text) : Text := field.1 ++ ':' :: ' ' :: field.2

def lengthField (n : ℕ) : Text × Text := (contentLength, intText n)

theorem bytesOf_headerLine (key value : Text) : bytesOf (headerLine key value) = bytesOf (fieldText (key, value)) ++ [13, 10] := by
  rw [headerLine, fieldText, bytesOf_append]
  simp only [List.append_assoc, List.cons_append, List.nil_append]
  rfl

theorem bytesOf_headerLines (entry : Text × Text) :
    bytesOf (headerLines entry) = joinLines ((fieldsOf entry).map fun field => bytesOf (fieldText field)) := by
  rw [headerLines, fieldsOf]
  split
  · split
    · induction entry.2.splitOn '\n' with
      | nil => rfl
      | cons cookie cookies ih =>
        rw [List.flatMap_cons, bytesOf_append, ih, bytesOf_headerLine, List.map_cons, List.map_cons, joinLines_cons, List.append_assoc]
        rfl
    · rw [bytesOf_headerLine, List.map_singleton, joinLines_cons]
      rfl
  · rfl

/-- The head of a message, as its lines. -/
theorem bytesOf_head (start : Text) (headers : Headers) (n : ℕ) :
    bytesOf (start ++ crlf ++ writeHeaders headers n) =
      joinLines (bytesOf start :: ((writtenFields headers ++ [lengthField n]).map fun field => bytesOf (fieldText field)) ++ [[]]) := by
  have lines : bytesOf (headers.flatMap headerLines) = joinLines ((writtenFields headers).map fun field => bytesOf (fieldText field)) := by
    induction headers with
    | nil => rfl
    | cons entry headers ih =>
      have more : writtenFields (entry :: headers) = fieldsOf entry ++ writtenFields headers := List.flatMap_cons
      rw [List.flatMap_cons, bytesOf_append, ih, bytesOf_headerLines, more, List.map_append, joinLines_append]
  rw [writeHeaders, bytesOf_append, bytesOf_append, bytesOf_append, bytesOf_append, lines, bytesOf_headerLine, List.map_append,
    List.cons_append, joinLines_cons, joinLines_append, joinLines_append, List.map_singleton, joinLines_cons, joinLines_cons]
  have ending : bytesOf crlf = [13, 10] := rfl
  simp only [ending, List.append_assoc, List.cons_append, List.nil_append, lengthField]
  rfl

/-! ## Fields that keep to the grammar -/

/-- The name that a reader finds: the key, up to a colon inside it. -/
def fieldName (key : Text) : Text := key.takeWhile (· ≠ ':')

/-- The field is written as one field line, and not as one that frames the body. -/
structure FieldFine (field : Text × Text) : Prop where
  nonempty : fieldName field.1 ≠ []
  token : ∀ c ∈ fieldName field.1, isTchar c.toNat = true
  notLength : (fieldName field.1).map Char.toLower ≠ contentLength
  notEncoding : (fieldName field.1).map Char.toLower ≠ transferEncoding
  text : ∀ c ∈ field.1 ++ field.2, isTextual c.toNat = true

theorem colon_notMem_fieldName (key : Text) : ':' ∉ fieldName key := by
  intro member
  have colon := List.mem_takeWhile_imp (p := (· ≠ ':')) member
  exact absurd rfl (of_decide_eq_true colon)

/-- A line is cut at its first colon. -/
theorem fieldText_cut (field : Text × Text) : ∃ behind, fieldText field = fieldName field.1 ++ ':' :: behind ∧
    ((∀ c ∈ behind, isTextual c.toNat = true) ∧ (∀ c ∈ fieldName field.1, isTextual c.toNat = true) ↔
      ∀ c ∈ field.1 ++ field.2, isTextual c.toNat = true) := by
  obtain ⟨key, value⟩ := field
  have colon : isTextual (':').toNat = true := by decide
  have space : isTextual (' ').toNat = true := by decide
  have cut := List.takeWhile_append_dropWhile (p := (· ≠ ':')) (l := key)
  rw [fieldText]
  cases behind : key.dropWhile (· ≠ ':') with
  | nil =>
    rw [behind, List.append_nil] at cut
    refine ⟨' ' :: value, by rw [fieldName, cut], ?_⟩
    rw [fieldName, cut]
    simp only [List.forall_mem_cons, List.forall_mem_append, space, true_and]
    exact and_comm
  | cons c after =>
    have first : c = ':' := by
      have head := List.head?_dropWhile_not (· ≠ ':') key
      rw [behind] at head
      simpa using head
    subst first
    rw [behind] at cut
    refine ⟨after ++ ':' :: ' ' :: value, ?_, ?_⟩
    · conv_lhs => rw [← cut]
      rw [fieldName, List.append_assoc]
      rfl
    · conv_rhs => rw [← cut]
      simp only [List.forall_mem_cons, List.forall_mem_append, colon, space, true_and, fieldName]
      tauto

/-! ## Letters -/

theorem toNat_toLower (c : Char) : c.toLower.toNat = if 65 ≤ c.toNat ∧ c.toNat ≤ 90 then c.toNat + 32 else c.toNat := by
  have upper : ('A'.val ≤ c.val ∧ c.val ≤ 'Z'.val) ↔ 65 ≤ c.toNat ∧ c.toNat ≤ 90 := by
    rw [UInt32.le_iff_toNat_le, UInt32.le_iff_toNat_le]
    rfl
  rw [Char.toLower]
  split
  · rename_i isUpper
    have range := upper.mp isUpper
    rw [if_pos range]
    show (c.val + 32).toNat = c.toNat + 32
    rw [UInt32.toNat_add]
    exact Nat.mod_eq_of_lt (show c.toNat + 32 < 2 ^ 32 by omega)
  · rename_i notUpper
    rw [if_neg fun range => notUpper (upper.mpr range)]

theorem lowerName_bytesOf {name : Text} (token : ∀ c ∈ name, isTchar c.toNat = true) :
    lowerName (bytesOf name) = bytesOf (name.map Char.toLower) := by
  have ascii : ∀ c ∈ name, c.toNat < 128 := fun c member => isTchar_lt (token c member)
  have ascii' : ∀ c ∈ name.map Char.toLower, c.toNat < 128 := by
    intro c member
    obtain ⟨d, inside, rfl⟩ := List.mem_map.mp member
    have small := ascii d inside
    rw [toNat_toLower]
    split <;> omega
  rw [bytesOf_ascii ascii, bytesOf_ascii ascii', lowerName, List.map_map, List.map_map]
  apply List.map_congr_left
  intro c member
  have byte : (UInt8.ofNat c.toNat).toNat = c.toNat := UInt8.toNat_ofNat_of_lt' (Nat.lt_of_lt_of_le (ascii c member) (by decide))
  have upper : (65 ≤ UInt8.ofNat c.toNat ∧ UInt8.ofNat c.toNat ≤ 90) ↔ 65 ≤ c.toNat ∧ c.toNat ≤ 90 := by
    rw [UInt8.le_iff_toNat_le, UInt8.le_iff_toNat_le, byte]
    rfl
  simp only [Function.comp_apply, upper, toNat_toLower]
  split
  · rw [UInt8.ofNat_add]
    rfl
  · rfl

/-! ## Fields -/

theorem field_iff (field : Text × Text) :
    (∃ cut : Field, cut.Formed ∧ cut.isFraming = false ∧ cut.line = bytesOf (fieldText field)) ↔ FieldFine field := by
  obtain ⟨behind, text, textual⟩ := fieldText_cut field
  have line : bytesOf (fieldText field) = bytesOf (fieldName field.1) ++ 58 :: bytesOf behind := by
    rw [text, bytesOf_append, bytesOf_cons]
    rfl
  have noColon : (58 : UInt8) ∉ bytesOf (fieldName field.1) := by
    have none := (forall_bytesOf (p := (· ≠ 58)) (fun m n large large' => by omega) (fieldName field.1)).mpr (by
      intro c member same
      apply colon_notMem_fieldName field.1
      rwa [show ':' = c from Char.ext (UInt32.toNat_inj.mp same.symm)])
    exact fun member => none 58 member rfl
  constructor
  · rintro ⟨⟨name, value⟩, ⟨token, isText⟩, notFraming, same⟩
    rw [line] at same
    have noColon' : (58 : UInt8) ∉ name := fun member => absurd (token.2 58 member) (by decide)
    obtain ⟨rfl, rfl⟩ := cut_unique same noColon' noColon
    obtain ⟨nonempty, tchars⟩ := isToken_bytesOf.mp token
    rw [Field.isFraming, Bool.or_eq_false_iff, decide_eq_false_iff_not, decide_eq_false_iff_not, lowerName_bytesOf tchars] at notFraming
    refine ⟨nonempty, tchars, fun same => notFraming.1 (by rw [same]), fun same => notFraming.2 (by rw [same]), ?_⟩
    apply textual.mp
    refine ⟨isText_bytesOf.mp isText, fun c member => ?_⟩
    have tchar := tchars c member
    simp [isTchar] at tchar
    simp [isTextual]
    omega
  · intro fine
    refine ⟨(bytesOf (fieldName field.1), bytesOf behind), ⟨isToken_bytesOf.mpr ⟨fine.nonempty, fine.token⟩, ?_⟩, ?_, line.symm⟩
    · exact isText_bytesOf.mpr (textual.mpr fine.text).1
    · rw [Field.isFraming, Bool.or_eq_false_iff, decide_eq_false_iff_not, decide_eq_false_iff_not, lowerName_bytesOf fine.token]
      exact ⟨fun same => fine.notLength (bytesOf_injective same), fun same => fine.notEncoding (bytesOf_injective same)⟩

theorem exists_cuts {fields : List (Text × Text)} (fine : ∀ field ∈ fields, FieldFine field) :
    ∃ cuts : List Field, cuts.map Field.line = fields.map (fun field => bytesOf (fieldText field)) ∧
      ∀ cut ∈ cuts, cut.Formed ∧ cut.isFraming = false := by
  induction fields with
  | nil => exact ⟨[], rfl, nofun⟩
  | cons field fields ih =>
    obtain ⟨cut, formed, notFraming, line⟩ := (field_iff field).mpr (fine field List.mem_cons_self)
    obtain ⟨cuts, lines, each⟩ := ih fun field member => fine field (List.mem_cons_of_mem _ member)
    refine ⟨cut :: cuts, by rw [List.map_cons, List.map_cons, line, lines], ?_⟩
    intro cut' member
    obtain rfl | later := List.mem_cons.mp member
    · exact ⟨formed, notFraming⟩
    · exact each cut' later

/-- The content length, as a reader cuts it. -/
def lengthCut (n : ℕ) : Field := (bytesOf contentLength, 32 :: bytesOf (intText n))

theorem intText_natCast (n : ℕ) : intText n = decimalDigits n := by
  rw [intText, if_neg (by omega), Int.natAbs_natCast]

theorem lengthCut_line (n : ℕ) : (lengthCut n).line = bytesOf (fieldText (lengthField n)) := by
  rw [Field.line, lengthCut, lengthField, fieldText, bytesOf_append, bytesOf_cons, bytesOf_cons]
  rfl

theorem tchar_contentLength : ∀ c ∈ contentLength, isTchar c.toNat = true := List.all_eq_true.mp (by decide)

theorem lengthCut_lower (n : ℕ) : lowerName (lengthCut n).1 = bytesOf contentLength := by
  rw [lengthCut, lowerName_bytesOf tchar_contentLength]
  rfl

theorem lengthCut_formed (n : ℕ) : (lengthCut n).Formed := by
  refine ⟨isToken_bytesOf.mpr ⟨by decide, tchar_contentLength⟩, fun b member => ?_⟩
  obtain rfl | digit := List.mem_cons.mp member
  · rfl
  · refine isText_bytesOf.mpr ?_ b digit
    intro c inside
    rw [intText_natCast] at inside
    have range := isDigit_decimalDigits n c inside
    rw [isDigit, Bool.and_eq_true, decide_eq_true_eq, decide_eq_true_eq, codePoint] at range
    simp [isTextual]
    omega

theorem lengthCut_isLength (n : ℕ) : IsLength (lengthCut n).2 n := by
  refine ⟨[32], [], intText n, by simp, by rw [List.append_nil]; rfl, ?_⟩
  rw [intText_natCast, ← digitsValue_eq, digitsValue_decimalDigits]

theorem lengthCut_isFraming (n : ℕ) : (lengthCut n).isFraming = true := by
  rw [Field.isFraming, lengthCut_lower, decide_eq_true rfl, Bool.true_or]

/-! ## Messages -/

/-- What is written is one message exactly if the start line and every field are. -/
theorem oneMessage_iff {start : (line body : Bytes) → Prop} (noLf : ∀ line body, start line body → (10 : UInt8) ∉ line) (text : Text)
    (headers : Headers) (body : Bytes) :
    OneMessage start (bytesOf (text ++ crlf ++ writeHeaders headers body.length) ++ body) ((writtenFields headers).length + 1) body ↔
      start (bytesOf text) body ∧ ∀ field ∈ writtenFields headers, FieldFine field := by
  rw [bytesOf_head]
  constructor
  · rintro ⟨line, fields, framing, isStart, formed, same, count, single, -, -⟩
    have whole : ∀ line' ∈ line :: fields.map Field.line ++ [[]], (10 : UInt8) ∉ line' := by
      intro line' member
      simp only [List.cons_append, List.mem_cons, List.mem_append, List.mem_map, List.not_mem_nil, or_false] at member
      obtain rfl | ⟨field, inside, rfl⟩ | rfl := member
      · exact noLf line' body isStart
      · exact (formed field inside).noLf
      · exact List.not_mem_nil
    have lines := List.append_cancel_right (joinLines_injective (by simp [count]) whole (List.append_cancel_right same))
    obtain ⟨rfl, cuts⟩ := List.cons.inj lines
    rw [List.map_append, List.map_singleton] at cuts
    obtain ⟨front, back, rfl, front', back'⟩ := List.map_eq_append_iff.mp cuts.symm
    obtain ⟨last, rfl, last'⟩ := List.map_eq_singleton_iff.mp back'
    -- The last field frames the body, so none before it does.
    have lastFrames : last.isFraming = true := by
      rw [← lengthCut_line] at last'
      have noColon {cut : Field} (isFormed : cut.Formed) : (58 : UInt8) ∉ cut.1 :=
        fun member => absurd (isFormed.1.2 58 member) (by decide)
      have names := (cut_unique last' (noColon (formed last (by simp))) (noColon (lengthCut_formed _))).1
      have frames := lengthCut_isFraming body.length
      rwa [Field.isFraming, ← names] at frames
    have others : front.filter Field.isFraming = [] := by
      rw [List.filter_append, List.filter_singleton, lastFrames] at single
      exact (List.append_eq_singleton_iff.mp single).elim And.left fun both => by cases both.2
    refine ⟨isStart, fun field member => (field_iff field).mp ?_⟩
    have written : bytesOf (fieldText field) ∈ front.map Field.line := by
      rw [front']
      exact List.mem_map_of_mem member
    obtain ⟨cut, inside, line⟩ := List.mem_map.mp written
    refine ⟨cut, formed cut (List.mem_append_left _ inside), ?_, line⟩
    exact Bool.eq_false_iff.mpr (List.filter_eq_nil_iff.mp others cut inside)
  · rintro ⟨isStart, fine⟩
    obtain ⟨front, lines, each⟩ := exists_cuts fine
    refine ⟨bytesOf text, front ++ [lengthCut body.length], lengthCut body.length, isStart, ?_, ?_, ?_, ?_,
      lengthCut_lower body.length, lengthCut_isLength body.length⟩
    · intro cut member
      obtain inside | last := List.mem_append.mp member
      · exact (each cut inside).1
      · rw [List.mem_singleton.mp last]
        exact lengthCut_formed body.length
    · rw [List.map_append, List.map_append, lines, List.map_singleton, List.map_singleton, lengthCut_line]
    · have count := congrArg List.length lines
      rw [List.length_map, List.length_map] at count
      rw [List.length_append, count]
      rfl
    · rw [List.filter_append, List.filter_singleton, lengthCut_isFraming,
        List.filter_eq_nil_iff.mpr fun cut inside => Bool.eq_false_iff.mp (each cut inside).2]
      rfl

/-! ## Start lines -/

theorem bytesOf_space (text : Text) : bytesOf (' ' :: text) = 32 :: bytesOf text := rfl

theorem requestLine_eq (req : Request) : requestLine req = req.method ++ ' ' :: (req.url ++ ' ' :: "HTTP/1.1".toList) := by
  have version : " HTTP/1.1".toList = ' ' :: "HTTP/1.1".toList := by decide
  have shape (long short : Text) (same : long = ' ' :: short) :
      req.method ++ [' '] ++ req.url ++ long = req.method ++ ' ' :: (req.url ++ ' ' :: short) := by
    rw [same]
    simp only [List.append_assoc, List.cons_append, List.nil_append]
  exact shape _ _ version

theorem bytesOf_requestLine (req : Request) :
    bytesOf (requestLine req) = bytesOf req.method ++ 32 :: (bytesOf req.url ++ 32 :: bytesOf "HTTP/1.1".toList) := by
  rw [requestLine_eq, bytesOf_append, bytesOf_space, bytesOf_append, bytesOf_space]

theorem requestStart_iff {targets : Targets} (req : Request) :
    RequestStart targets (bytesOf (requestLine req)) req.body ↔
      (req.method ≠ [] ∧ ∀ c ∈ req.method, isTchar c.toNat = true) ∧ targets.isTarget (bytesOf req.url) := by
  rw [bytesOf_requestLine, ← isToken_bytesOf]
  constructor
  · rintro ⟨method, target, version, token, isTarget, isVersion, same⟩
    have noSpace : (32 : UInt8) ∉ method := fun member => absurd (token.2 32 member) (by decide)
    have noSpace' : (32 : UInt8) ∉ target := fun member => absurd (targets.visible target isTarget 32 member).1 (by decide)
    have noSpace'' : (32 : UInt8) ∉ version := fun member => absurd (isVersion.visible 32 member) (by decide)
    -- Both lines have two spaces, so there is none inside the method or the target.
    have counts := congrArg (List.count 32) same
    simp only [List.count_append, List.count_cons_self, List.count_eq_zero_of_not_mem noSpace, List.count_eq_zero_of_not_mem noSpace',
      List.count_eq_zero_of_not_mem noSpace''] at counts
    have noMethod : (32 : UInt8) ∉ bytesOf req.method := List.count_eq_zero.mp (by omega)
    have noUrl : (32 : UInt8) ∉ bytesOf req.url := List.count_eq_zero.mp (by omega)
    obtain ⟨rfl, rest⟩ := cut_unique same noMethod noSpace
    obtain ⟨rfl, -⟩ := cut_unique rest noUrl noSpace'
    exact ⟨token, isTarget⟩
  · rintro ⟨token, isTarget⟩
    exact ⟨_, _, _, token, isTarget, isVersion_written, rfl⟩

theorem isTextual_reasonPhrase (status : ℤ) : ∀ c ∈ reasonPhrase status, isTextual c.toNat = true := by
  have listed : ∀ phrase ∈ phrases, phrase.2.toList.all (fun c => isTextual c.toNat) = true := by decide +kernel
  rw [reasonPhrase]
  split
  · rename_i phrase found
    obtain ⟨before, after, list, -⟩ := List.lookup_eq_some_iff.mp found
    have member : (status, phrase) ∈ phrases := by
      rw [list]
      exact List.mem_append_right before List.mem_cons_self
    exact List.all_eq_true.mp (listed _ member)
  · split_ifs <;> exact List.all_eq_true.mp (by decide)

theorem length_decimalDigits (n : ℕ) : (decimalDigits n).length = if n < 10 then 1 else (decimalDigits (n / 10)).length + 1 := by
  rw [decimalDigits]
  split
  · rfl
  · exact List.length_append

theorem three_digits {n : ℕ} : (decimalDigits n).length = 3 ↔ 100 ≤ n ∧ n < 1000 := by
  have positive := List.length_pos_of_ne_nil (decimalDigits_ne_nil (n / 10 / 10 / 10))
  rw [length_decimalDigits, length_decimalDigits (n / 10), length_decimalDigits (n / 10 / 10)]
  split_ifs <;> omega

theorem codePoint_toNat {k : ℕ} (small : k < 10) : (Char.ofNat (48 + k)).toNat = 48 + k := by
  have same := codePoint_digit small
  rw [codePoint] at same
  omega

theorem ascii_decimalDigits (n : ℕ) : ∀ c ∈ decimalDigits n, c.toNat < 128 := by
  intro c member
  have range := isDigit_decimalDigits n c member
  rw [isDigit, Bool.and_eq_true, decide_eq_true_eq, decide_eq_true_eq, codePoint] at range
  omega

/-- The digits of a number of three digits. -/
theorem bytesOf_three {n : ℕ} (low : 100 ≤ n) (high : n < 1000) :
    ∃ a b c, bytesOf (decimalDigits n) = [a, b, c] ∧ (isDigitByte a = true ∧ isDigitByte b = true ∧ isDigitByte c = true) ∧
      codeOf a b c = n := by
  have digits : decimalDigits n = [Char.ofNat (48 + n / 10 / 10), Char.ofNat (48 + n / 10 % 10), Char.ofNat (48 + n % 10)] := by
    rw [decimalDigits, if_neg (by omega), decimalDigits, if_neg (by omega), decimalDigits, if_pos (by omega)]
    rfl
  have byte {k : ℕ} (small : k < 10) : (UInt8.ofNat (48 + k)).toNat = 48 + k :=
    UInt8.toNat_ofNat_of_lt' (Nat.lt_of_lt_of_le (show 48 + k < 58 by omega) (by decide))
  have digit {k : ℕ} (small : k < 10) : isDigitByte (UInt8.ofNat (48 + k)) = true := by
    rw [isDigitByte, Bool.and_eq_true, decide_eq_true_eq, decide_eq_true_eq, UInt8.le_iff_toNat_le, UInt8.le_iff_toNat_le, byte small]
    exact ⟨Nat.le_add_right 48 k, show 48 + k ≤ 57 by omega⟩
  refine ⟨UInt8.ofNat (48 + n / 10 / 10), UInt8.ofNat (48 + n / 10 % 10), UInt8.ofNat (48 + n % 10), ?_, ?_, ?_⟩
  · rw [bytesOf_ascii (ascii_decimalDigits n), digits, List.map_cons, List.map_cons, List.map_singleton, codePoint_toNat (by omega),
      codePoint_toNat (by omega), codePoint_toNat (by omega)]
  · exact ⟨digit (by omega), digit (by omega), digit (by omega)⟩
  · rw [codeOf, byte (by omega), byte (by omega), byte (by omega)]
    omega

theorem statusLine_eq (resp : Response) :
    statusLine resp = "HTTP/1.1".toList ++ ' ' :: (intText resp.status ++ ' ' :: reasonPhrase resp.status) := by
  have version : "HTTP/1.1 ".toList = "HTTP/1.1".toList ++ [' '] := by decide
  have shape (long short : Text) (same : long = short ++ [' ']) :
      long ++ intText resp.status ++ [' '] ++ reasonPhrase resp.status =
        short ++ ' ' :: (intText resp.status ++ ' ' :: reasonPhrase resp.status) := by
    rw [same]
    simp only [List.append_assoc, List.cons_append, List.nil_append]
  exact shape _ _ version

theorem bytesOf_statusLine (resp : Response) :
    bytesOf (statusLine resp) =
      bytesOf "HTTP/1.1".toList ++ 32 :: (bytesOf (intText resp.status) ++ 32 :: bytesOf (reasonPhrase resp.status)) := by
  rw [statusLine_eq, bytesOf_append, bytesOf_space, bytesOf_append, bytesOf_space]

theorem intText_noSpace (n : ℤ) : (32 : UInt8) ∉ bytesOf (intText n) := by
  have digits : ∀ c ∈ decimalDigits n.natAbs, c.toNat ≠ 32 := by
    intro c member
    have range := isDigit_decimalDigits n.natAbs c member
    rw [isDigit, Bool.and_eq_true, decide_eq_true_eq, decide_eq_true_eq, codePoint] at range
    omega
  have chars : ∀ c ∈ intText n, c.toNat ≠ 32 := by
    rw [intText]
    split
    · exact List.forall_mem_cons.mpr ⟨by decide, digits⟩
    · exact digits
  have bytes := (forall_bytesOf (p := (· ≠ 32)) (fun m n large large' => by omega) (intText n)).mpr chars
  exact fun member => bytes 32 member rfl

theorem statusStart_iff (resp : Response) :
    StatusStart (bytesOf (statusLine resp)) resp.body ↔
      (100 ≤ resp.status ∧ resp.status ≤ 999) ∧ (statusHasNoBody resp.status = true → resp.body = []) := by
  rw [bytesOf_statusLine]
  constructor
  · rintro ⟨version, a, b, c, reason, isVersion, ⟨aDigit, bDigit, cDigit⟩, -, same, bodyless⟩
    have noSpace {version : Bytes} (isVersion : IsVersion version) : (32 : UInt8) ∉ version :=
      fun member => absurd (isVersion.visible 32 member) (by decide)
    obtain ⟨-, rest⟩ := cut_unique same (noSpace isVersion_written) (noSpace isVersion)
    have digits : bytesOf (intText resp.status) = [a, b, c] := by
      have cut : bytesOf (intText resp.status) ++ 32 :: bytesOf (reasonPhrase resp.status) = [a, b, c] ++ 32 :: reason := rest
      refine (cut_unique cut (intText_noSpace resp.status) ?_).1
      simp only [List.mem_cons, List.not_mem_nil, or_false]
      rintro (rfl | rfl | rfl)
      · exact absurd aDigit (by decide)
      · exact absurd bDigit (by decide)
      · exact absurd cDigit (by decide)
    by_cases negative : resp.status < 0
    · rw [intText, if_pos negative, bytesOf_cons] at digits
      obtain ⟨rfl, -⟩ := List.cons.inj (show 45 :: bytesOf (decimalDigits resp.status.natAbs) = [a, b, c] from digits)
      exact absurd aDigit (by decide)
    · rw [intText, if_neg negative] at digits
      have length := congrArg List.length digits
      rw [bytesOf_ascii (ascii_decimalDigits _), List.length_map] at length
      have range := three_digits.mp length
      obtain ⟨a', b', c', digits', -, code⟩ := bytesOf_three range.1 range.2
      rw [digits', List.cons.injEq, List.cons.injEq, List.cons.injEq] at digits
      obtain ⟨rfl, rfl, rfl, -⟩ := digits
      have number : codeOf a' b' c' = resp.status := by omega
      rw [number] at bodyless
      exact ⟨by omega, bodyless⟩
  · rintro ⟨⟨low, high⟩, bodyless⟩
    obtain ⟨n, number⟩ : ∃ n : ℕ, resp.status = n := ⟨resp.status.toNat, by omega⟩
    obtain ⟨a, b, c, digits, areDigits, code⟩ := bytesOf_three (n := n) (by omega) (by omega)
    refine ⟨_, a, b, c, _, isVersion_written, areDigits, isText_bytesOf.mpr (isTextual_reasonPhrase resp.status), ?_, ?_⟩
    · rw [number, intText_natCast, digits]
      rfl
    · rwa [code, ← number]

/-! ## Results -/

/-- A request whose texts keep to the grammar. -/
structure RequestFine (targets : Targets) (req : Request) : Prop where
  method : req.method ≠ [] ∧ ∀ c ∈ req.method, isTchar c.toNat = true
  target : targets.isTarget (bytesOf req.url)
  fields : ∀ field ∈ writtenFields req.headers, FieldFine field

/-- A response whose texts keep to the grammar, with a body only where its status allows one. -/
structure ResponseFine (resp : Response) : Prop where
  status : 100 ≤ resp.status ∧ resp.status ≤ 999
  body : statusHasNoBody resp.status = true → resp.body = []
  fields : ∀ field ∈ writtenFields resp.headers, FieldFine field

theorem oneMessage_request {targets : Targets} (req : Request) :
    OneMessage (RequestStart targets) (writeRequest req) ((writtenFields req.headers).length + 1) req.body ↔ RequestFine targets req := by
  rw [writeRequest, oneMessage_iff fun line body => RequestStart.noLf, requestStart_iff]
  constructor
  · rintro ⟨⟨method, target⟩, fields⟩
    exact ⟨method, target, fields⟩
  · intro fine
    exact ⟨⟨fine.method, fine.target⟩, fine.fields⟩

theorem oneMessage_response (resp : Response) :
    OneMessage StatusStart (writeResponse resp) ((writtenFields resp.headers).length + 1) resp.body ↔ ResponseFine resp := by
  rw [writeResponse, oneMessage_iff fun line body => StatusStart.noLf, statusStart_iff]
  constructor
  · rintro ⟨⟨status, body⟩, fields⟩
    exact ⟨status, body, fields⟩
  · intro fine
    exact ⟨⟨fine.status, fine.body⟩, fine.fields⟩

/-- What is written is one message, with as many field lines as fields were given and one content length, exactly if the texts of the
message keep to the grammar and no name spells a framing field in other letters. -/
theorem written_message_iff (targets : Targets) :
    (∀ req : Request, OneMessage (RequestStart targets) (writeRequest req) ((writtenFields req.headers).length + 1) req.body ↔
      RequestFine targets req) ∧
    ∀ resp : Response, OneMessage StatusStart (writeResponse resp) ((writtenFields resp.headers).length + 1) resp.body ↔
      ResponseFine resp :=
  ⟨oneMessage_request, oneMessage_response⟩

/-- The widest grammar of targets. -/
def visibleTargets : Targets where
  isTarget target := target ≠ [] ∧ ∀ b ∈ target, 32 < b.toNat ∧ b.toNat ≠ 127
  visible _ isTarget := isTarget.2

def requestWith (url : String) (headers : List (String × String)) : Request :=
  ⟨"GET".toList, url.toList, headers.map fun entry => (entry.1.toList, entry.2.toList), []⟩

/-- A framing field in other letters is written beside the content length, and line breaks in a value or in a url go to the wire. -/
theorem header_texts_change_framing :
    ¬ OneMessage (RequestStart visibleTargets) (writeRequest (requestWith "/" [("Content-Length", "5")])) 2 [] ∧
      ¬ OneMessage (RequestStart visibleTargets) (writeRequest (requestWith "/" [("x", "a\r\ny: b")])) 2 [] ∧
      ¬ OneMessage (RequestStart visibleTargets) (writeRequest (requestWith "/ HTTP/1.1\r\nx: a\r\n\r\nGET /" [])) 1 [] := by
  refine ⟨fun one => ?_, fun one => ?_, fun one => ?_⟩
  · have fine := (oneMessage_request (requestWith "/" [("Content-Length", "5")])).mp one
    exact (fine.fields ("Content-Length".toList, "5".toList) (by decide +kernel)).notLength (by decide +kernel)
  · have fine := (oneMessage_request (requestWith "/" [("x", "a\r\ny: b")])).mp one
    exact absurd ((fine.fields ("x".toList, "a\r\ny: b".toList) (by decide +kernel)).text '\r' (by decide +kernel)) (by decide)
  · have fine := (oneMessage_request (requestWith "/ HTTP/1.1\r\nx: a\r\n\r\nGET /" [])).mp one
    exact absurd (fine.target.2 32 (by decide +kernel)).1 (by decide)

end Thera.Sdk.Http
