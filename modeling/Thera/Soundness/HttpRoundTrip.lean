import Thera.Soundness.HttpFraming
import Thera.Soundness.HttpWriting

/-! # Messages on the wire

Messages that are written back to back are read back one by one, in whatever pieces the bytes arrive. What a message leaves on the
wire is the next one, untouched.
-/

namespace Thera.Sdk.Http

open Scanning

/-! ## Well-formed messages -/

section

variable (lowering : Lowering)

/-- A lower-case name and a trimmed value, on one line. -/
structure FieldFormed (field : Text × Text) : Prop where
  nonempty : field.1 ≠ []
  lowerCase : lowering.lower field.1 = field.1
  noColon : ':' ∉ field.1
  oneLine : '\n' ∉ field.1 ∧ '\n' ∉ field.2
  name : trim field.1 = field.1
  value : trim field.2 = field.2

/-- Distinct fields, none of which frames the body. -/
structure HeadersFormed (headers : Headers) : Prop where
  distinct : (headers.map Prod.fst).Nodup
  fields : ∀ field ∈ headers, FieldFormed lowering field
  notLength : contentLength ∉ headers.map Prod.fst
  notEncoding : transferEncoding ∉ headers.map Prod.fst

/-- A text of a request line. -/
def WordFormed (word : Text) : Prop := word ≠ [] ∧ ' ' ∉ word ∧ '\n' ∉ word

structure RequestFormed (req : Request) : Prop where
  method : WordFormed req.method
  url : WordFormed req.url
  headers : HeadersFormed lowering req.headers
  body : req.body.length ≤ maxBodyBytes

structure ResponseFormed (resp : Response) : Prop where
  status : 100 ≤ resp.status ∧ resp.status ≤ 599
  hasBody : statusHasNoBody resp.status = false
  headers : HeadersFormed lowering resp.headers
  body : resp.body.length < 2 ^ 63

end

/-- The headers that are read back. -/
def received (headers : Headers) (body : Bytes) : Headers := headers ++ [lengthField body.length]

/-! ## Lines -/

variable {lowering : Lowering}

theorem Line.of_text {text : Text} (oneLine : '\n' ∉ text) (rest : Bytes) : Line (bytesOf text ++ 13 :: 10 :: rest) text rest := by
  have noLf := (forall_bytesOf (p := (· ≠ 10)) (fun m n large large' => by omega) text).mpr (by
    intro c member same
    apply oneLine
    rwa [show '\n' = c from Char.ext (UInt32.toNat_inj.mp same.symm)])
  refine ⟨bytesOf text ++ [13], ⟨by rw [List.append_assoc]; rfl, ?_⟩, ?_⟩
  · rw [List.mem_append, List.mem_singleton]
    rintro (member | cr)
    · exact noLf 10 member rfl
    · exact absurd cr (by decide)
  · rw [stripCr, if_pos (by simp), List.dropLast_concat]
    exact textOf_bytesOf text

variable {wire : Wire} {rest : Bytes}

theorem readLine_line {line : Text} (valid : wire.Valid) (here : Line wire.stream line rest) :
    ∃ wire', readLine wire = .ok (some line, wire') ∧ Moved wire wire' rest := by
  have read := readLine_read valid
  generalize readLine wire = result at read
  cases read with
  | line splits decoded moved =>
    obtain ⟨rfl, rfl⟩ := here.unique ⟨_, splits, decoded⟩
    exact ⟨_, rfl, moved⟩
  | invalid splits undecoded => exact absurd here (noLine_of_undecoded splits undecoded)
  | ended empty => exact absurd here.lf (by simp [empty])
  | cut nonempty noLf | failed noLf => exact absurd here.lf noLf

/-- The next line of a text that was written in lines. -/
theorem readLine_joined {line : Text} {lines : List Bytes} (valid : wire.Valid) (oneLine : '\n' ∉ line)
    (stream : wire.stream = joinLines (bytesOf line :: lines) ++ rest) :
    ∃ wire', readLine wire = .ok (some line, wire') ∧ Moved wire wire' (joinLines lines ++ rest) := by
  apply readLine_line valid
  rw [stream, joinLines_cons, List.append_assoc]
  exact Line.of_text oneLine _

theorem length_le_joinLines (lines : List Bytes) : lines.length ≤ (joinLines lines).length := by
  induction lines with
  | nil => exact le_refl 0
  | cons line lines ih =>
    rw [joinLines_cons, List.length_append, List.length_cons, List.length_cons, List.length_cons]
    omega

/-! ## Headers -/

theorem trim_space (text : Text) : trim (' ' :: text) = trim text := rfl

theorem head_of_trim {text : Text} {c : Char} (trimmed : trim text = text) (first : text.head? = some c) : isWhite c = false := by
  cases text with
  | nil => cases first
  | cons d text =>
    obtain rfl : d = c := Option.some.inj first
    by_contra white
    rw [Bool.not_eq_false] at white
    have shorter : (trim (d :: text)).length ≤ text.length := by
      rw [trim, List.dropWhile_cons_of_pos white]
      exact (List.rdropWhile_prefix _ _).length_le.trans (List.dropWhile_suffix _).length_le
    rw [trimmed, List.length_cons] at shorter
    omega

theorem sameText_iff (a b : Text) : sameText a b = true ↔ a = b := decide_eq_true_iff

theorem parseHeader_formed {headers : Headers} {field : Text × Text} (formed : FieldFormed lowering field)
    (absent : field.1 ∉ headers.map Prod.fst) : parseHeader lowering headers (fieldText field) = pure (headers ++ [field]) := by
  have notWhite {c : Char} (first : field.1.head? = some c) : isWhite c = false := head_of_trim formed.name first
  have head : (fieldText field).head? = field.1.head? := by rw [fieldText, List.head?_append_of_ne_nil _ formed.nonempty]
  have colon : (fieldText field).findIdx? (· = ':') = some field.1.length := findIdx?_drop_first formed.noColon (Nat.zero_le _) _
  have before : (fieldText field).take field.1.length = field.1 := by rw [fieldText, List.take_left]
  have behind : (fieldText field).drop (field.1.length + 1) = ' ' :: field.2 := by
    rw [fieldText, ← List.drop_drop, List.drop_left]
    rfl
  have fresh : OrderedAssoc.get sameText headers field.1 = none := by
    cases found : OrderedAssoc.get sameText headers field.1 with
    | none => rfl
    | some value =>
      have member := OrderedAssoc.mem_of_get sameText_iff found
      exact absurd (List.mem_map_of_mem (f := Prod.fst) member) absent
  rw [parseHeader, if_neg, colon]
  · dsimp only
    rw [before, behind, trim_space, formed.value, if_neg (not_or.mpr ⟨formed.nonempty, not_not_intro formed.name⟩), addHeader,
      formed.lowerCase, Headers.get, fresh]
    dsimp only
    rw [Headers.set, OrderedAssoc.insert_absent sameText_iff absent]
  · rw [head]
    rintro (space | tab)
    · exact absurd (notWhite space) (by decide)
    · exact absurd (notWhite tab) (by decide)

theorem FieldFormed.oneLine_text {field : Text × Text} (formed : FieldFormed lowering field) : '\n' ∉ fieldText field := by
  rw [fieldText, List.mem_append, List.mem_cons, List.mem_cons]
  rintro (inName | colon | space | inValue)
  · exact formed.oneLine.1 inName
  · exact absurd colon (by decide)
  · exact absurd space (by decide)
  · exact formed.oneLine.2 inValue

theorem readHeadersLoop_fields {fields headers : Headers} {fuel : ℕ} (valid : wire.Valid)
    (formed : ∀ field ∈ fields, FieldFormed lowering field) (distinct : ((headers ++ fields).map Prod.fst).Nodup)
    (stream : wire.stream = joinLines ((fields.map fun field => bytesOf (fieldText field)) ++ [[]]) ++ rest)
    (enough : fields.length < fuel) :
    ∃ wire', readHeadersLoop lowering headers fuel wire = .ok (headers ++ fields, wire') ∧ Moved wire wire' rest := by
  induction fields generalizing headers wire fuel with
  | nil =>
    obtain ⟨fuel, rfl⟩ := Nat.exists_eq_succ_of_ne_zero (Nat.ne_of_gt enough)
    obtain ⟨wire', run, moved⟩ : ∃ wire', readLine wire = .ok (some [], wire') ∧ Moved wire wire' rest :=
      readLine_joined valid List.not_mem_nil stream
    refine ⟨wire', ?_, moved⟩
    rw [readHeadersLoop, run_bind run, List.append_nil]
    rfl
  | cons field fields ih =>
    obtain ⟨fuel, rfl⟩ := Nat.exists_eq_succ_of_ne_zero (Nat.ne_of_gt (Nat.lt_of_le_of_lt (Nat.zero_le _) enough))
    have isFormed := formed field List.mem_cons_self
    obtain ⟨wire₁, run, moved⟩ := readLine_joined valid isFormed.oneLine_text stream
    have absent : field.1 ∉ headers.map Prod.fst := by
      rw [List.map_append, List.map_cons, List.nodup_append] at distinct
      intro member
      exact distinct.2.2 _ member _ List.mem_cons_self rfl
    have nonblank : fieldText field ≠ [] := by
      rw [fieldText]
      exact List.append_ne_nil_of_left_ne_nil isFormed.nonempty _
    obtain ⟨wire', run', moved'⟩ : ∃ wire', readHeadersLoop lowering (headers ++ [field]) fuel wire₁ =
        .ok (headers ++ [field] ++ fields, wire') ∧ Moved wire₁ wire' rest :=
      ih moved.valid (fun field member => formed field (List.mem_cons_of_mem _ member)) (by rwa [List.append_assoc]) moved.stream
        (Nat.lt_of_succ_lt_succ enough)
    refine ⟨wire', ?_, moved.trans moved'⟩
    rw [readHeadersLoop, run_bind run]
    dsimp only
    rw [if_neg nonblank, parseHeader_formed isFormed absent]
    rw [List.append_assoc] at run'
    exact run'

theorem trim_of_noWhite {text : Text} (none : ∀ c ∈ text, isWhite c = false) : trim text = text := by
  have start : text.dropWhile isWhite = text := by
    rw [List.dropWhile_eq_self_iff]
    intro nonempty white
    rw [none _ (List.getElem_mem nonempty)] at white
    cases white
  rw [trim, start, List.rdropWhile_eq_self_iff]
  intro nonempty white
  rw [none _ (List.getLast_mem nonempty)] at white
  cases white

theorem isWhite_decimalDigits (n : ℕ) : ∀ c ∈ decimalDigits n, isWhite c = false := by
  intro c member
  have range := isDigit_decimalDigits n c member
  rw [isDigit, Bool.and_eq_true, decide_eq_true_eq, decide_eq_true_eq, codePoint] at range
  simp [isWhite]
  omega

theorem trim_intText (n : ℕ) : trim (intText n) = intText n := by
  rw [intText_natCast]
  exact trim_of_noWhite (isWhite_decimalDigits n)

theorem lower_contentLength : lowering.lower contentLength = contentLength := by
  rw [lowering.ascii contentLength fun c member => isTchar_lt (tchar_contentLength c member)]
  rfl

theorem lower_transferEncoding : lowering.lower transferEncoding = transferEncoding := by
  have ascii : transferEncoding.all (fun c => decide (c.toNat < 128)) = true := by decide
  rw [lowering.ascii transferEncoding fun c member => of_decide_eq_true (List.all_eq_true.mp ascii c member)]
  rfl

theorem lengthField_formed (n : ℕ) : FieldFormed lowering (lengthField n) where
  nonempty := show contentLength ≠ [] by decide
  lowerCase := lower_contentLength
  noColon := show ':' ∉ contentLength by decide
  oneLine := by
    refine ⟨show '\n' ∉ contentLength by decide, fun member => ?_⟩
    rw [lengthField, intText_natCast] at member
    exact absurd (isDigit_decimalDigits n _ member) (by decide)
  name := show trim contentLength = contentLength by decide
  value := trim_intText n

section

variable {headers : Headers}

/-- Every header is written as one line. -/
theorem HeadersFormed.written (formed : HeadersFormed lowering headers) : writtenFields headers = headers := by
  have each : ∀ field ∈ headers, fieldsOf field = [field] := by
    intro field member
    have present : field.1 ∈ headers.map Prod.fst := List.mem_map_of_mem member
    have notLength : field.1 ≠ contentLength := fun same => formed.notLength (same ▸ present)
    have notEncoding : field.1 ≠ transferEncoding := fun same => formed.notEncoding (same ▸ present)
    rw [fieldsOf, if_pos ⟨notLength, notEncoding⟩]
    split
    · rw [List.splitOn_eq_singleton (formed.fields field member).oneLine.2]
      rfl
    · rfl
  rw [writtenFields]
  clear formed
  induction headers with
  | nil => rfl
  | cons field fields ih =>
    rw [List.flatMap_cons, each field List.mem_cons_self, ih fun field member => each field (List.mem_cons_of_mem _ member)]
    rfl

theorem HeadersFormed.received_nodup (formed : HeadersFormed lowering headers) (body : Bytes) :
    ((received headers body).map Prod.fst).Nodup := by
  rw [received, List.map_append, List.nodup_append]
  refine ⟨formed.distinct, List.nodup_singleton _, ?_⟩
  rintro a member b last rfl
  rw [List.map_singleton, List.mem_singleton] at last
  rw [last] at member
  exact formed.notLength member

theorem readHeaders_received {wire : Wire} {body rest : Bytes} (formed : HeadersFormed lowering headers) (valid : wire.Valid)
    (stream : wire.stream = joinLines (((received headers body).map fun field => bytesOf (fieldText field)) ++ [[]]) ++ rest) :
    ∃ wire', readHeaders lowering wire = .ok (received headers body, wire') ∧ Moved wire wire' rest := by
  have each : ∀ field ∈ received headers body, FieldFormed lowering field := by
    intro field member
    obtain inside | last := List.mem_append.mp member
    · exact formed.fields field inside
    · rw [List.mem_singleton.mp last]
      exact lengthField_formed body.length
  have enough : (received headers body).length < wire.unread + 1 := by
    have lines := length_le_joinLines (((received headers body).map fun field => bytesOf (fieldText field)) ++ [[]])
    have length := congrArg List.length stream
    have bound := wire.stream_length_le
    rw [List.length_append] at length
    rw [List.length_append, List.length_map] at lines
    omega
  rw [readHeaders, run_get]
  exact readHeadersLoop_fields valid each (formed.received_nodup body) stream enough

theorem takesLength_of_plain {raw : Text} {n : ℕ} (plain : PlainSize 10 (trim raw) n) : TakesLength raw n := by
  obtain ⟨value, small⟩ := plain
  cases trimmed : trim raw with
  | nil =>
    rw [trimmed] at value
    cases value
  | cons c text =>
    rw [trimmed] at value
    rw [takesLength_iff trimmed]
    have notMinus : c ≠ '-' := by
      rintro rfl
      rw [plainValue_minus] at value
      cases value
    have notPlus : c ≠ '+' := by
      rintro rfl
      rw [plainValue_plus] at value
      cases value
    rw [if_neg notMinus, if_neg notPlus]
    exact ⟨small, value⟩

theorem takesLength_intText {n : ℕ} (small : n < 2 ^ 63) : TakesLength (intText n) n := by
  apply takesLength_of_plain
  rw [trim_intText, PlainSize, intText_natCast, ← digitsValue_eq]
  exact ⟨digitsValue_decimalDigits n, small⟩

theorem framingOf_received {wire : Wire} {body : Bytes} {untilEof : Bool} (formed : HeadersFormed lowering headers)
    (small : body.length < 2 ^ 63) :
    framingOf lowering (received headers body) untilEof wire = .ok (.length body.length, wire) := by
  have noEncoding : header lowering (received headers body) transferEncoding = none := by
    rw [header, lower_transferEncoding, Headers.get]
    cases found : OrderedAssoc.get sameText (received headers body) transferEncoding with
    | none => rfl
    | some value =>
      obtain inside | last := List.mem_append.mp (OrderedAssoc.mem_of_get sameText_iff found)
      · exact absurd (List.mem_map_of_mem (f := Prod.fst) inside) formed.notEncoding
      · have same := congrArg Prod.fst (List.mem_singleton.mp last)
        exact absurd same (show transferEncoding ≠ contentLength by decide)
  have length : header lowering (received headers body) contentLength = some (intText body.length) := by
    rw [header, lower_contentLength, Headers.get]
    exact OrderedAssoc.get_of_mem sameText_iff (formed.received_nodup body) (List.mem_append_right _ (List.mem_singleton_self _))
  exact (framingOf_length noEncoding length).mpr ⟨body.length, takesLength_intText small, rfl⟩

end

/-! ## Bodies -/

theorem Owes.remaining_le {reader : BodyReader} {stream data : Bytes} (owes : Owes reader stream data rest) :
    reader.remaining ≤ data.length := by
  cases owes with
  | done => exact Nat.zero_le _
  | counted split total => exact total.symm.le
  | toEof | between => exact Nat.zero_le _
  | inside split total more blank delimits =>
    rw [List.length_append]
    exact total.symm.le.trans (Nat.le_add_right _ _)

theorem bufferedLoop_owes {reader : BodyReader} {acc data : Bytes} {fuel : ℕ}
    (owes : Owes reader wire.stream data rest) (valid : wire.Valid)
    (noFailure : reader.framing = .toEof → wire.fails = none) (small : acc.length + data.length ≤ maxBodyBytes)
    (enough : data.length < fuel) :
    ∃ wire', bufferedLoop reader acc fuel wire = .ok (acc ++ data, wire') ∧ Moved wire wire' rest := by
  induction fuel generalizing reader wire acc data with
  | zero => omega
  | succ fuel ih =>
    have declared : ¬ (wrapI64 (acc.length + reader.remaining)).1 > maxBodyBytes := by
      have bound := owes.remaining_le
      rw [maxBodyBytes] at small ⊢
      rw [wrapI64]
      dsimp only
      omega
    obtain ⟨out, reader₁, wire₁, run, delivers⟩ := readSome_delivers owes valid noFailure (show 0 < drainChunk by decide)
    obtain ⟨data', rfl, owes'⟩ := delivers.owes
    rw [bufferedLoop, if_neg declared, run_bind run]
    dsimp only
    by_cases empty : out = []
    · obtain ⟨rfl, rfl⟩ := owes'.of_done (delivers.progress empty)
      rw [if_pos empty, empty, List.append_nil, List.append_nil]
      exact ⟨wire₁, rfl, delivers.valid, rfl, delivers.fails⟩
    · have positive := List.length_pos_of_ne_nil empty
      rw [List.length_append] at small enough
      obtain ⟨wire', run', moved⟩ : ∃ wire', bufferedLoop reader₁ (acc ++ out) fuel wire₁ = .ok (acc ++ out ++ data', wire') ∧
          Moved wire₁ wire' rest :=
        ih owes' delivers.valid (fun toEof => delivers.fails.trans (noFailure (delivers.framing ▸ toEof)))
          (by rw [List.length_append]; omega) (by omega)
      refine ⟨wire', ?_, moved.valid, moved.stream, moved.fails.trans delivers.fails⟩
      rw [if_neg empty, if_neg (by omega), run', List.append_assoc]

theorem buffered_length {body : Bytes} (valid : wire.Valid) (stream : wire.stream = body ++ rest)
    (small : body.length ≤ maxBodyBytes) :
    ∃ wire', buffered (BodyReader.new (.length body.length)) wire = .ok (body, wire') ∧ Moved wire wire' rest := by
  have bound := wire.stream_length_le
  rw [stream, List.length_append] at bound
  rw [buffered, run_get]
  exact bufferedLoop_owes (.counted stream rfl) valid nofun (by rw [List.length_nil, Nat.zero_add]; exact small) (by omega)

/-! ## Messages -/

theorem checkVersion_written (wire : Wire) : checkVersion "HTTP/1.1".toList wire = .ok ((), wire) := by
  rw [checkVersion, if_pos (.inl rfl)]
  rfl

theorem noLf_version : '\n' ∉ "HTTP/1.1".toList := by decide

theorem noSpace_version : ' ' ∉ "HTTP/1.1".toList := by decide

/-- A request is read back from the front of a stream. -/
theorem readRequest_written {req : Request} (formed : RequestFormed lowering req) (valid : wire.Valid)
    (stream : wire.stream = writeRequest req ++ rest) :
    ∃ wire', readRequest lowering wire = .ok (some { req with headers := received req.headers req.body }, wire') ∧
      Moved wire wire' rest := by
  have oneLine : '\n' ∉ requestLine req := by
    rw [requestLine_eq]
    simp only [List.mem_append, List.mem_cons]
    rintro (inMethod | space | inUrl | space | inVersion)
    · exact formed.method.2.2 inMethod
    · exact absurd space (by decide)
    · exact formed.url.2.2 inUrl
    · exact absurd space (by decide)
    · exact noLf_version inVersion
  have words : (requestLine req).splitOn ' ' = [req.method, req.url, "HTTP/1.1".toList] := by
    rw [requestLine_eq, List.splitOn_append_cons_self_of_not_mem formed.method.2.1, List.splitOn_append_cons_self_of_not_mem formed.url.2.1,
      List.splitOn_eq_singleton noSpace_version]
  rw [writeRequest, bytesOf_head, formed.headers.written, List.append_assoc, List.cons_append] at stream
  obtain ⟨wire₁, run₁, moved₁⟩ := readLine_joined valid oneLine stream
  obtain ⟨wire₂, run₂, moved₂⟩ := readHeaders_received formed.headers moved₁.valid moved₁.stream
  have limit : req.body.length < 2 ^ 63 := by
    have small := formed.body
    rw [maxBodyBytes] at small
    omega
  obtain ⟨wire₃, run₃, moved₃⟩ := buffered_length moved₂.valid moved₂.stream formed.body
  refine ⟨wire₃, ?_, moved₁.trans (moved₂.trans moved₃)⟩
  rw [readRequest, run_bind run₁]
  dsimp only
  rw [words]
  dsimp only
  rw [run_bind (checkVersion_written wire₁), if_neg (not_or.mpr ⟨formed.method.1, formed.url.1⟩), run_bind run₂,
    run_bind (framingOf_received formed.headers limit), run_bind run₃]
  rfl

theorem toInt_intText {n : ℕ} (small : n < 2 ^ 63) : ∃ size : I64, toInt (codePoints (intText n)) = some size ∧ size.1 = n := by
  obtain ⟨size, run, positive, same⟩ := takesLength_intText small
  rw [trim_intText] at run
  exact ⟨size, run, by omega⟩

/-- The head of a response is read back from the front of a stream, with its body ahead. -/
theorem streamResponse_written {resp : Response} (formed : ResponseFormed lowering resp) (valid : wire.Valid)
    (stream : wire.stream = writeResponse resp ++ rest) :
    ∃ wire', streamResponse lowering false wire =
        .ok (⟨resp.status, received resp.headers resp.body, BodyReader.new (.length resp.body.length)⟩, wire') ∧
      Moved wire wire' (resp.body ++ rest) := by
  obtain ⟨low, high⟩ := formed.status
  obtain ⟨n, number⟩ : ∃ n : ℕ, resp.status = n := ⟨resp.status.toNat, by omega⟩
  have digits : ∀ c ∈ intText resp.status, isDigit (codePoint c) = true := by
    rw [number, intText_natCast]
    exact isDigit_decimalDigits n
  have noSpace : ' ' ∉ intText resp.status := fun member => absurd (digits ' ' member) (by decide)
  have oneLine : '\n' ∉ statusLine resp := by
    rw [statusLine_eq]
    simp only [List.mem_append, List.mem_cons]
    rintro (inVersion | space | inStatus | space | inReason)
    · exact noLf_version inVersion
    · exact absurd space (by decide)
    · exact absurd (digits '\n' inStatus) (by decide)
    · exact absurd space (by decide)
    · exact absurd (isTextual_reasonPhrase resp.status '\n' inReason) (by decide)
  have words : (statusLine resp).splitOn ' ' =
      "HTTP/1.1".toList :: intText resp.status :: (reasonPhrase resp.status).splitOn ' ' := by
    rw [statusLine_eq, List.splitOn_append_cons_self_of_not_mem noSpace_version, List.splitOn_append_cons_self_of_not_mem noSpace]
  obtain ⟨size, parsed, same⟩ : ∃ size : I64, toInt (codePoints (intText resp.status)) = some size ∧ size.1 = resp.status := by
    rw [number]
    exact toInt_intText (by omega)
  rw [writeResponse, bytesOf_head, formed.headers.written, List.append_assoc, List.cons_append] at stream
  obtain ⟨wire₁, run₁, moved₁⟩ := readLine_joined valid oneLine stream
  obtain ⟨wire₂, run₂, moved₂⟩ := readHeaders_received formed.headers moved₁.valid moved₁.stream
  refine ⟨wire₂, ?_, moved₁.trans moved₂⟩
  rw [streamResponse, run_bind run₁]
  dsimp only
  rw [words]
  dsimp only
  rw [run_bind (checkVersion_written wire₁), parsed]
  dsimp only
  rw [same, if_neg (by omega), run_bind run₂, formed.hasBody, if_neg (by decide), run_bind (framingOf_received formed.headers formed.body)]
  rfl

/-! ## Exchanges -/

inductive Message where
  | request (req : Request)
  | response (resp : Response)

/-- How a message is read; the body of a response is read with the given maxima. -/
inductive Reading where
  | request
  | response (maxima : List ℤ)

def Message.bytes : Message → Bytes
  | .request req => writeRequest req
  | .response resp => writeResponse resp

/-- The message with the content length that the writer adds. -/
def Message.received : Message → Message
  | .request req => .request { req with headers := Http.received req.headers req.body }
  | .response resp => .response { resp with headers := Http.received resp.headers resp.body }

def Message.Formed (lowering : Lowering) : Message → Prop
  | .request req => RequestFormed lowering req
  | .response resp => ResponseFormed lowering resp

/-- The reading is one for the message, and reads its body to the end. -/
def Message.Fits : Message → Reading → Prop
  | .request _, .request => True
  | .response resp, .response maxima => resp.body.length < asking maxima
  | _, _ => False

/-- Read one message. -/
def receive (lowering : Lowering) : Reading → Http (Option Message)
  | .request => do
      let req ← readRequest lowering
      return req.map .request
  | .response maxima => do
      let head ← streamResponse lowering false
      let (outs, _) ← readMany head.body maxima
      return some (.response ⟨head.status, head.headers, outs.flatten⟩)

theorem receive_written {message : Message} {reading : Reading} (formed : message.Formed lowering)
    (fits : message.Fits reading) (valid : wire.Valid) (stream : wire.stream = message.bytes ++ rest) :
    ∃ wire', receive lowering reading wire = .ok (some message.received, wire') ∧ wire'.Valid ∧ wire'.stream = rest := by
  cases message with
  | request req =>
    cases reading with
    | request =>
      obtain ⟨wire', run, moved⟩ := readRequest_written formed valid stream
      refine ⟨wire', ?_, moved.valid, moved.stream⟩
      rw [receive, run_bind run]
      rfl
    | response maxima => cases fits
  | response resp =>
    cases reading with
    | request => cases fits
    | response maxima =>
      obtain ⟨wire₁, run, moved⟩ := streamResponse_written formed valid stream
      have owes : Owes (BodyReader.new (.length resp.body.length)) wire₁.stream resp.body rest := .counted moved.stream rfl
      obtain ⟨outs, reader', wire', leads, same, done, last, valid'⟩ := owes.delivered moved.valid nofun (.inr fits)
      refine ⟨wire', ?_, valid', last⟩
      rw [receive, run_bind run]
      dsimp only
      rw [run_bind leads]
      dsimp only
      rw [same]
      rfl

theorem receive_all {exchange : List (Message × Reading)}
    (formed : ∀ entry ∈ exchange, entry.1.Formed lowering ∧ entry.1.Fits entry.2) (valid : wire.Valid)
    (stream : wire.stream = exchange.flatMap (fun entry => entry.1.bytes) ++ rest) :
    ∃ wire', exchange.mapM (fun entry => receive lowering entry.2) wire =
      .ok (exchange.map fun entry => some entry.1.received, wire') ∧ wire'.stream = rest := by
  induction exchange generalizing wire with
  | nil => exact ⟨wire, rfl, stream⟩
  | cons entry exchange ih =>
    rw [List.flatMap_cons, List.append_assoc] at stream
    obtain ⟨isFormed, fits⟩ := formed entry List.mem_cons_self
    obtain ⟨wire₁, run, valid₁, stream₁⟩ := receive_written isFormed fits valid stream
    obtain ⟨wire', run', last⟩ := ih (fun entry member => formed entry (List.mem_cons_of_mem _ member)) valid₁ stream₁
    refine ⟨wire', ?_, last⟩
    rw [List.mapM_cons, run_bind run, run_bind run']
    rfl

/-- Messages that are written back to back are read back in order, each with its content length, in whatever pieces the bytes
arrive, and what comes behind them stays on the wire. -/
theorem messages_survive_the_wire (exchange : List (Message × Reading)) (rest : Bytes) (chunks : List Bytes)
    (formed : ∀ entry ∈ exchange, entry.1.Formed lowering ∧ entry.1.Fits entry.2) (nonempty : ∀ chunk ∈ chunks, chunk ≠ [])
    (sent : chunks.flatten = exchange.flatMap (fun entry => entry.1.bytes) ++ rest) :
    ∃ wire', exchange.mapM (fun entry => receive lowering entry.2) (Wire.new (chunks.map .ok)) =
      .ok (exchange.map fun entry => some entry.1.received, wire') ∧ wire'.stream = rest :=
  receive_all formed (Nat.zero_le _) ((arriving_chunks nonempty).1.trans sent)

/-- A request with a header and a body, sent twice. -/
def greeting : Request := ⟨"POST".toList, "/".toList, [("host".toList, "thera".toList)], [104, 105]⟩

theorem greeting_formed : RequestFormed asciiLowering greeting where
  method := ⟨by decide, by decide, by decide⟩
  url := ⟨by decide, by decide, by decide⟩
  headers := by
    refine ⟨by decide, fun field member => ?_, by decide, by decide⟩
    obtain rfl := List.mem_singleton.mp member
    exact ⟨by decide, by decide, by decide, ⟨by decide, by decide⟩, by decide, by decide⟩
  body := by decide

theorem greetings_survive_the_wire :
    ∃ wire', [(Message.request greeting, Reading.request), (.request greeting, .request)].mapM
        (fun entry => receive asciiLowering entry.2) (Wire.new ([writeRequest greeting, writeRequest greeting].map .ok)) =
      .ok ([(Message.request greeting, Reading.request), (.request greeting, .request)].map fun entry => some entry.1.received, wire') ∧
      wire'.stream = [] := by
  apply messages_survive_the_wire
  · intro entry member
    have same : entry = (Message.request greeting, Reading.request) := by simpa using member
    rw [same]
    exact ⟨greeting_formed, trivial⟩
  · intro chunk member
    have same : chunk = writeRequest greeting := by simpa using member
    rw [same]
    decide +kernel
  · rw [List.append_nil]
    rfl

end Thera.Sdk.Http
