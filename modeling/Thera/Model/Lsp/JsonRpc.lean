import Thera.Model.Sdk.Http

/-! # JSON-RPC framing

The transport of the language server: messages framed by a `Content-Length` header, read from a stream that arrives in chunks.
-/

namespace Thera.Lsp

open Sdk

/-! ## Bytes and lines -/

/-- `b.slice(start, end)` with both ends clamped to the buffer. -/
def sliceBytes (b : Bytes) (start stop : ℤ) : Bytes := (b.take stop.toNat).drop start.toNat

def byteAt (buf : Bytes) (i : ℕ) : ℤ :=
  match buf[i]? with
  | some b => b.toNat
  | none => -1

def bytesToString (b : Bytes) : Text := (textOf b).getD []

/-- `s.lines()`: a newline at the end starts no line of its own. -/
def lines (s : Text) : List Text :=
  if s = [] then [] else (if s.getLast? = some '\n' then s.dropLast else s).splitOn '\n'

/-! ## Headers -/

/-- A CRLF CRLF stands at `i`. -/
def endsHeader (buf : Bytes) (i : ℕ) : Bool :=
  byteAt buf i = 13 && byteAt buf (i + 1) = 10 && byteAt buf (i + 2) = 13 && byteAt buf (i + 3) = 10

/-- Where the body starts, behind the first CRLF CRLF. -/
def findHeaderEnd (buf : Bytes) : Option ℕ := ((List.range (buf.length - 3)).find? (endsHeader buf)).map (· + 4)

section

variable (lowering : Http.Lowering)

/-- The length in the first line that is named `Content-Length`. -/
def lengthInLines : List Text → Option I64
  | [] => none
  | line :: rest =>
      match line.splitOn ':' with
      | name :: value :: _ =>
          if lowering.lower (Http.trim name) = Http.contentLength then
            match toInt (codePoints (Http.trim value)) with
            | some n => if n.1 ≥ 0 then some n else none
            | none => none
          else lengthInLines rest
      | _ => lengthInLines rest

def parseContentLength (header : Text) : Option I64 := lengthInLines lowering (lines header)

/-! ## Messages -/

/-- A message that was complete, and the bytes behind it and behind the header blocks that were dropped. -/
structure Extraction where
  body : Option Text
  rest : Bytes

def extractLoop : ℕ → Bytes → Extraction
  | 0, b => ⟨none, b⟩
  | fuel + 1, b =>
      match findHeaderEnd b with
      | none => ⟨none, b⟩
      | some bodyStart =>
          match parseContentLength lowering (bytesToString (sliceBytes b 0 bodyStart)) with
          | none => extractLoop fuel (sliceBytes b bodyStart b.length)
          | some len =>
              let bodyEnd := (wrapI64 (bodyStart + len.1)).1
              if b.length < bodyEnd then ⟨none, b⟩
              else ⟨some (bytesToString (sliceBytes b bodyStart bodyEnd)), sliceBytes b bodyEnd b.length⟩

/-- One message off the front of a buffer. A header block is not empty, so there are fewer of them than bytes. -/
def extractMessage (buf : Bytes) : Extraction := extractLoop lowering buf.length buf

/-- A buffer of bytes behind the last message, and the chunks that its reader will return. -/
structure Connection where
  pending : Bytes
  source : List (Except String Bytes)

/-- An empty chunk is the end of the input; a failed read ends it too. -/
def readLoop : Bytes → List (Except String Bytes) → Option Text × Connection
  | pending, source =>
      let ex := extractMessage lowering pending
      match ex.body with
      | some body => (some body, ⟨ex.rest, source⟩)
      | none =>
          match source with
          | [] => (none, ⟨ex.rest, []⟩)
          | .error _ :: source => (none, ⟨ex.rest, source⟩)
          | .ok chunk :: source =>
              if chunk.length = 0 then (none, ⟨ex.rest, source⟩) else readLoop (ex.rest ++ chunk) source

def readMessage (conn : Connection) : Option Text × Connection := readLoop lowering conn.pending conn.source

/-- The message that is already in the buffer. -/
def tryMessage (conn : Connection) : Option Text × Connection :=
  let ex := extractMessage lowering conn.pending
  (ex.body, ⟨ex.rest, conn.source⟩)

end

def frame (body : Text) : Text :=
  "Content-Length: ".toList ++ Http.intText (bytesOf body).length ++ ['\r', '\n', '\r', '\n'] ++ body

end Thera.Lsp
