import Thera.ToMathlib.OrderedAssoc
import Thera.Model.Sdk.Scan
import Thera.Model.Sdk.Text

/-! # HTTP/1.1 messages

The codec of `std.http.common`: how messages are written, and how they are read from a stream that arrives in pieces.
A wire buffers what it has read; bytes that one message leaves stay for the next.
-/

namespace Thera.Sdk.Http

/-! ## Strings -/

/-- White space of Unicode. -/
def isWhite (c : Char) : Bool :=
  let cp := c.toNat
  (9 ≤ cp && cp ≤ 13) || cp = 32 || cp = 0x85 || cp = 0xA0 || cp = 0x1680 || (0x2000 ≤ cp && cp ≤ 0x200A) || cp = 0x2028 ||
    cp = 0x2029 || cp = 0x202F || cp = 0x205F || cp = 0x3000

/-- `s.trim()`. -/
def trim (text : Text) : Text := (text.dropWhile isWhite).rdropWhile isWhite

/-- `s.to_lowercase()`: what it does beyond ASCII is left open. -/
structure Lowering where
  lower : Text → Text
  ascii : ∀ text : Text, (∀ c ∈ text, c.toNat < 128) → lower text = text.map Char.toLower

/-- `digit_value_for`: the value of an ASCII letter or digit, or `-1`. -/
def digitValueFor (cp : ℤ) : ℤ :=
  if cp ≥ 48 ∧ cp ≤ 57 then cp - 48
  else if cp ≥ 97 ∧ cp ≤ 122 then cp - 97 + 10
  else if cp ≥ 65 ∧ cp ≤ 90 then cp - 65 + 10
  else -1

/-- The digits of a number after a value read so far; the arithmetic wraps. -/
def radixLoop (radix : ℤ) (acc : I64) : List ℤ → Option I64
  | [] => some acc
  | cp :: rest =>
      let d := digitValueFor cp
      if d < 0 ∨ d ≥ radix then none else radixLoop radix (wrapI64 (acc.1 * radix + d)) rest

/-- `s.to_int_radix(radix)`. -/
def toIntRadix (radix : ℤ) (text : Text) : Option I64 :=
  match codePoints text with
  | [] => none
  | 45 :: [] => none
  | 45 :: digits => (radixLoop radix ⟨0, zero_inRange⟩ digits).map fun acc => wrapI64 (0 - acc.1)
  | digits => radixLoop radix ⟨0, zero_inRange⟩ digits

/-! ## Messages -/

/-- Headers in the order in which they were first set. -/
abbrev Headers := List (Text × Text)

def sameText (a b : Text) : Bool := decide (a = b)

def Headers.get (headers : Headers) (key : Text) : Option Text := OrderedAssoc.get sameText headers key

def Headers.set (headers : Headers) (key value : Text) : Headers := OrderedAssoc.insert sameText headers key value

structure Request where
  method : Text
  url : Text
  headers : Headers
  body : Bytes

structure Response where
  status : ℤ
  headers : Headers
  body : Bytes

/-- The errors of the codec. -/
inductive HttpError where
  | body (message : String)
  | protocol (message : String)
  deriving DecidableEq

def contentLength : Text := "content-length".toList

def transferEncoding : Text := "transfer-encoding".toList

def setCookie : Text := "set-cookie".toList

section

variable (lowering : Lowering)

/-- Add a value under a name, folding a repeat into the entry that is there. -/
def addHeader (headers : Headers) (name value : Text) : Headers :=
  let key := lowering.lower name
  match headers.get key with
  | some prior => headers.set key (prior ++ (if key = setCookie then ['\n'] else [',', ' ']) ++ value)
  | none => headers.set key value

/-- The value of a name, case-insensitively. -/
def header (headers : Headers) (name : Text) : Option Text := headers.get (lowering.lower name)

end

/-! ## Statuses -/

/-- The phrases that are spelled out. -/
def phrases : List (ℤ × String) :=
  [(200, "OK"), (201, "Created"), (202, "Accepted"), (204, "No Content"), (301, "Moved Permanently"), (302, "Found"),
   (303, "See Other"), (304, "Not Modified"), (307, "Temporary Redirect"), (308, "Permanent Redirect"), (400, "Bad Request"),
   (401, "Unauthorized"), (403, "Forbidden"), (404, "Not Found"), (405, "Method Not Allowed"), (408, "Request Timeout"),
   (409, "Conflict"), (413, "Content Too Large"), (415, "Unsupported Media Type"), (422, "Unprocessable Content"),
   (429, "Too Many Requests"), (500, "Internal Server Error"), (501, "Not Implemented"), (502, "Bad Gateway"),
   (503, "Service Unavailable"), (504, "Gateway Timeout")]

def reasonPhrase (status : ℤ) : Text :=
  match phrases.lookup status with
  | some phrase => phrase.toList
  | none =>
      if status ≥ 100 ∧ status < 200 then "Informational".toList
      else if status ≥ 200 ∧ status < 300 then "Success".toList
      else if status ≥ 300 ∧ status < 400 then "Redirection".toList
      else if status ≥ 400 ∧ status < 500 then "Client Error".toList
      else "Server Error".toList

def statusHasNoBody (status : ℤ) : Bool := (status ≥ 100 && status < 200) || status = 204 || status = 304

/-! ## Writing -/

def crlf : Text := ['\r', '\n']

/-- `n.to_string()`. -/
def intText (n : ℤ) : Text := if n < 0 then '-' :: decimalDigits n.natAbs else decimalDigits n.natAbs

/-- `key + ': ' + value + CRLF`. -/
def headerLine (key value : Text) : Text := key ++ [':', ' '] ++ value ++ crlf

/-- The lines of one header; repeated cookies are unfolded, and framing headers are dropped. -/
def headerLines (entry : Text × Text) : Text :=
  if entry.1 ≠ contentLength ∧ entry.1 ≠ transferEncoding then
    if entry.1 = setCookie then (entry.2.splitOn '\n').flatMap (headerLine entry.1) else headerLine entry.1 entry.2
  else []

def writeHeaders (headers : Headers) (bodyLen : ℕ) : Text :=
  headers.flatMap headerLines ++ headerLine contentLength (intText bodyLen) ++ crlf

def requestLine (req : Request) : Text := req.method ++ [' '] ++ req.url ++ " HTTP/1.1".toList

def statusLine (resp : Response) : Text := "HTTP/1.1 ".toList ++ intText resp.status ++ [' '] ++ reasonPhrase resp.status

/-- The bytes that `write_request` hands to its writer. -/
def writeRequest (req : Request) : Bytes :=
  bytesOf (requestLine req ++ crlf ++ writeHeaders req.headers req.body.length) ++ req.body

/-- The bytes that `write_response` hands to its writer. -/
def writeResponse (resp : Response) : Bytes :=
  bytesOf (statusLine resp ++ crlf ++ writeHeaders resp.headers resp.body.length) ++ resp.body

/-! ## The wire -/

/-- A buffered reader: the answers that the source will give, and what was read of it; the part before `pos` is consumed.
After its answers a source is at its end. -/
structure Wire where
  source : List (Except String Bytes)
  buf : Bytes
  pos : ℕ
  eof : Bool

/-- Why reading stops. -/
inductive Halt where
  | error (e : HttpError)
  | unfinished
  deriving DecidableEq

abbrev Http := StateT Wire (Except Halt)

def protocol {A : Type} (message : String) : Http A := throw (.error (.protocol message))

def Wire.new (source : List (Except String Bytes)) : Wire := ⟨source, [], 0, false⟩

def Wire.buffered (wire : Wire) : ℕ := wire.buf.length - wire.pos

/-- At least as many bytes as are still to come. -/
def Wire.unread (wire : Wire) : ℕ :=
  wire.buffered + (wire.source.map fun answer => match answer with | .ok chunk => chunk.length | .error _ => 0).sum

/-- Pull one more chunk onto the end of the buffer, dropping what was consumed. -/
def fill : Http Bool := do
  let wire ← get
  if wire.eof then return false
  else match wire.source with
    | [] =>
        set { wire with eof := true }
        return false
    | .error message :: _ => throw (.error (.body message))
    | .ok [] :: rest =>
        set { wire with source := rest, eof := true }
        return false
    | .ok chunk :: rest =>
        set { wire with source := rest, buf := wire.buf.drop wire.pos ++ chunk, pos := 0 }
        return true

/-- The line up to the first LF behind what was scanned, without its terminator, and the wire behind it. -/
def lineIn (wire : Wire) (scanned : ℕ) : Option (Bytes × Wire) :=
  match (wire.buf.drop (wire.pos + scanned)).findIdx? (· = 10) with
  | some j =>
      let i := wire.pos + scanned + j
      let stop := if i > wire.pos ∧ wire.buf.getD (i - 1) 0 = 13 then i - 1 else i
      some ((wire.buf.drop wire.pos).take (stop - wire.pos), { wire with pos := i + 1 })
  | none => none

def readLineLoop (scanned : ℕ) : ℕ → Http (Option Text)
  | 0 => throw .unfinished
  | fuel + 1 => do
      let wire ← get
      match lineIn wire scanned with
      | some (raw, wire') =>
          set wire'
          match textOf raw with
          | some text => return some text
          | none => protocol "header line is not valid UTF-8"
      | none =>
          if ← fill then readLineLoop wire.buffered fuel
          else if (← get).buffered = 0 then return none
          else protocol "stream ended mid-line"

/-- The next line, or nothing at a clean end of the stream. -/
def readLine : Http (Option Text) := do readLineLoop 0 ((← get).source.length + 1)

/-- Up to `max` of the bytes that are buffered. -/
def takeHere (max : ℤ) : Http Bytes := do
  let wire ← get
  let n := min wire.buffered max.toNat
  set { wire with pos := wire.pos + n }
  return (wire.buf.drop wire.pos).take n

/-- Up to `max` bytes, pulling one chunk first if nothing is buffered; none at the end of the stream. -/
def takeBuffered (max : ℤ) : Http Bytes := do
  if max ≤ 0 then return []
  else if (← get).buffered = 0 then
    if ← fill then takeHere max else return []
  else takeHere max

/-! ## Heads -/

section

variable (lowering : Lowering)

/-- A header line, split at its first colon. -/
def parseHeader (headers : Headers) (line : Text) : Http Headers :=
  if line.head? = some ' ' ∨ line.head? = some '\t' then protocol "obsolete line folding in the header block"
  else match line.findIdx? (· = ':') with
    | some i =>
        let name := line.take i
        let value := trim (line.drop (i + 1))
        if name = [] ∨ trim name ≠ name then protocol ("malformed header name: \"" ++ String.ofList name ++ "\"")
        else pure (addHeader lowering headers name value)
    | none => protocol ("header line without a colon: \"" ++ String.ofList line ++ "\"")

def readHeadersLoop (headers : Headers) : ℕ → Http Headers
  | 0 => throw .unfinished
  | fuel + 1 => do
      match ← readLine with
      | none => protocol "stream ended inside the header block"
      | some line =>
          if line = [] then return headers
          else
            let headers ← parseHeader lowering headers line
            readHeadersLoop headers fuel

/-- The header block, up to the blank line that ends it. -/
def readHeaders : Http Headers := do readHeadersLoop lowering [] ((← get).unread + 1)

/-- The HTTP/1.x versions that can be framed. -/
def checkVersion (token : Text) : Http Unit :=
  if token = "HTTP/1.1".toList ∨ token = "HTTP/1.0".toList then pure ()
  else protocol ("unsupported HTTP version: \"" ++ String.ofList token ++ "\"")

/-! ## Bodies -/

inductive Framing where
  | empty
  | length (n : ℕ)
  | chunked
  | toEof
  deriving DecidableEq

def framingOf (headers : Headers) (untilEof : Bool) : Http Framing :=
  match header lowering headers transferEncoding, header lowering headers contentLength with
  | some _, some _ => protocol "both transfer-encoding and content-length are present"
  | some encoding, none =>
      if trim (lowering.lower encoding) ≠ "chunked".toList then
        protocol ("unsupported transfer-encoding: \"" ++ String.ofList encoding ++ "\"")
      else pure .chunked
  | none, some raw =>
      match toInt (codePoints (trim raw)) with
      | none => protocol ("malformed content-length: \"" ++ String.ofList raw ++ "\"")
      | some n =>
          if n.1 < 0 then protocol ("negative content-length: \"" ++ String.ofList raw ++ "\"")
          else pure (.length n.1.toNat)
  | none, none => if untilEof then pure .toEof else pure .empty

end

/-- A body that has not been read yet; `remaining` bytes are left of the current frame. -/
structure BodyReader where
  framing : Framing
  remaining : ℕ
  done : Bool

def BodyReader.new (framing : Framing) : BodyReader :=
  { framing := framing
    remaining := match framing with
      | .length n => n
      | _ => 0
    done := match framing with
      | .empty => true
      | _ => false }

def truncated {A : Type} (left : ℕ) (what : String) : Http A :=
  throw (.error (.body ("stream ended with " ++ String.ofList (intText left) ++ " bytes of " ++ what ++ " left")))

/-- A body of declared length. -/
def readCounted (reader : BodyReader) (max : ℤ) : Http (Bytes × BodyReader) := do
  if reader.remaining = 0 then return ([], { reader with done := true })
  else
    let got ← takeBuffered (min reader.remaining max)
    if got = [] then truncated reader.remaining "the body"
    else
      let left := reader.remaining - got.length
      return (got, { reader with remaining := left, done := reader.done || left = 0 })

/-- The trailer block, up to the blank line that ends the message. -/
def trailerLoop : ℕ → Http Unit
  | 0 => throw .unfinished
  | fuel + 1 => do
      match ← readLine with
      | none => protocol "stream ended inside the trailer block"
      | some line => if line = [] then return () else trailerLoop fuel

/-- The field of a chunk-size line: what stands before the extensions, trimmed. -/
def sizeField (line : Text) : Text :=
  trim (match line.findIdx? (· = ';') with
    | some i => line.take i
    | none => line)

/-- Read the next chunk-size line; a chunk of size zero ends the body. -/
def nextChunk (reader : BodyReader) : Http (Bool × BodyReader) := do
  match ← readLine with
  | none => protocol "stream ended inside a chunked body"
  | some line =>
      match toIntRadix 16 (sizeField line) with
      | none => protocol ("malformed chunk size: \"" ++ String.ofList line ++ "\"")
      | some size =>
          if size.1 < 0 then protocol ("negative chunk size: \"" ++ String.ofList line ++ "\"")
          else if size.1 > 0 then return (true, { reader with remaining := size.1.toNat })
          else
            trailerLoop ((← get).unread + 1)
            return (false, { reader with done := true })

/-- The rest of a chunk, up to `max` bytes, and its terminator if it is at its end. -/
def chunkData (reader : BodyReader) (max : ℤ) : Http (Bytes × BodyReader) := do
  let got ← takeBuffered (min reader.remaining max)
  if got = [] then truncated reader.remaining "a chunk"
  else
    let left := reader.remaining - got.length
    if left = 0 then
      match ← readLine with
      | none => protocol "stream ended after a chunk"
      | some line =>
          if line ≠ [] then protocol "chunk not terminated by CRLF"
          else return (got, { reader with remaining := left })
    else return (got, { reader with remaining := left })

/-- A chunked body, one frame at a time. -/
def readChunked (reader : BodyReader) (max : ℤ) : Http (Bytes × BodyReader) := do
  if reader.remaining = 0 then
    let (more, reader) ← nextChunk reader
    if more then chunkData reader max else return ([], reader)
  else chunkData reader max

/-- Up to `max` more bytes; none if the body is complete. -/
def readSome (reader : BodyReader) (max : ℤ) : Http (Bytes × BodyReader) := do
  if reader.done = true ∨ max ≤ 0 then return ([], reader)
  else match reader.framing with
    | .empty => return ([], reader)
    | .length _ => readCounted reader max
    | .chunked => readChunked reader max
    | .toEof =>
        let got ← takeBuffered max
        return (got, { reader with done := got = [] })

def maxBodyBytes : ℕ := 33554432

def drainChunk : ℤ := 65536

def tooLarge {A : Type} : Http A :=
  throw (.error (.body ("body exceeds the " ++ String.ofList (intText maxBodyBytes) ++ "-byte limit")))

def bufferedLoop (reader : BodyReader) (acc : Bytes) : ℕ → Http Bytes
  | 0 => throw .unfinished
  | fuel + 1 => do
      -- The sum wraps for a frame of almost 2^63 bytes; the second check still holds then.
      if (wrapI64 (acc.length + reader.remaining)).1 > maxBodyBytes then tooLarge
      else
        let (got, reader) ← readSome reader drainChunk
        if got = [] then return acc
        else if acc.length + got.length > maxBodyBytes then tooLarge
        else bufferedLoop reader (acc ++ got) fuel

/-- Everything left of a body, up to a limit. -/
def buffered (reader : BodyReader) : Http Bytes := do bufferedLoop reader [] ((← get).unread + 2)

/-! ## Messages from the wire -/

/-- A response whose body has not been read. -/
structure ResponseStream where
  status : ℤ
  headers : Headers
  body : BodyReader

section

variable (lowering : Lowering)

def malformedRequest {A : Type} (line : Text) : Http A := protocol ("malformed request line: \"" ++ String.ofList line ++ "\"")

/-- The next request, or nothing at a clean end of the stream. -/
def readRequest : Http (Option Request) := do
  match ← readLine with
  | none => return none
  | some line =>
      match line.splitOn ' ' with
      | [method, url, version] =>
          checkVersion version
          if method = [] ∨ url = [] then malformedRequest line
          else
            let headers ← readHeaders lowering
            let framing ← framingOf lowering headers false
            let body ← buffered (BodyReader.new framing)
            return some ⟨method, url, headers, body⟩
      | _ => malformedRequest line

/-- The next response, its body left on the wire. -/
def streamResponse (toHead : Bool) : Http ResponseStream := do
  match ← readLine with
  | none => protocol "no response (the connection closed first)"
  | some line =>
      match line.splitOn ' ' with
      | version :: code :: _ =>
          checkVersion version
          match toInt (codePoints code) with
          | none => protocol ("malformed status code: \"" ++ String.ofList line ++ "\"")
          | some status =>
              if status.1 < 100 ∨ status.1 > 599 then protocol ("status out of range: \"" ++ String.ofList line ++ "\"")
              else
                let headers ← readHeaders lowering
                let framing ← if toHead || statusHasNoBody status.1 then pure Framing.empty else framingOf lowering headers true
                return ⟨status.1, headers, BodyReader.new framing⟩
      | _ => protocol ("malformed status line: \"" ++ String.ofList line ++ "\"")

end

end Thera.Sdk.Http
