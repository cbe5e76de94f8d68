import Thera.ToMathlib.Framing

/-! # Byte-level primitives of the wire format

`Writer` appends to a growing buffer, so a write is modelled by the bytes it appends. `Reader`
tracks a position in a slice; nothing looks behind that position, so its state is the unread rest.
Both varint loops run at most ten times on a 64-bit value: the writers carry that count as fuel.
-/

namespace Thera.Bytecode

/-- An `f64`, identified with its bit pattern. -/
structure F64 where
  bits : UInt64
deriving DecidableEq, Repr

/-- The faults of a decoder, as the runtime reports them. -/
inductive DecodeError where
  | unexpectedEof
  | varintOverflow
  | invalidUtf8
  | badMagic
  | unsupportedVersion (version : UInt32)
  | unknownOpcode (opcode : UInt8)
  | constIndexOutOfRange
  | unknownNative (name : String)
deriving DecidableEq, Repr

abbrev Reader := Framing.Reader UInt8 DecodeError

/-! ## Writing -/

def writeU8 (v : UInt8) : List UInt8 := [v]

def writeU32Le (v : UInt32) : List UInt8 :=
  [v.toUInt8, (v >>> 8).toUInt8, (v >>> 16).toUInt8, (v >>> 24).toUInt8]

def writeF64 (v : F64) : List UInt8 :=
  [v.bits.toUInt8, (v.bits >>> 8).toUInt8, (v.bits >>> 16).toUInt8, (v.bits >>> 24).toUInt8,
    (v.bits >>> 32).toUInt8, (v.bits >>> 40).toUInt8, (v.bits >>> 48).toUInt8, (v.bits >>> 56).toUInt8]

/-- The unsigned LEB128 loop, cut off after `fuel` further bytes. -/
def uvarintBytes : ℕ → UInt64 → List UInt8
  | 0, v => [(v &&& 0x7f).toUInt8]
  | fuel + 1, v =>
      let byte := (v &&& 0x7f).toUInt8
      if v >>> 7 ≠ 0 then (byte ||| 0x80) :: uvarintBytes fuel (v >>> 7) else [byte]

def writeUvarint (v : UInt64) : List UInt8 := uvarintBytes 9 v

/-- The signed LEB128 loop, cut off after `fuel` further bytes. -/
def ivarintBytes : ℕ → Int64 → List UInt8
  | 0, v => [(v &&& 0x7f).toUInt64.toUInt8]
  | fuel + 1, v =>
      let byte := (v &&& 0x7f).toUInt64.toUInt8
      let sign := byte &&& 0x40 ≠ 0
      if (v >>> 7 = 0 ∧ ¬ sign) ∨ (v >>> 7 = -1 ∧ sign) then [byte]
      else (byte ||| 0x80) :: ivarintBytes fuel (v >>> 7)

def writeIvarint (v : Int64) : List UInt8 := ivarintBytes 9 v

def writeBytes (data : List UInt8) : List UInt8 := writeUvarint (.ofNat data.length) ++ data

def writeStr (s : String) : List UInt8 := writeBytes s.toByteArray.data.toList

/-! ## Reading -/

/-- Take exactly `n` bytes. -/
def take (n : ℕ) : Reader (List UInt8) := fun bytes =>
  if n ≤ bytes.length then .ok (bytes.take n, bytes.drop n) else .error .unexpectedEof

def readU8 : Reader UInt8
  | [] => .error .unexpectedEof
  | byte :: rest => .ok (byte, rest)

def readU32Le : Reader UInt32 := do
  match ← take 4 with
  | [b0, b1, b2, b3] =>
      return b0.toUInt32 ||| (b1.toUInt32 <<< 8) ||| (b2.toUInt32 <<< 16) ||| (b3.toUInt32 <<< 24)
  | _ => throw .unexpectedEof

def readF64 : Reader F64 := do
  match ← take 8 with
  | [b0, b1, b2, b3, b4, b5, b6, b7] =>
      return ⟨b0.toUInt64 ||| (b1.toUInt64 <<< 8) ||| (b2.toUInt64 <<< 16) ||| (b3.toUInt64 <<< 24) |||
        (b4.toUInt64 <<< 32) ||| (b5.toUInt64 <<< 40) ||| (b6.toUInt64 <<< 48) ||| (b7.toUInt64 <<< 56)⟩
  | _ => throw .unexpectedEof

def readUvarintFrom (result : UInt64) (shift : ℕ) : Reader UInt64
  | [] => .error .unexpectedEof
  | byte :: rest =>
      if 64 ≤ shift then .error .varintOverflow
      else
        let result := result ||| ((byte &&& 0x7f).toUInt64 <<< UInt64.ofNat shift)
        if byte &&& 0x80 = 0 then .ok (result, rest) else readUvarintFrom result (shift + 7) rest

def readUvarint : Reader UInt64 := readUvarintFrom 0 0

def readIvarintFrom (result : Int64) (shift : ℕ) : Reader Int64
  | [] => .error .unexpectedEof
  | byte :: rest =>
      if 64 ≤ shift then .error .varintOverflow
      else
        let result := result ||| ((byte &&& 0x7f).toUInt64.toInt64 <<< Int64.ofNat shift)
        if byte &&& 0x80 = 0 then
          -- sign-extend if the value's sign bit is set and there is room
          if shift + 7 < 64 ∧ byte &&& 0x40 ≠ 0 then .ok (result ||| ((-1) <<< Int64.ofNat (shift + 7)), rest)
          else .ok (result, rest)
        else readIvarintFrom result (shift + 7) rest

def readIvarint : Reader Int64 := readIvarintFrom 0 0

def readBytes : Reader (List UInt8) := do take (← readUvarint).toNat

def fromUtf8 (bytes : List UInt8) : Reader String :=
  match String.fromUTF8? ⟨bytes.toArray⟩ with
  | some s => pure s
  | none => throw .invalidUtf8

def readStr : Reader String := do fromUtf8 (← readBytes)

end Thera.Bytecode
