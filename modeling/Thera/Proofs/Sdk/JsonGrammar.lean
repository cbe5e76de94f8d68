import Thera.Proofs.Sdk.Scan
import Thera.Model.Sdk.Json

/-! # The grammar of JSON

The grammar of RFC 8259 as a type of derivations: a derivation has a text, by concatenation, and a meaning. A
derivation exists for every text of the grammar, also where a string holds half a surrogate pair; whether its
escapes pair up is a separate question.
-/

namespace Thera.Sdk.Grammar

/-! ## Tokens -/

/-- Space, tab, line feed and carriage return. -/
abbrev Ws := {w : List Char // ∀ c ∈ w, isWhitespace (codePoint c) = true}

/-- One digit or more. -/
abbrev Digits := {ds : List Char // ds ≠ [] ∧ ∀ c ∈ ds, isDigit (codePoint c) = true}

/-- `int = zero / ( digit1-9 *DIGIT )`. -/
abbrev IntegerDigits := {ds : Digits // ds.1.head? = some '0' → ds.1 = ['0']}

structure Exponent where
  letter : {c : Char // c = 'e' ∨ c = 'E'}
  sign : Option {c : Char // c = '+' ∨ c = '-'}
  digits : Digits

structure Number where
  minus : Bool
  integer : IntegerDigits
  fraction : Option Digits
  exponent : Option Exponent

def Exponent.text (e : Exponent) : List Char := e.letter.1 :: ((e.sign.map Subtype.val).toList ++ e.digits.1)

def Number.signText (n : Number) : List Char := if n.minus then ['-'] else []

def fractionText : Option Digits → List Char
  | some ds => '.' :: ds.1
  | none => []

def exponentText : Option Exponent → List Char
  | some e => e.text
  | none => []

def Number.text (n : Number) : List Char :=
  n.signText ++ (n.integer.1.1 ++ (fractionText n.fraction ++ exponentText n.exponent))

/-- The value of decimal digits. -/
def decimal (ds : List Char) : ℕ := ds.foldl (fun n c => n * 10 + (c.toNat - 48)) 0

/-- An integer that fits 64 bits is kept exactly; any other number becomes a double. -/
def Number.value {D : Type} (round : List ℤ → D) (n : Number) : Json D :=
  let magnitude : ℤ := decimal n.integer.1.1
  match if n.fraction.isNone ∧ n.exponent.isNone then toI64 (if n.minus then -magnitude else magnitude) else none with
  | some i => .int i
  | none => .double (round (codePoints n.text))

/-- The escapes of one letter. -/
inductive Escape where
  | quote
  | backslash
  | slash
  | backspace
  | formFeed
  | lineFeed
  | carriageReturn
  | tab

def Escape.letter : Escape → Char
  | quote => '"'
  | backslash => '\\'
  | slash => '/'
  | backspace => 'b'
  | formFeed => 'f'
  | lineFeed => 'n'
  | carriageReturn => 'r'
  | tab => 't'

def Escape.meaning : Escape → Char
  | quote => '"'
  | backslash => '\\'
  | slash => '/'
  | backspace => Char.ofNat 8
  | formFeed => Char.ofNat 12
  | lineFeed => '\n'
  | carriageReturn => '\r'
  | tab => '\t'

abbrev HexDigit := {c : Char // 0 ≤ hexValue (codePoint c)}

/-- `char`: unescaped, an escape of one letter, or four hexadecimal digits. -/
inductive Item where
  | unescaped (c : {c : Char // 32 ≤ c.toNat ∧ c ≠ '"' ∧ c ≠ '\\'})
  | escape (e : Escape)
  | unicode (a b c d : HexDigit)

def Item.text : Item → List Char
  | unescaped c => [c.1]
  | escape e => ['\\', e.letter]
  | unicode a b c d => ['\\', 'u', a.1, b.1, c.1, d.1]

/-- The code unit an item stands for. -/
def Item.unit : Item → ℤ
  | unescaped c => codePoint c.1
  | escape e => codePoint e.meaning
  | unicode a b c d =>
      ((hexValue (codePoint a.1) * 16 + hexValue (codePoint b.1)) * 16 + hexValue (codePoint c.1)) * 16 + hexValue (codePoint d.1)

/-- Is the item a unicode escape for a high surrogate? -/
def Item.isHigh : Item → Bool
  | unicode a b c d => 55296 ≤ (unicode a b c d).unit ∧ (unicode a b c d).unit ≤ 56319
  | _ => false

/-- Is the item a unicode escape for a low surrogate? -/
def Item.isLow : Item → Bool
  | unicode a b c d => 56320 ≤ (unicode a b c d).unit ∧ (unicode a b c d).unit ≤ 57343
  | _ => false

/-- Every escape for a surrogate is part of a pair, high before low. -/
def paired : List Item → Bool
  | [] => true
  | [i] => !i.isHigh && !i.isLow
  | i :: j :: rest => if i.isHigh then j.isLow && paired rest else !i.isLow && paired (j :: rest)

/-- The scalar value a surrogate pair stands for. -/
def pairValue (high low : Item) : ℤ := 65536 + (high.unit - 55296) * 1024 + (low.unit - 56320)

/-- The code points of a string. -/
def decode : List Item → List ℤ
  | [] => []
  | [i] => [i.unit]
  | i :: j :: rest => if i.isHigh then pairValue i j :: decode rest else i.unit :: decode (j :: rest)

def stringText (items : List Item) : List Char := '"' :: (items.flatMap Item.text ++ ['"'])

def stringValue (items : List Item) : String := fromChars (decode items)

/-! ## Values -/

mutual

inductive Value where
  | null
  | bool (b : Bool)
  | number (n : Number)
  | string (items : List Item)
  | emptyArray (ws : Ws)
  | array (elements : Elements)
  | emptyObject (ws : Ws)
  | object (members : Members)

inductive Elements where
  | last (before : Ws) (value : Value) (after : Ws)
  | more (before : Ws) (value : Value) (after : Ws) (rest : Elements)

inductive Members where
  | last (before : Ws) (key : List Item) (afterKey beforeValue : Ws) (value : Value) (after : Ws)
  | more (before : Ws) (key : List Item) (afterKey beforeValue : Ws) (value : Value) (after : Ws) (rest : Members)

end

mutual

def Value.text : Value → List Char
  | .null => "null".toList
  | .bool b => (displayBool b).toList
  | .number n => n.text
  | .string items => stringText items
  | .emptyArray ws => '[' :: (ws.1 ++ [']'])
  | .array elements => '[' :: (elements.text ++ [']'])
  | .emptyObject ws => '{' :: (ws.1 ++ ['}'])
  | .object members => '{' :: (members.text ++ ['}'])

def Elements.text : Elements → List Char
  | .last before value after => before.1 ++ (value.text ++ after.1)
  | .more before value after rest => before.1 ++ (value.text ++ (after.1 ++ ',' :: rest.text))

def Members.text : Members → List Char
  | .last before key afterKey beforeValue value after =>
      before.1 ++ (stringText key ++ (afterKey.1 ++ ':' :: (beforeValue.1 ++ (value.text ++ after.1))))
  | .more before key afterKey beforeValue value after rest =>
      before.1 ++ (stringText key ++ (afterKey.1 ++ ':' :: (beforeValue.1 ++ (value.text ++ (after.1 ++ ',' :: rest.text)))))

end

section

variable {D : Type} (round : List ℤ → D)

mutual

/-- What a derivation denotes; of equal keys the last wins, at the place of the first. -/
def Value.value : Value → Json D
  | .null => .null
  | .bool b => .bool b
  | .number n => n.value round
  | .string items => .str (stringValue items)
  | .emptyArray _ => .array []
  | .array elements => .array elements.values
  | .emptyObject _ => .object []
  | .object members => .object (OrderedAssoc.lastWins members.fields)

def Elements.values : Elements → List (Json D)
  | .last _ value _ => [value.value]
  | .more _ value _ rest => value.value :: rest.values

def Members.fields : Members → List (String × Json D)
  | .last _ key _ _ value _ => [(stringValue key, value.value)]
  | .more _ key _ _ value _ rest => (stringValue key, value.value) :: rest.fields

end

end

mutual

/-- All surrogate escapes of a derivation pair up. -/
def Value.Paired : Value → Prop
  | .null => True
  | .bool _ => True
  | .number _ => True
  | .string items => paired items = true
  | .emptyArray _ => True
  | .array elements => elements.Paired
  | .emptyObject _ => True
  | .object members => members.Paired

def Elements.Paired : Elements → Prop
  | .last _ value _ => value.Paired
  | .more _ value _ rest => value.Paired ∧ rest.Paired

def Members.Paired : Members → Prop
  | .last _ key _ _ value _ => paired key = true ∧ value.Paired
  | .more _ key _ _ value _ rest => paired key = true ∧ value.Paired ∧ rest.Paired

end

/-- `JSON-text = ws value ws`. -/
structure Document where
  before : Ws
  value : Value
  after : Ws

def Document.text (doc : Document) : List Char := doc.before.1 ++ (doc.value.text ++ doc.after.1)

end Thera.Sdk.Grammar
