import FlatJson.Token

/-!
# What may come next

The grammar of JSON over the first bytes of its tokens, for any nesting.

* `Awaiting` — what may come next, and how that is described.
* `NumberPart` — how far a number has got, and what each byte means for it.
* `StringPart` — how far a string has got.
* `Lead` — what a byte is as the first of a token.
-/

namespace FlatJson.Scan

/-- What may come next between two tokens. -/
inductive Awaiting where
  /-- The first value. -/
  | document
  | value
  /-- The first item of an array, or its closing bracket. -/
  | itemOrClose
  /-- The name of a member. -/
  | key
  /-- The name of the first member of an object, or its closing bracket. -/
  | keyOrClose
  | colon
  /-- A comma or the closing bracket. -/
  | commaOrClose
  /-- The end of the text; a value is complete. -/
  | ending
  deriving DecidableEq, Repr

/-- What is awaited in words, given the open containers, the innermost first. -/
def Awaiting.describe (a : Awaiting) (stack : List Container) : String :=
  match a with
  | .document | .value => "a value"
  | .itemOrClose => "a value or ']'"
  | .key => "a string key"
  | .keyOrClose => "a string key or '\x7d'"
  | .colon => "':'"
  | .commaOrClose =>
    match stack with
    | .object :: _ => "',' or '\x7d'"
    | _ => "',' or ']'"
  | .ending => "end of input"

/-- Whether a value may start; after a complete one only if several are allowed. -/
def Awaiting.admitsValue (a : Awaiting) (several : Bool) : Bool :=
  match a with
  | .document | .value | .itemOrClose => true
  | .ending => several
  | _ => false

/-- Whether the name of a member may start. -/
def Awaiting.admitsKey : Awaiting → Bool
  | .key | .keyOrClose => true
  | _ => false

/-- Whether a container may close. -/
def Awaiting.admitsClose : Awaiting → Bool
  | .itemOrClose | .keyOrClose | .commaOrClose => true
  | _ => false

/-! ## Numbers -/

/-- How far a number has got. -/
inductive NumberPart where
  | sign
  | zero
  | whole
  | point
  | fraction
  | exponent
  | exponentSign
  | exponentDigits
  deriving DecidableEq, Repr

/-- What the next byte, or the end of the text, means for a number. -/
inductive Continuation where
  | more (part : NumberPart)
  /-- The number is complete before this byte. -/
  | done
  /-- Something else was needed. -/
  | wrong (expected : String)
  deriving DecidableEq, Repr

def isExponentLetter (b : UInt8) : Bool :=
  b == 0x65 || b == 0x45

/-- A digit is needed next. -/
def needDigit (part : NumberPart) (expected : String) : Option UInt8 → Continuation
  | some b => if Byte.isDigit b then .more part else .wrong expected
  | none => .wrong expected

/-- After the whole digits: a point, an exponent, or the end of the number. -/
def afterWhole : Option UInt8 → Continuation
  | some b =>
    if b == 0x2E then .more .point else if isExponentLetter b then .more .exponent else .done
  | none => .done

/-- What the next byte means for a number that has got this far. -/
def NumberPart.read (part : NumberPart) (next : Option UInt8) : Continuation :=
  match part with
  | .sign => if next = some 0x30 then .more .zero else needDigit .whole "a digit" next
  | .zero =>
    if next.any Byte.isDigit then .wrong "no digits after a leading zero" else afterWhole next
  | .whole => if next.any Byte.isDigit then .more .whole else afterWhole next
  | .point => needDigit .fraction "a digit after the decimal point" next
  | .fraction =>
    if next.any Byte.isDigit then .more .fraction
    else if next.any isExponentLetter then .more .exponent
    else .done
  | .exponent =>
    if next = some 0x2B ∨ next = some 0x2D then .more .exponentSign
    else needDigit .exponentDigits "a digit in the exponent" next
  | .exponentSign => needDigit .exponentDigits "a digit in the exponent" next
  | .exponentDigits => if next.any Byte.isDigit then .more .exponentDigits else .done

/-! ## Strings -/

/-- How far a string has got. -/
inductive StringPart where
  /-- Between two characters. -/
  | body
  /-- After a backslash. -/
  | escape
  /-- Inside the four digits of a numeric escape; so many of them are missing. -/
  | digits (backslash missing : Nat)
  /-- After a control byte, which is reported at the next quote or backslash. -/
  | tainted (byte : UInt8) (offset : Nat)
  deriving DecidableEq, Repr

/-- The letters and marks that form an escape with the backslash alone. -/
def isShortEscape (b : UInt8) : Bool :=
  [0x22, 0x5C, 0x2F, 0x62, 0x66, 0x6E, 0x72, 0x74].contains b

/-! ## First bytes -/

/-- What a byte is as the first one of a token. -/
inductive Lead where
  | blank
  | opening (c : Container)
  | closing (c : Container)
  | comma
  | colon
  | quote
  | number (part : NumberPart)
  | word (w : Keyword)
  /-- No token starts with the byte. -/
  | other
  deriving DecidableEq, Repr

/-- One byte decides what token it starts. -/
def Lead.ofByte (b : UInt8) : Lead :=
  if Byte.isBlank b then .blank
  else if b == 0x7B then .opening .object
  else if b == 0x5B then .opening .array
  else if b == 0x7D then .closing .object
  else if b == 0x5D then .closing .array
  else if b == 0x2C then .comma
  else if b == 0x3A then .colon
  else if b == Byte.quote then .quote
  else if b == 0x2D then .number .sign
  else if b == 0x30 then .number .zero
  else if Byte.isDigit b then .number .whole
  else if b == 0x6E then .word .null
  else if b == 0x74 then .word .yes
  else if b == 0x66 then .word .no
  else .other

end FlatJson.Scan
