import FlatJson.Fault
import FlatJson.Text.Utf16

/-!
# The content of a string

The bytes between the quotes of a string are kept as they stand, escapes included.

* `RawText` — such bytes.
* `RawText.decoded`, `RawText.decode` — the text they denote.
* `RawText.denotes` — whether they denote a given text.
-/

namespace FlatJson

/-- The content of a string, escapes in place. -/
structure RawText where
  bytes : Bytes
  deriving DecidableEq, Repr

/-- The code unit that four hexadecimal digits denote. -/
def unitOfHex (a b c d : UInt8) : Option UInt16 := do
  let a ← Byte.hexValue a
  let b ← Byte.hexValue b
  let c ← Byte.hexValue c
  let d ← Byte.hexValue d
  return ((a.toUInt16 * 16 + b.toUInt16) * 16 + c.toUInt16) * 16 + d.toUInt16

/-- The byte that a backslash and this byte denote. -/
def shortEscape (b : UInt8) : Option UInt8 :=
  if b == 0x22 || b == 0x5C || b == 0x2F then some b
  else if b == 0x62 then some 0x08
  else if b == 0x66 then some 0x0C
  else if b == 0x6E then some 0x0A
  else if b == 0x72 then some 0x0D
  else if b == 0x74 then some 0x09
  else none

namespace RawText

def hasEscapes (s : RawText) : Bool :=
  s.bytes.contains Byte.backslash

/-- The state of the unescaping between two characters. -/
structure Unescaping where
  pos : Nat := 0
  units : Utf16.Pairing := {}
  /-- The position of the escape that the held unit came from. -/
  heldAt : Nat := 0
  /-- The bytes so far, the latest first. -/
  out : Bytes := []

namespace Unescaping

/-- Nothing that completes a pair follows. -/
def settle (u : Unescaping) : Except StringError Unit :=
  match u.units.finish with
  | .ok () => .ok ()
  | .error high => .error (.loneSurrogate high.toNat u.heldAt)

/-- A numeric escape, six bytes long. -/
def unit (u : Unescaping) (unit : UInt16) : Except StringError Unescaping :=
  match u.units.feed unit with
  | .ok (some c, units) =>
    .ok { u with
      pos := u.pos + 6, units := units, out := (String.utf8EncodeChar c).reverse ++ u.out }
  | .ok (none, units) => .ok { u with pos := u.pos + 6, units := units, heldAt := u.pos }
  | .error code =>
    .error (.loneSurrogate code.toNat (if code = unit then u.pos else u.heldAt))

/-- A byte that came from so many bytes. -/
def byte (u : Unescaping) (b : UInt8) (width : Nat) : Unescaping :=
  { u with pos := u.pos + width, out := b :: u.out }

/-- Reads the rest of the content.  An escape that is cut off or has no four digits is reported
before a surrogate that is still held, and any other offence after it. -/
def run (u : Unescaping) : Bytes → Except StringError Bytes
  | [] =>
    match u.settle with
    | .ok () => .ok u.out.reverse
    | .error e => .error e
  | b :: rest =>
    if b = Byte.backslash then
      match rest with
      | [] => .error (.invalidEscape u.pos)
      | letter :: more =>
        if letter = 0x75 then
          match more with
          | h₁ :: h₂ :: h₃ :: h₄ :: later =>
            match unitOfHex h₁ h₂ h₃ h₄ with
            | none => .error (.invalidEscape u.pos)
            | some code =>
              match u.unit code with
              | .ok u => run u later
              | .error e => .error e
          | _ => .error (.invalidEscape u.pos)
        else
          match u.settle, shortEscape letter with
          | .error e, _ => .error e
          | .ok (), none => .error (.invalidEscape u.pos)
          | .ok (), some b => run (u.byte b 2) more
    else
      match u.settle with
      | .ok () => run (u.byte b 1) rest
      | .error e => .error e

end Unescaping

/-- The content with each escape replaced by what it denotes. -/
def unescape (s : RawText) : Except StringError Bytes :=
  Unescaping.run {} s.bytes

/-- Bytes as text, or the place where they stop being UTF-8. -/
def textOf (bytes : Bytes) : Except StringError (List Char) :=
  match Utf8.chars? bytes with
  | some text => .ok text
  | none => .error (.invalidUtf8 (Utf8.validLength bytes))

/-- A text, and whether it is the content as it stands. -/
structure Decoded where
  text : List Char
  borrowed : Bool
  deriving DecidableEq, Repr

/-- What the content denotes.  It must be UTF-8 before its escapes are looked at, and without
escapes it is itself the text. -/
def decoded (s : RawText) : Except StringError Decoded := do
  let text ← textOf s.bytes
  if s.hasEscapes then return ⟨← textOf (← s.unescape), false⟩ else return ⟨text, true⟩

/-- The text that the content denotes. -/
def decode (s : RawText) : Except StringError (List Char) :=
  s.decoded.map Decoded.text

/-- Whether the content denotes the given text.  Without escapes the bytes decide. -/
def denotes (s : RawText) (text : String) : Bool :=
  if s.hasEscapes then
    match s.decode with
    | .ok decoded => decoded == text.toList
    | .error _ => false
  else s.bytes == Utf8.encode text.toList

/-- The content for display, U+FFFD in place of bytes that are not UTF-8, as the byte-string library
`bstr` is assumed to print it. -/
def display (s : RawText) : Bytes :=
  Utf8.replaceInvalid s.bytes

def report (s : RawText) : String :=
  "RawStr(" ++ Text.quotedBytes s.bytes ++ ")"

end RawText

end FlatJson
