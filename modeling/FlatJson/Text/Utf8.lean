import FlatJson.Byte

/-!
# UTF-8

A byte string is cut into segments: characters written in UTF-8, and runs of bytes that are not.
A run that is not UTF-8 is as long as it could still have become a character (a maximal
subpart), so that a cut-off character is one run and the byte after it is read afresh.

* `Segment`, `segments` — the cut.  All other readings of bytes as text go through it.
* `isValid`, `validLength`, `chars?` — strict reading.
* `replaceInvalid` — every run that is not UTF-8 replaced by U+FFFD.
* `encode` — a text as bytes.
-/

namespace FlatJson.Utf8

/-- One piece of a byte string read as UTF-8. -/
inductive Segment where
  /-- A character and its encoding. -/
  | scalar (c : Char)
  /-- Bytes that begin no character, or that break off inside one. -/
  | invalid (bytes : Bytes)
  deriving DecidableEq, Repr

/-- The UTF-8 bytes of a text. -/
def encode (text : List Char) : Bytes :=
  text.flatMap String.utf8EncodeChar

/-- The replacement character U+FFFD. -/
def replacement : Char := Char.ofNat 0xFFFD

/-- The bytes that a segment was read from. -/
def Segment.bytes : Segment → Bytes
  | .scalar c => String.utf8EncodeChar c
  | .invalid bytes => bytes

/-- A character whose first bytes have been read. -/
structure Partial where
  /-- The bytes read so far, the latest first. -/
  read : Bytes
  /-- The bits read so far. -/
  code : Nat
  /-- How many bytes are missing; at least one. -/
  missing : Nat
  /-- The next byte is at least this. -/
  lower : UInt8
  /-- The next byte is at most this. -/
  upper : UInt8
  deriving DecidableEq, Repr

/-- What the first byte of a character announces: a whole character, a longer one, or nothing.
The bounds of the second byte rule out overlong forms, surrogates and codes past U+10FFFF. -/
def lead (b : UInt8) : Segment ⊕ Partial :=
  if b < 0x80 then .inl (.scalar (Char.ofNat b.toNat))
  else if b < 0xC2 then .inl (.invalid [b])
  else if b < 0xE0 then .inr ⟨[b], b.toNat - 0xC0, 1, 0x80, 0xBF⟩
  else if b < 0xF0 then
    .inr ⟨[b], b.toNat - 0xE0, 2, if b = 0xE0 then 0xA0 else 0x80, if b = 0xED then 0x9F else 0xBF⟩
  else if b < 0xF5 then
    .inr ⟨[b], b.toNat - 0xF0, 3, if b = 0xF0 then 0x90 else 0x80, if b = 0xF4 then 0x8F else 0xBF⟩
  else .inl (.invalid [b])

/-- Adds a byte within the bounds to a character. -/
def Partial.add (p : Partial) (b : UInt8) : Segment ⊕ Partial :=
  let code := p.code * 64 + (b.toNat - 0x80)
  if p.missing ≤ 1 then .inl (.scalar (Char.ofNat code))
  else .inr ⟨b :: p.read, code, p.missing - 1, 0x80, 0xBF⟩

/-- The state of the reader: the segments so far, the latest first, and an unfinished character. -/
structure Reader where
  found : List Segment := []
  unfinished : Option Partial := none

/-- Takes what one byte led to. -/
def Reader.take (found : List Segment) : Segment ⊕ Partial → Reader
  | .inl s => ⟨s :: found, none⟩
  | .inr p => ⟨found, some p⟩

def Reader.feed (r : Reader) (b : UInt8) : Reader :=
  match r.unfinished with
  | none => take r.found (lead b)
  | some p =>
    if p.lower ≤ b ∧ b ≤ p.upper then take r.found (p.add b)
    else take (.invalid p.read.reverse :: r.found) (lead b)

/-- The segments, in order, once the bytes have ended. -/
def Reader.finish (r : Reader) : List Segment :=
  match r.unfinished with
  | none => r.found.reverse
  | some p => (.invalid p.read.reverse :: r.found).reverse

/-- The cut of a byte string into characters and runs that are not UTF-8. -/
def segments (bytes : Bytes) : List Segment :=
  (bytes.foldl Reader.feed {}).finish

/-- The characters before the first run that is not UTF-8. -/
def leadingChars : List Segment → List Char
  | .scalar c :: rest => c :: leadingChars rest
  | _ => []

def Segment.isScalar : Segment → Bool
  | .scalar _ => true
  | .invalid _ => false

/-- Whether the whole byte string is UTF-8. -/
def isValid (bytes : Bytes) : Bool :=
  (segments bytes).all Segment.isScalar

/-- The length of the longest prefix that is UTF-8. -/
def validLength (bytes : Bytes) : Nat :=
  ((segments bytes).takeWhile Segment.isScalar).foldl (fun n s => n + s.bytes.length) 0

/-- The characters of a segment, with U+FFFD for one that is not UTF-8. -/
def Segment.char : Segment → Char
  | .scalar c => c
  | .invalid _ => replacement

/-- The text of a byte string that is UTF-8. -/
def chars? (bytes : Bytes) : Option (List Char) :=
  let cut := segments bytes
  if cut.all Segment.isScalar then some (cut.map Segment.char) else none

/-- The text of a byte string, each run that is not UTF-8 read as one U+FFFD. -/
def lossyChars (bytes : Bytes) : List Char :=
  (segments bytes).map Segment.char

/-- The byte string with each run that is not UTF-8 replaced by U+FFFD.  This is the documented
behaviour of the byte-string library `bstr`, which is assumed here: one U+FFFD for each maximal
subpart. -/
def replaceInvalid (bytes : Bytes) : Bytes :=
  encode (lossyChars bytes)

/-- The first character, read as U+FFFD if the bytes do not begin with one.
A character takes at most four bytes.  As with `replaceInvalid`, this is what `bstr` documents. -/
def firstChar (bytes : Bytes) : Char :=
  match segments (bytes.take 4) with
  | [] => replacement
  | s :: _ => s.char

end FlatJson.Utf8
