import FlatJson.Byte

/-!
# Integers of a fixed width

* `IntegerFormat` — a signed or unsigned range of so many bits.
* `IntegerFormat.read` — the number that a text denotes, if it is in the range; the first
  offence from the left decides what is wrong with the text.
-/

namespace FlatJson

/-- A range of integers. -/
structure IntegerFormat where
  signed : Bool
  bits : Nat
  deriving DecidableEq, Repr

/-- Why a text is no integer of a range. -/
inductive IntegerError where
  | empty
  | invalidDigit
  | tooLarge
  | tooSmall
  deriving DecidableEq, Repr

def IntegerError.message : IntegerError → String
  | .empty => "cannot parse integer from empty string"
  | .invalidDigit => "invalid digit found in string"
  | .tooLarge => "number too large to fit in target type"
  | .tooSmall => "number too small to fit in target type"

namespace IntegerFormat

def largest (f : IntegerFormat) : Int :=
  (if f.signed then Nat.pow 2 (f.bits - 1) else Nat.pow 2 f.bits : Nat) - 1

def smallest (f : IntegerFormat) : Int :=
  if f.signed then -(Nat.pow 2 (f.bits - 1) : Nat) else 0

/-- Reads digits on from a number; they count downwards in a negative one. -/
def readDigits (f : IntegerFormat) (negative : Bool) (n : Int) : Bytes → Except IntegerError Int
  | [] => .ok n
  | b :: rest =>
    if !Byte.isDigit b then .error .invalidDigit
    else
      let digit : Int := b.toNat - 0x30
      let next := if negative then n * 10 - digit else n * 10 + digit
      if f.largest < next then .error .tooLarge
      else if next < f.smallest then .error .tooSmall
      else f.readDigits negative next rest

/-- Reads a text: digits after a plus sign, or after a minus sign where the range has negative
numbers.  A sign alone is not a digit. -/
def read (f : IntegerFormat) (text : Bytes) : Except IntegerError Int :=
  match text with
  | [] => .error .empty
  | b :: rest =>
    if (b == 0x2B || b == 0x2D) && rest.isEmpty then .error .invalidDigit
    else if b == 0x2B then f.readDigits false 0 rest
    else if b == 0x2D && f.signed then f.readDigits true 0 rest
    else f.readDigits false 0 text

def int32 : IntegerFormat := ⟨true, 32⟩

def int64 : IntegerFormat := ⟨true, 64⟩

def int128 : IntegerFormat := ⟨true, 128⟩

def word8 : IntegerFormat := ⟨false, 8⟩

def word64 : IntegerFormat := ⟨false, 64⟩

end IntegerFormat

end FlatJson
