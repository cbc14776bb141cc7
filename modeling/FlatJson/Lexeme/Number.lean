import FlatJson.Number.Binary
import FlatJson.Number.Integer
import FlatJson.Text.Utf8

/-!
# The text of a number

A number is kept as it was written and is only converted on request.

* `RawNumber` — the text.
* `RawNumber.isInteger`, `RawNumber.toInt64?`, `RawNumber.toWord64?`, `RawNumber.toBinary?`.
-/

namespace FlatJson

/-- The text of a number as written. -/
structure RawNumber where
  bytes : Bytes
  deriving DecidableEq, Repr

namespace RawNumber

/-- Whether the text has neither a fraction nor an exponent. -/
def isInteger (n : RawNumber) : Bool :=
  !n.bytes.any fun b => b == 0x2E || b == 0x65 || b == 0x45

/-- The number as an integer of a range. -/
def toInteger (n : RawNumber) (format : IntegerFormat) : Except IntegerError Int :=
  format.read n.bytes

def toInt64? (n : RawNumber) : Option Int :=
  (n.toInteger .int64).toOption

def toWord64? (n : RawNumber) : Option Int :=
  (n.toInteger .word64).toOption

def toBinary? (n : RawNumber) (format : BinaryFormat) : Option Nat :=
  format.read? n.bytes

def report (n : RawNumber) : String :=
  "RawNumber(" ++ String.ofList (Utf8.lossyChars n.bytes) ++ ")"

end RawNumber

end FlatJson
