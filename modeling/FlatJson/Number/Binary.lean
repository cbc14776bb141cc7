import FlatJson.Number.Decimal

/-!
# Binary floating point

A real number is rounded once, from its exact value, to the nearest number of a binary format.

* `roundQuotient` — a quotient rounded to an integer, ties to even.
* `BinaryFormat` — precision and width of the exponent; `binary32` and `binary64`.
* `BinaryFormat.ofQuotient`, `BinaryFormat.ofDecimal` — the bits of the nearest number.
* `BinaryFormat.read?` — the bits that a text denotes.
-/

namespace FlatJson

/-- The integer nearest to a quotient; of two equally near ones, the even one. -/
def roundQuotient (num den : Nat) : Nat :=
  let q := num / den
  let r := num % den
  if 2 * r < den then q
  else if den < 2 * r then q + 1
  else q + q % 2

/-- The layout of a floating-point number. -/
structure BinaryFormat where
  /-- The bits of the significand, the hidden one included. -/
  precision : Nat
  /-- The bits of the exponent. -/
  exponentBits : Nat
  deriving DecidableEq, Repr

namespace BinaryFormat

def binary32 : BinaryFormat := ⟨24, 8⟩

def binary64 : BinaryFormat := ⟨53, 11⟩

/-- Numbers from two to this power on are too large. -/
def top (f : BinaryFormat) : Int :=
  (Nat.pow 2 (f.exponentBits - 1) : Nat)

/-- All numbers are multiples of two to this power. -/
def bottom (f : BinaryFormat) : Int :=
  3 - f.top - f.precision

/-- The number of significands with the leading bit set. -/
def binade (f : BinaryFormat) : Nat :=
  Nat.pow 2 (f.precision - 1)

def infinity (f : BinaryFormat) : Nat :=
  (Nat.pow 2 f.exponentBits - 1) * f.binade

/-- The bits that stand for no number. -/
def undefined (f : BinaryFormat) : Nat :=
  f.infinity + f.binade / 2

def signBit (f : BinaryFormat) : Nat :=
  Nat.pow 2 f.exponentBits * f.binade

/-- The power of two at or below a positive quotient. -/
def floorLog (num den : Nat) : Int :=
  let e : Int := num.log2 - den.log2
  if den * Nat.pow 2 e.toNat ≤ num * Nat.pow 2 (-e).toNat then e else e - 1

/-- The bits of the number nearest to a positive quotient.  Within a power of two the bits count
up with the significand, and a significand that is rounded up to the next power carries into the
exponent. -/
def ofQuotient (f : BinaryFormat) (num den : Nat) : Nat :=
  let e := max (floorLog num den - (f.precision - 1)) f.bottom
  let significand := roundQuotient (num * Nat.pow 2 (-e).toNat) (den * Nat.pow 2 e.toNat)
  min ((e - f.bottom).toNat * f.binade + significand) f.infinity

/-- The bits of the number nearest to a decimal.  One that is far too large or too small is not
worked out. -/
def ofDecimal (f : BinaryFormat) (d : Decimal) : Nat :=
  let magnitude : Int := d.digits.length + d.exponent
  if d.digits.isEmpty || magnitude < f.bottom then 0
  else if f.top < magnitude then f.infinity
  else
    f.ofQuotient (d.coefficient * Nat.pow 10 d.exponent.toNat) (Nat.pow 10 (-d.exponent).toNat)

/-- The bits that a text denotes. -/
def read? (f : BinaryFormat) (text : Bytes) : Option Nat := do
  let r ← Numeral.read? text
  let bits := match r.magnitude with
    | .finite d => f.ofDecimal d
    | .infinite => f.infinity
    | .undefined => f.undefined
  return if r.negative then f.signBit + bits else bits

end BinaryFormat

end FlatJson
