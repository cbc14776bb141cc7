import FlatJson.Byte

/-!
# Decimal texts

* `Decimal` — a coefficient, digit by digit, and a power of ten.
* `Decimal.ofDigits` — the number that digits denote.
* `Decimal.readExponent?` — the power of ten after the letter; once it has reached
  `Decimal.exponentLimit`, no further digit counts.
* `Decimal.read?` — digits with an optional point among them and an optional exponent.
* `Numeral.read?` — a decimal, an infinity or no number at all, with an optional sign.
-/

namespace FlatJson

/-- A number that is not negative, as written: the digits without leading zeros make the
coefficient, which is multiplied by a power of ten. -/
structure Decimal where
  digits : Bytes
  exponent : Int
  deriving DecidableEq, Repr

namespace Decimal

/-- The number that digits denote.  Many digits are read in two halves, so that long numbers are
multiplied by each other and not by ten again and again. -/
def ofDigits (digits : Bytes) : Nat :=
  if digits.length ≤ 16 then digits.foldl (fun n b => n * 10 + (b.toNat - 0x30)) 0
  else
    let low := digits.length / 2
    let high := digits.length - low
    ofDigits (digits.take high) * Nat.pow 10 low + ofDigits (digits.drop high)
termination_by digits.length
decreasing_by
  · rw [List.length_take]; omega
  · rw [List.length_drop]; omega

def coefficient (d : Decimal) : Nat :=
  ofDigits d.digits

/-- An exponent that has reached this takes no further digit. -/
def exponentLimit : Nat := 0x10000

/-- The number that the digits of an exponent denote, as far as they count: once it has reached
the limit, the digits that follow are passed over.  So an exponent keeps a bounded size, and only
a number written with about as many digits can tell the difference. -/
def exponentOfDigits (digits : Bytes) : Nat :=
  digits.foldl (fun n b => if n < exponentLimit then n * 10 + (b.toNat - 0x30) else n) 0

/-- Reads the exponent of a number: a letter, an optional sign, and digits.  An empty text is
the exponent zero. -/
def readExponent? (text : Bytes) : Option Int :=
  match text with
  | [] => some 0
  | letter :: rest =>
    if letter == 0x65 || letter == 0x45 then
      let negative := rest.head? = some 0x2D
      let digits := if negative || rest.head? = some 0x2B then rest.tail else rest
      if digits.isEmpty || !digits.all Byte.isDigit then none
      else some (if negative then -(exponentOfDigits digits : Int) else exponentOfDigits digits)
    else none

/-- Reads a decimal without a sign.  One side of the point may be empty, but not both. -/
def read? (text : Bytes) : Option Decimal := do
  let whole := text.takeWhile Byte.isDigit
  let rest := text.dropWhile Byte.isDigit
  let (fraction, rest) :=
    if rest.head? = some 0x2E then
      (rest.tail.takeWhile Byte.isDigit, rest.tail.dropWhile Byte.isDigit)
    else ([], rest)
  if whole.isEmpty && fraction.isEmpty then none
  let exponent ← readExponent? rest
  return ⟨(whole ++ fraction).dropWhile (· == 0x30), exponent - fraction.length⟩

end Decimal

/-- What a text denotes as a real number, up to its sign. -/
inductive Magnitude where
  | finite (d : Decimal)
  | infinite
  /-- A text that says that it denotes no number. -/
  | undefined
  deriving DecidableEq, Repr

/-- A magnitude with a sign. -/
structure Numeral where
  negative : Bool
  magnitude : Magnitude
  deriving DecidableEq, Repr

namespace Numeral

def lower (text : Bytes) : Bytes :=
  text.map fun b => if 0x41 ≤ b && b ≤ 0x5A then b + 0x20 else b

/-- The words for what is not a decimal: `inf`, `infinity` and `nan` in any case. -/
def readWord? (text : Bytes) : Option Magnitude :=
  let text := lower text
  if text = [0x69, 0x6E, 0x66] || text = [0x69, 0x6E, 0x66, 0x69, 0x6E, 0x69, 0x74, 0x79] then
    some .infinite
  else if text = [0x6E, 0x61, 0x6E] then some .undefined
  else none

/-- Reads an optional sign and what follows it. -/
def read? (text : Bytes) : Option Numeral :=
  let negative := text.head? = some 0x2D
  let rest := if negative || text.head? = some 0x2B then text.tail else text
  match Decimal.read? rest with
  | some d => some ⟨negative, .finite d⟩
  | none => (readWord? rest).map (⟨negative, ·⟩)

end Numeral

end FlatJson
