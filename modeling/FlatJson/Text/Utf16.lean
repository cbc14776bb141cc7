import FlatJson.Byte

/-!
# UTF-16 code units

A character past U+FFFF takes two code units, a high and a low surrogate.  Units come one at a
time, so a high surrogate is held until the unit after it is known.

* `Pairing` — the unit that is held, if any.
* `Pairing.feed`, `Pairing.finish` — one more unit, or none; an unpaired surrogate is an error.
-/

namespace FlatJson.Utf16

/-- Whether the unit is the first of a pair. -/
def isHigh (unit : UInt16) : Bool :=
  0xD800 ≤ unit && unit ≤ 0xDBFF

/-- Whether the unit is the second of a pair. -/
def isLow (unit : UInt16) : Bool :=
  0xDC00 ≤ unit && unit ≤ 0xDFFF

/-- The code of the character that a pair stands for. -/
def combine (high low : UInt16) : Nat :=
  0x10000 + (high.toNat - 0xD800) * 0x400 + (low.toNat - 0xDC00)

/-- The state between two units. -/
structure Pairing where
  /-- A high surrogate without its partner so far. -/
  held : Option UInt16 := none
  deriving DecidableEq, Repr

namespace Pairing

/-- Takes one unit: the character it completes, or `none` for a high surrogate that is now held.
The error is the unpaired surrogate, this unit or the one held before. -/
def feed (p : Pairing) (unit : UInt16) : Except UInt16 (Option Char × Pairing) :=
  match p.held with
  | none =>
    if isHigh unit then .ok (none, ⟨some unit⟩)
    else if isLow unit then .error unit
    else .ok (some (Char.ofNat unit.toNat), ⟨none⟩)
  | some high =>
    if isLow unit then .ok (some (Char.ofNat (combine high unit)), ⟨none⟩)
    else .error high

/-- Ends the units: a surrogate that is still held is unpaired. -/
def finish (p : Pairing) : Except UInt16 Unit :=
  match p.held with
  | none => .ok ()
  | some high => .error high

end Pairing

end FlatJson.Utf16
