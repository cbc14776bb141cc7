/-!
# Bytes of a JSON text

* `Bytes` — a text as the list of its bytes; nothing is assumed about their encoding.
* `Byte.isBlank`, `Byte.isDigit`, `Byte.hexValue` — the byte classes of the grammar.
* `trimBlank` — a text without the blank bytes around it.
-/

namespace FlatJson

/-- A text, byte by byte. -/
abbrev Bytes := List UInt8

namespace Byte

abbrev quote : UInt8 := 0x22

abbrev backslash : UInt8 := 0x5C

abbrev lineFeed : UInt8 := 0x0A

/-- Blank bytes are the space, the tab, the line feed and the carriage return. -/
def isBlank (b : UInt8) : Bool :=
  b == 0x20 || b == 0x09 || b == 0x0A || b == 0x0D

/-- Decimal digits `0` to `9`. -/
def isDigit (b : UInt8) : Bool :=
  0x30 ≤ b && b ≤ 0x39

/-- Control bytes, which a string may only hold escaped. -/
def isControl (b : UInt8) : Bool :=
  b < 0x20

/-- The value of a hexadecimal digit of either case. -/
def hexValue (b : UInt8) : Option UInt8 :=
  if 0x30 ≤ b ∧ b ≤ 0x39 then some (b - 0x30)
  else if 0x61 ≤ b ∧ b ≤ 0x66 then some (b - 0x57)
  else if 0x41 ≤ b ∧ b ≤ 0x46 then some (b - 0x37)
  else none

/-- Hexadecimal digits of either case. -/
def isHexDigit (b : UInt8) : Bool :=
  (hexValue b).isSome

end Byte

/-- The text after its leading blank bytes. -/
def skipBlank (text : Bytes) : Bytes :=
  text.dropWhile Byte.isBlank

/-- The text without the blank bytes before and after it. -/
def trimBlank (text : Bytes) : Bytes :=
  (skipBlank (skipBlank text).reverse).reverse

end FlatJson
