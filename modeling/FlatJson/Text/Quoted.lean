import FlatJson.Text.Utf8
import FlatJson.Text.Visible

/-!
# Quoted characters, texts and byte strings

Inside quotes a character that does not show, or that would end the quotation, is escaped.

* `quotedChar` — a character in single quotes.
* `quotedText` — a text in double quotes.
* `quotedBytes` — bytes in double quotes, read as UTF-8 as far as they are.
-/

namespace FlatJson.Text

/-- A number in hexadecimal, in lower case, with at least `width` digits. -/
def hex (width n : Nat) : String :=
  let digits := Nat.toDigits 16 n
  String.ofList (List.replicate (width - digits.length) '0' ++ digits)

/-- A number in hexadecimal, in upper case, with at least `width` digits. -/
def upperHex (width n : Nat) : String :=
  (hex width n).toUpper

/-- Which quote marks are escaped. -/
structure Marks where
  single : Bool
  double : Bool

/-- A character as it stands inside quotes: NUL, tab, carriage return, line feed, the backslash
and the given quote marks have short escapes, and one that does not show is written by its code. -/
def escaped (marks : Marks) (c : Char) : String :=
  match c.toNat with
  | 0x00 => "\\0"
  | 0x09 => "\\t"
  | 0x0D => "\\r"
  | 0x0A => "\\n"
  | 0x5C => "\\\\"
  | 0x27 => if marks.single then "\\'" else "'"
  | 0x22 => if marks.double then "\\\"" else "\""
  | code => if isVisible c then c.toString else "\\u\x7b" ++ hex 1 code ++ "\x7d"

def quotedChar (c : Char) : String :=
  "'" ++ escaped ⟨true, false⟩ c ++ "'"

def quotedText (text : String) : String :=
  text.toList.foldl (fun out c => out ++ escaped ⟨false, true⟩ c) "\"" ++ "\""

def escapedByte (b : UInt8) : String :=
  "\\x" ++ hex 2 b.toNat

/-- A piece of a byte string as it stands inside quotes.  ASCII characters without a short escape
that do not show are written as bytes, as are bytes that are not UTF-8. -/
def escapedSegment : Utf8.Segment → String
  | .invalid bytes => bytes.foldl (fun out b => out ++ escapedByte b) ""
  | .scalar c =>
    if c.toNat < 0x80 ∧ ¬ isVisible c ∧ c.toNat ∉ [0x00, 0x09, 0x0A, 0x0D] then
      escapedByte c.toNat.toUInt8
    else escaped ⟨true, true⟩ c

def quotedBytes (bytes : Bytes) : String :=
  (Utf8.segments bytes).foldl (fun out s => out ++ escapedSegment s) "\"" ++ "\""

end FlatJson.Text
