import FlatJson.Token
import FlatJson.Text.Quoted

/-!
# What can be wrong

Each kind of error is a type of causes, with the one function that puts a cause into words.

* `SyntaxError`, `LexError` — why a text is not JSON, and where.
* `StringError` — why the content of a string denotes no text.
* `DecodeError` — why a run of tokens is not one value.
* `Failure` — any of these.
* `lineColumn` — an offset as line and column.
-/

namespace FlatJson

/-- A character that is an ASCII byte. -/
def byteChar (b : UInt8) : Char :=
  Char.ofNat b.toNat

/-- Why a text is refused. -/
inductive SyntaxError where
  /-- A character that cannot stand here. -/
  | unexpectedCharacter (found : Char) (expected : String)
  /-- The text ends where more is needed. -/
  | unexpectedEnd (expected : String)
  | unterminatedString
  | invalidEscape (found : Char)
  /-- A numeric escape without its four digits. -/
  | invalidUnicodeEscape
  | controlCharacter (byte : UInt8)
  /-- A number that breaks off or goes on wrongly. -/
  | malformedNumber (expected : String)
  | unbalancedBracket (found expected : Char)
  /-- The text ends inside `depth` containers, the innermost to be closed by `expected`. -/
  | unclosedBracket (expected : Char) (depth : Nat)
  /-- More containers inside each other than allowed. -/
  | depthLimitExceeded (limit : Nat)
  deriving DecidableEq, Repr

def SyntaxError.message : SyntaxError → String
  | .unexpectedCharacter found expected =>
    "unexpected character " ++ Text.quotedChar found ++ ", expected " ++ expected
  | .unexpectedEnd expected => "unexpected end of input, expected " ++ expected
  | .unterminatedString => "unterminated string"
  | .invalidEscape found => "invalid escape sequence '\\" ++ found.toString ++ "'"
  | .invalidUnicodeEscape => "invalid unicode escape sequence, expected four hex digits"
  | .controlCharacter byte =>
    "unescaped control character 0x" ++ Text.upperHex 2 byte.toNat ++ " in string"
  | .malformedNumber expected => "malformed number, expected " ++ expected
  | .unbalancedBracket found expected =>
    "unbalanced bracket " ++ Text.quotedChar found ++ ", expected " ++ Text.quotedChar expected
  | .unclosedBracket expected depth =>
    "unexpected end of input, expected " ++ Text.quotedChar expected ++ " to close depth " ++
      toString depth
  | .depthLimitExceeded limit => "nesting depth exceeds the limit of " ++ toString limit

/-- A cause and the byte it was found at. -/
structure LexError where
  kind : SyntaxError
  offset : Nat
  deriving DecidableEq, Repr

def LexError.message (e : LexError) : String :=
  e.kind.message ++ " at byte " ++ toString e.offset

/-- The line and the column of an offset, both counted from one; columns count bytes.
A line ends after its line feed, and an offset past the text counts as its end. -/
def lineColumn (text : Bytes) (offset : Nat) : Nat × Nat :=
  (text.take offset).foldl
    (fun (line, column) b => if b = Byte.lineFeed then (line + 1, 1) else (line, column + 1))
    (1, 1)

/-- Why the content of a string denotes no text; offsets count from its first byte. -/
inductive StringError where
  /-- Not UTF-8 from this byte on. -/
  | invalidUtf8 (offset : Nat)
  | invalidEscape (offset : Nat)
  /-- A surrogate without its partner. -/
  | loneSurrogate (code offset : Nat)
  deriving DecidableEq, Repr

def StringError.message : StringError → String
  | .invalidUtf8 offset => "string is not valid UTF-8 at byte " ++ toString offset
  | .invalidEscape offset => "invalid escape sequence at byte " ++ toString offset
  | .loneSurrogate code offset =>
    "unpaired surrogate \\u" ++ Text.upperHex 4 code ++ " at byte " ++ toString offset

/-- Why a run of tokens is not one value. -/
inductive DecodeError where
  | empty
  | unexpectedToken (kind : TokenKind) (index : Nat)
  /-- The tokens end inside a container. -/
  | unexpectedEnd
  | trailingTokens (index : Nat)
  /-- A container inside too many others. -/
  | depthLimitExceeded (index : Nat)
  deriving DecidableEq, Repr

def DecodeError.message : DecodeError → String
  | .empty => "empty token stream"
  | .unexpectedToken kind index =>
    "unexpected " ++ kind.name ++ " token at index " ++ toString index
  | .unexpectedEnd => "token stream ended inside a container"
  | .trailingTokens index => "trailing tokens after the root value at index " ++ toString index
  | .depthLimitExceeded index => "nesting too deep to decode at index " ++ toString index

/-- Any error on the way from a text to a value. -/
inductive Failure where
  | syntactic (e : LexError)
  | structural (e : DecodeError)
  | textual (e : StringError)
  deriving DecidableEq, Repr

def Failure.cause : Failure → String
  | .syntactic e => e.message
  | .structural e => e.message
  | .textual e => e.message

/-- The error in words, with the stage it arose at. -/
def Failure.message (f : Failure) : String :=
  match f with
  | .syntactic _ => "syntax error: " ++ f.cause
  | .structural _ => "decode error: " ++ f.cause
  | .textual _ => "string error: " ++ f.cause

end FlatJson
