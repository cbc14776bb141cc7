import FlatJson.Byte

/-!
# Tokens

A token is a kind and a span of the text it was read from.

* `Container` — objects and arrays, and the brackets that enclose them.
* `Keyword` — the literals `null`, `true` and `false`.
* `TokenKind` — the twelve kinds, and which of them start, close or are a value.
* `Token` — a kind, a nesting depth and a span.
-/

namespace FlatJson

/-- What a pair of brackets encloses. -/
inductive Container where
  | object
  | array
  deriving DecidableEq, Repr

/-- The closing bracket. -/
def Container.closer : Container → UInt8
  | .object => 0x7D
  | .array => 0x5D

/-- A literal written as a word. -/
inductive Keyword where
  | null
  | yes
  | no
  deriving DecidableEq, Repr

def Keyword.spelling : Keyword → Bytes
  | .null => [0x6E, 0x75, 0x6C, 0x6C]
  | .yes => [0x74, 0x72, 0x75, 0x65]
  | .no => [0x66, 0x61, 0x6C, 0x73, 0x65]

def Keyword.text : Keyword → String
  | .null => "null"
  | .yes => "true"
  | .no => "false"

/-- What a token is. -/
inductive TokenKind where
  | opening (c : Container)
  | closing (c : Container)
  /-- The name of an object member; the span leaves out the quotes. -/
  | key
  /-- A string where a value stands; the span leaves out the quotes. -/
  | string
  | number
  | word (w : Keyword)
  | comma
  | colon
  deriving DecidableEq, Repr

namespace TokenKind

/-- All kinds, in the order of their codes. -/
def all : List TokenKind :=
  [.opening .object, .closing .object, .opening .array, .closing .array, .key, .string, .number,
    .word .yes, .word .no, .word .null, .comma, .colon]

def name : TokenKind → String
  | .opening .object => "ObjectOpen"
  | .closing .object => "ObjectClose"
  | .opening .array => "ArrayOpen"
  | .closing .array => "ArrayClose"
  | .key => "Key"
  | .string => "StringValue"
  | .number => "NumberValue"
  | .word .yes => "True"
  | .word .no => "False"
  | .word .null => "Null"
  | .comma => "Comma"
  | .colon => "Colon"

/-- The code of a kind: its place in `all`. -/
def code (k : TokenKind) : Nat :=
  all.idxOf k

def isOpening : TokenKind → Bool
  | .opening _ => true
  | _ => false

def isClosing : TokenKind → Bool
  | .closing _ => true
  | _ => false

def isScalar : TokenKind → Bool
  | .string | .number | .word _ => true
  | _ => false

/-- Whether a value starts with the token. -/
def startsValue (k : TokenKind) : Bool :=
  k.isScalar || k.isOpening

end TokenKind

/-- The largest depth that a token reports; deeper ones report it too. -/
def maxReportedDepth : Nat := 0xFFFFFFFF

/-- One token.  An opening bracket and the bracket that closes it both have the depth outside
their container. -/
structure Token where
  kind : TokenKind
  /-- How many containers enclose the token. -/
  depth : Nat
  offset : Nat
  len : Nat
  deriving DecidableEq, Repr

/-- The position after the span. -/
def Token.stop (t : Token) : Nat :=
  t.offset + t.len

end FlatJson
