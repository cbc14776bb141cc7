import FlatJson.Pool
import FlatJson.Text.Dump
import FlatJson.Tree.Build

/-!
# Reports

How each type of the library is shown in a dump, under the names that its users know.
-/

namespace FlatJson

open Text (Dump)

def Container.dump : Container → Dump
  | .object => .word "Object"
  | .array => .word "Array"

def Token.dump (t : Token) : Dump :=
  .record "Token" [("kind", .word t.kind.name), ("depth", .nat t.depth),
    ("offset", .nat t.offset), ("len", .nat t.len)]

/-! ## Errors -/

def SyntaxError.dump : SyntaxError → Dump
  | .unexpectedCharacter found expected =>
    .record "UnexpectedCharacter" [("found", .word (Text.quotedChar found)),
      ("expected", .word (Text.quotedText expected))]
  | .unexpectedEnd expected =>
    .record "UnexpectedEndOfInput" [("expected", .word (Text.quotedText expected))]
  | .unterminatedString => .word "UnterminatedString"
  | .invalidEscape found => .tuple "InvalidEscape" [.word (Text.quotedChar found)]
  | .invalidUnicodeEscape => .word "InvalidUnicodeEscape"
  | .controlCharacter byte => .tuple "ControlCharacterInString" [.nat byte.toNat]
  | .malformedNumber expected =>
    .record "MalformedNumber" [("expected", .word (Text.quotedText expected))]
  | .unbalancedBracket found expected =>
    .record "UnbalancedBracket" [("found", .word (Text.quotedChar found)),
      ("expected", .word (Text.quotedChar expected))]
  | .unclosedBracket expected depth =>
    .record "UnclosedBracket" [("expected", .word (Text.quotedChar expected)),
      ("depth", .nat depth)]
  | .depthLimitExceeded limit => .tuple "DepthLimitExceeded" [.nat limit]

def LexError.dump (e : LexError) : Dump :=
  .record "LexError" [("kind", e.kind.dump), ("offset", .nat e.offset)]

def StringError.dump : StringError → Dump
  | .invalidUtf8 offset => .tuple "InvalidUtf8" [.nat offset]
  | .invalidEscape offset => .tuple "InvalidEscape" [.nat offset]
  | .loneSurrogate code offset =>
    .record "LoneSurrogate" [("code", .nat code), ("offset", .nat offset)]

def DecodeError.dump : DecodeError → Dump
  | .empty => .word "Empty"
  | .unexpectedToken kind index =>
    .record "UnexpectedToken" [("kind", .word kind.name), ("index", .nat index)]
  | .unexpectedEnd => .word "UnexpectedEnd"
  | .trailingTokens index => .tuple "TrailingTokens" [.nat index]
  | .depthLimitExceeded index => .record "DepthLimitExceeded" [("index", .nat index)]

def Failure.dump : Failure → Dump
  | .syntactic e => .tuple "Lex" [e.dump]
  | .structural e => .tuple "Decode" [e.dump]
  | .textual e => .tuple "String" [e.dump]

/-! ## Shapes and settings -/

def Shape.dump (s : Shape) : Dump :=
  .record "ArrayShapeInfo" [("is_large_array", .bool s.isLargeArray),
    ("estimated_elements", .nat s.estimatedElements),
    ("tokens_per_element", .nat s.tokensPerElement)]

def ShapeSettings.dump (s : ShapeSettings) : Dump :=
  .record "ShapeOptions" [("large_array_threshold", .nat s.largeArrayThreshold),
    ("sample_window_bytes", .nat s.sampleWindow), ("sample_max_elements", .nat s.sampleElements),
    ("envelope_scan_bytes", .nat s.envelopeWindow)]

def TokenizerSettings.dump (s : TokenizerSettings) : Dump :=
  .record "TokenizerOptions" [("shape", s.shape.dump), ("detect_shape", .bool s.detectsShape),
    ("initial_capacity", .nat s.initialCapacity),
    ("presize_headroom_percent", .nat s.headroomPercent), ("max_depth", .nat s.maxDepth),
    ("allow_multiple_values", .bool s.allowsSeveral)]

def PoolSettings.dump (s : PoolSettings) : Dump :=
  .record "PoolOptions" [("max_idle", .nat s.maxIdle), ("tokenizer", s.tokenizer.dump)]

def PoolStats.dump (s : PoolStats) : Dump :=
  .record "PoolStats" [("created", .nat s.created), ("reused", .nat s.reused),
    ("discarded", .nat s.discarded), ("idle", .nat s.idle)]

def Tokenizer.dump (t : Tokenizer) : Dump :=
  .record "Tokenizer" [("tokens", .list (t.tokens.map Token.dump)),
    ("containers", .list (t.unclosed.map Container.dump)),
    ("shape", .option Shape.dump t.lastShape), ("options", t.settings.dump),
    ("lease", .option .nat t.stamp)]

/-! ## Windows and values -/

def Window.dumpToken (w : Window) (t : Token) : Dump :=
  .word (t.kind.name ++ "@" ++ toString t.depth ++ " " ++ Text.quotedBytes (w.lexeme t))

def Window.dump (w : Window) : Dump :=
  .record "TokenStream" [("shape", w.shape.dump), ("tokens", .list (w.tokens.map w.dumpToken))]

def Window.Elements.dump (e : Window.Elements) : Dump :=
  .record "Elements" [("stream", e.window.dump), ("next", .nat e.index)]

def LexError.dumpWith (e : LexError) (w : Window) : Dump :=
  .record "TokenizeError" [("error", e.dump), ("partial", w.dump)]

namespace Value

mutual

def dump : Value → Dump
  | .null => .word "Null"
  | .bool b => .tuple "Bool" [.bool b]
  | .number n => .tuple "Number" [.word n.report]
  | .string s => .tuple "String" [.word s.report]
  | .array items => .tuple "Array" [.list (dumpItems items [])]
  | .object members => .tuple "Object" [.list (dumpMembers members [])]

/-- The dumps of elements, after those already there in reverse. -/
def dumpItems : List Value → List Dump → List Dump
  | [], found => found.reverse
  | v :: rest, found => dumpItems rest (dump v :: found)

/-- The dumps of members as pairs, after those already there in reverse. -/
def dumpMembers : List (RawText × Value) → List Dump → List Dump
  | [], found => found.reverse
  | (k, v) :: rest, found => dumpMembers rest (.tuple "" [.word k.report, dump v] :: found)

end

end Value

def dumpDecoded : Except DecodeError Value → Dump
  | .ok v => .tuple "Ok" [v.dump]
  | .error e => .tuple "Err" [e.dump]

end FlatJson
