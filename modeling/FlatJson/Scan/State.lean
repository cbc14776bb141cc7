import FlatJson.Fault
import FlatJson.Scan.Grammar

/-!
# Scanning byte by byte

The scanner reads a text from left to right and holds all it needs to know in a `State`: what is
awaited, the open containers, the tokens so far, and the token that is being read.

* `Limits` — how deep containers may nest, and whether several values may follow each other.
* `State.settle` — a number ends at the first byte that cannot continue it; this emits it.
* `State.feed` — the effect of one byte, or the reason for which it is refused.
* `State.finish` — what is wrong, if anything, when the text ends here.
* `scan` — the whole text: its tokens, the containers left open, and the first error.

An error ends the scan, so the tokens before it are those of the state that refused.
-/

namespace FlatJson.Scan

/-- What the grammar is limited to. -/
structure Limits where
  /-- How many containers may nest. -/
  maxDepth : Nat
  /-- Whether a value may follow another. -/
  several : Bool
  deriving DecidableEq, Repr

/-- The token that is being read. -/
inductive Lexeme where
  /-- None: the scanner is between two tokens. -/
  | idle
  /-- A string, from its opening quote on. -/
  | string (start : Nat) (part : StringPart)
  | number (start : Nat) (part : NumberPart)
  /-- A keyword, and what is missing of it. -/
  | word (start : Nat) (w : Keyword) (missing : Bytes)
  deriving DecidableEq, Repr

/-- What the scanner knows after some bytes. -/
structure State where
  /-- How many bytes have been read. -/
  pos : Nat := 0
  awaiting : Awaiting := .document
  /-- The open containers, the innermost first. -/
  stack : List Container := []
  /-- The tokens emitted, the latest first. -/
  emitted : List Token := []
  lexeme : Lexeme := .idle
  deriving DecidableEq, Repr

/-- Why a byte is refused.  A character that the byte begins is read off the text by the caller. -/
inductive Refusal where
  /-- The character at this byte cannot stand here. -/
  | character (expected : String)
  /-- The character at this byte makes no escape with the backslash before it. -/
  | escape
  /-- Any other cause. -/
  | because (kind : SyntaxError) (offset : Nat)
  deriving DecidableEq, Repr

/-- The error for a refusal at a position where the text goes on with `rest`. -/
def Refusal.error (pos : Nat) (rest : Bytes) : Refusal → LexError
  | .character expected => ⟨.unexpectedCharacter (Utf8.firstChar rest) expected, pos⟩
  | .escape => ⟨.invalidEscape (Utf8.firstChar rest), pos - 1⟩
  | .because kind offset => ⟨kind, offset⟩

namespace State

def advance (s : State) : State :=
  { s with pos := s.pos + 1 }

/-- Emits a token inside the containers that are open. -/
def emit (s : State) (kind : TokenKind) (offset len : Nat) : State :=
  { s with emitted := ⟨kind, min s.stack.length maxReportedDepth, offset, len⟩ :: s.emitted }

/-- A value is complete. -/
def endValue (s : State) : State :=
  { s with awaiting := if s.stack.isEmpty then .ending else .commaOrClose, lexeme := .idle }

/-- The refusal of a character that is not what is awaited. -/
def unexpected (s : State) : Refusal :=
  .character (s.awaiting.describe s.stack)

/-! ## Between tokens -/

def push (limits : Limits) (s : State) (c : Container) : Except Refusal State :=
  if !s.awaiting.admitsValue limits.several then .error s.unexpected
  else if limits.maxDepth ≤ s.stack.length then
    .error (.because (.depthLimitExceeded limits.maxDepth) s.pos)
  else
    .ok { (s.emit (.opening c) s.pos 1).advance with
      stack := c :: s.stack
      awaiting := match c with
        | .object => .keyOrClose
        | .array => .itemOrClose }

def pop (s : State) (c : Container) : Except Refusal State :=
  match s.stack with
  | [] => .error s.unexpected
  | top :: outer =>
    if !s.awaiting.admitsClose then .error s.unexpected
    else if c = top then
      .ok (({ s with stack := outer }.emit (.closing c) s.pos 1).advance.endValue)
    else
      .error (.because (.unbalancedBracket (byteChar c.closer) (byteChar top.closer)) s.pos)

def comma (s : State) : Except Refusal State :=
  if s.awaiting = .commaOrClose then
    .ok { (s.emit .comma s.pos 1).advance with
      awaiting := match s.stack with
        | .object :: _ => .key
        | _ => .value }
  else .error s.unexpected

def colon (s : State) : Except Refusal State :=
  if s.awaiting = .colon then
    .ok { (s.emit .colon s.pos 1).advance with awaiting := .value }
  else .error s.unexpected

/-- The first byte of a token, or a blank. -/
def start (limits : Limits) (s : State) : Lead → Except Refusal State
  | .blank => .ok s.advance
  | .opening c => s.push limits c
  | .closing c => s.pop c
  | .comma => s.comma
  | .colon => s.colon
  | .quote =>
    if s.awaiting.admitsKey || s.awaiting.admitsValue limits.several then
      .ok { s.advance with lexeme := .string s.pos .body }
    else .error s.unexpected
  | .number part =>
    if s.awaiting.admitsValue limits.several then
      .ok { s.advance with lexeme := .number s.pos part }
    else .error s.unexpected
  | .word w =>
    if s.awaiting.admitsValue limits.several then
      .ok { s.advance with lexeme := .word s.pos w w.spelling.tail }
    else .error s.unexpected
  | .other => .error s.unexpected

/-! ## Inside a token -/

/-- The closing quote: the string is a name where a name is awaited, and a value elsewhere. -/
def endString (s : State) (start : Nat) : State :=
  if s.awaiting.admitsKey then
    { (s.emit .key (start + 1) (s.pos - start - 1)).advance with
      awaiting := .colon, lexeme := .idle }
  else (s.emit .string (start + 1) (s.pos - start - 1)).advance.endValue

/-- One byte of a string. -/
def inString (s : State) (start : Nat) (part : StringPart) (b : UInt8) : Except Refusal State :=
  let goOn (part : StringPart) : Except Refusal State :=
    .ok { s.advance with lexeme := .string start part }
  match part with
  | .body =>
    if b == Byte.quote then .ok (s.endString start)
    else if b == Byte.backslash then goOn .escape
    else if Byte.isControl b then goOn (.tainted b s.pos)
    else goOn .body
  | .escape =>
    if b == 0x75 then goOn (.digits (s.pos - 1) 4)
    else if isShortEscape b then goOn .body
    else .error .escape
  | .digits backslash missing =>
    if Byte.isHexDigit b then
      goOn (if missing ≤ 1 then .body else .digits backslash (missing - 1))
    else .error (.because .invalidUnicodeEscape backslash)
  | .tainted byte offset =>
    if b == Byte.quote || b == Byte.backslash then
      .error (.because (.controlCharacter byte) offset)
    else goOn (.tainted byte offset)

/-- The name of a keyword in error messages. -/
def expectedWord (w : Keyword) : String :=
  let mark := Char.ofNat 0x60
  mark.toString ++ w.text ++ mark.toString

def inWord (s : State) (start : Nat) (w : Keyword) (missing : Bytes) (b : UInt8) :
    Except Refusal State :=
  match missing with
  | [] => .error (.character (expectedWord w))
  | next :: later =>
    if b = next then
      if later.isEmpty then .ok ((s.emit (.word w) start (s.pos + 1 - start)).advance.endValue)
      else .ok { s.advance with lexeme := .word start w later }
    else .error (.character (expectedWord w))

/-- Emits the number that is being read if the next byte, or the end of the text, ends it. -/
def settle (s : State) (next : Option UInt8) : State :=
  match s.lexeme with
  | .number start part =>
    if part.read next = .done then (s.emit .number start (s.pos - start)).endValue else s
  | _ => s

/-- Reads one byte. -/
def feed (limits : Limits) (s : State) (b : UInt8) : Except Refusal State :=
  match s.lexeme with
  | .idle => s.start limits (Lead.ofByte b)
  | .string start part => s.inString start part b
  | .number start part =>
    match part.read (some b) with
    | .more part => .ok { s.advance with lexeme := .number start part }
    | .wrong expected => .error (.because (.malformedNumber expected) s.pos)
    | .done => s.start limits (Lead.ofByte b)
  | .word start w missing => s.inWord start w missing b

/-- What is wrong if the text ends here. -/
def finish (s : State) : Option LexError :=
  match s.lexeme with
  | .idle =>
    match s.awaiting, s.stack with
    | .ending, _ => none
    | _, top :: _ => some ⟨.unclosedBracket (byteChar top.closer) s.stack.length, s.pos⟩
    | _, [] => some ⟨.unexpectedEnd (s.awaiting.describe s.stack), s.pos⟩
  | .string _ (.digits backslash _) => some ⟨.invalidUnicodeEscape, backslash⟩
  | .string start _ => some ⟨.unterminatedString, start⟩
  | .number _ part =>
    match part.read none with
    | .wrong expected => some ⟨.malformedNumber expected, s.pos⟩
    | _ => none
  | .word _ w _ => some ⟨.unexpectedEnd (expectedWord w), s.pos⟩

end State

/-! ## Whole texts -/

/-- What a scan found. -/
structure Outcome where
  /-- The tokens, in order; with an error, those before it. -/
  tokens : List Token
  /-- The containers left open, the outermost first. -/
  unclosed : List Container
  error : Option LexError
  deriving DecidableEq, Repr

def State.outcome (s : State) (error : Option LexError) : Outcome :=
  ⟨s.emitted.reverse, s.stack.reverse, error⟩

def scanFrom (limits : Limits) (s : State) : Bytes → Outcome
  | [] =>
    let s := s.settle none
    s.outcome s.finish
  | b :: rest =>
    let s := s.settle (some b)
    match s.feed limits b with
    | .ok s => scanFrom limits s rest
    | .error refusal => s.outcome (some (refusal.error s.pos (b :: rest)))

def scan (limits : Limits) (text : Bytes) : Outcome :=
  scanFrom limits {} text

end FlatJson.Scan
