import FlatJson.Tree.Value
import FlatJson.Window

/-!
# From tokens to values

The builder takes tokens one by one.  It awaits what the grammar awaits, and holds the containers
that are not closed yet, so it needs no recursion over the nesting.

* `Builder`, `Builder.step` — the state between two tokens, and one token.
* `Window.value` — the one value that a window holds.
* `parseValue` — the value of a text, with default settings.
-/

namespace FlatJson

/-- How many containers of a value may nest. -/
def maxTreeDepth : Nat := 512

/-- A container that is not closed yet; what it holds so far is kept latest first. -/
inductive Frame where
  | array (items : List Value)
  /-- The name is that of the member whose value comes next or came last. -/
  | object (members : List (RawText × Value)) (name : RawText)

/-- The value of a container that is now closed. -/
def Frame.close : Frame → Value
  | .array items => .array items.reverse
  | .object members _ => .object members.reverse

/-- The bracket that closes it. -/
def Frame.closing : Frame → TokenKind
  | .array _ => .closing .array
  | .object .. => .closing .object

/-- What the builder knows after some tokens. -/
structure Builder where
  /-- The index of the next token. -/
  index : Nat := 0
  awaiting : Scan.Awaiting := .document
  /-- The containers that are not closed yet, the innermost first. -/
  frames : List Frame := []
  /-- The value, once it is complete. -/
  result : Option Value := none

namespace Builder

def advance (b : Builder) : Builder :=
  { b with index := b.index + 1 }

/-- A value is complete: it is the result or belongs to the innermost container. -/
def deliver (b : Builder) (v : Value) : Builder :=
  match b.frames with
  | [] => { b with awaiting := .ending, result := some v }
  | .array items :: outer =>
    { b with awaiting := .commaOrClose, frames := .array (v :: items) :: outer }
  | .object members name :: outer =>
    { b with awaiting := .commaOrClose, frames := .object ((name, v) :: members) name :: outer }

def unexpected (b : Builder) (t : Token) : Except DecodeError Builder :=
  .error (.unexpectedToken t.kind b.index)

/-- A container opens. -/
def push (b : Builder) (frame : Frame) (awaiting : Scan.Awaiting) : Except DecodeError Builder :=
  if maxTreeDepth ≤ b.frames.length then .error (.depthLimitExceeded b.index)
  else .ok { b.advance with awaiting := awaiting, frames := frame :: b.frames }

/-- The first token of a value. -/
def value (w : Window) (b : Builder) (t : Token) : Except DecodeError Builder :=
  match t.kind with
  | .word .null => .ok (b.advance.deliver .null)
  | .word .yes => .ok (b.advance.deliver (.bool true))
  | .word .no => .ok (b.advance.deliver (.bool false))
  | .number =>
    match w.rawNumber? t with
    | some n => .ok (b.advance.deliver (.number n))
    | none => b.unexpected t
  | .string => .ok (b.advance.deliver (.string ⟨w.lexeme t⟩))
  | .opening .array => b.push (.array []) .itemOrClose
  | .opening .object => b.push (.object [] ⟨[]⟩) .keyOrClose
  | _ => b.unexpected t

/-- The name of a member. -/
def key (w : Window) (b : Builder) (t : Token) : Except DecodeError Builder :=
  match t.kind, b.frames with
  | .key, .object members _ :: outer =>
    .ok { b.advance with
      awaiting := .colon, frames := .object members ⟨w.lexeme t⟩ :: outer }
  | _, _ => b.unexpected t

/-- The bracket that closes the innermost container, or any other token. -/
def closeOr (b : Builder) (t : Token) (other : Except DecodeError Builder) :
    Except DecodeError Builder :=
  match b.frames with
  | frame :: outer =>
    if t.kind = frame.closing then
      .ok (({ b with frames := outer } : Builder).advance.deliver frame.close)
    else other
  | [] => other

/-- The comma between two elements or members. -/
def comma (b : Builder) (t : Token) : Except DecodeError Builder :=
  if t.kind = .comma then
    .ok { b.advance with
      awaiting := match b.frames with
        | .object .. :: _ => .key
        | _ => .value }
  else b.unexpected t

def step (w : Window) (b : Builder) (t : Token) : Except DecodeError Builder :=
  match b.awaiting with
  | .document | .value => b.value w t
  | .itemOrClose => b.closeOr t (b.value w t)
  | .key => b.key w t
  | .keyOrClose => b.closeOr t (b.key w t)
  | .colon =>
    if t.kind = .colon then .ok { b.advance with awaiting := .value } else b.unexpected t
  | .commaOrClose => b.closeOr t (b.comma t)
  | .ending => .error (.trailingTokens b.index)

/-- Takes tokens to the end or to the first error. -/
def run (w : Window) (b : Builder) : List Token → Except DecodeError Builder
  | [] => .ok b
  | t :: rest =>
    match b.step w t with
    | .ok b => run w b rest
    | .error e => .error e

end Builder

/-- The value that a window holds, if it holds exactly one. -/
def Window.value (w : Window) : Except DecodeError Value :=
  if w.tokens.isEmpty then .error .empty
  else
    match Builder.run w {} w.tokens with
    | .error e => .error e
    | .ok b => match b.result with
      | some v => .ok v
      | none => .error .unexpectedEnd

/-- The value of a text: a new tokenizer scans it, and its tokens must be one value.  With default
settings, room is refused to no text within `Room.limit`; see `Tokenizer.parse?_of_le`. -/
def parseValue (text : Bytes) : Except Failure Value × List Event :=
  let (parsed, _, events) := Tokenizer.parse {} text
  let result := match parsed.error with
    | some e => .error (.syntactic e)
    | none => match (parsed.window text).value with
      | .ok v => .ok v
      | .error e => .error (.structural e)
  (result, events)

end FlatJson
