import FlatJson.Settings

/-!
# The shape of a text

Before a scan the text is sampled for one large array, alone or as a member of an enclosing
object.  Only brackets, quotes, commas and blanks are told apart, so a text that is not JSON has
a shape too; a wrong shape costs room for tokens and nothing else.

* `Shape` — the estimated number of elements and the tokens of each.
* `Sample` — the elements of an array seen through a window; `Sample.step` takes one byte.
* `sampleArray` — the shape of the array that starts here.
* `sampleEnvelope` — the shape of the member of an object with the most elements.
* `detectShape` — the shape of a text.
-/

namespace FlatJson

/-- Addition of 64-bit counts that stops at the largest. -/
def addCount (a b : Nat) : Nat := min (a + b) maxCount

/-- Multiplication of 64-bit counts that stops at the largest. -/
def mulCount (a b : Nat) : Nat := min (a * b) maxCount

/-- What is known about the array that a text holds. -/
structure Shape where
  /-- Whether the array has more elements than the threshold. -/
  isLargeArray : Bool
  /-- The number of elements; exact if the array was seen to its end. -/
  estimatedElements : Nat
  /-- The tokens of an element on average, separators left out. -/
  tokensPerElement : Nat
  deriving DecidableEq, Repr

/-- The shape of a text that is no array worth reserving room for. -/
def Shape.notLarge : Shape := ⟨false, 0, 0⟩

/-- The estimated number of tokens: each element with a separator, and the two brackets. -/
def Shape.estimatedTokens (s : Shape) : Nat :=
  addCount (mulCount s.estimatedElements (addCount s.tokensPerElement 1)) 2

/-! ## Sampling an array -/

/-- Where a byte of the sample stands. -/
inductive Place where
  | between
  /-- Inside a number or keyword. -/
  | scalar
  | string
  /-- Inside a string, after a backslash. -/
  | escape
  deriving DecidableEq, Repr

/-- What has been seen of an array. -/
structure Sample where
  place : Place := .between
  /-- The brackets open inside the current element. -/
  depth : Nat := 0
  /-- The complete elements. -/
  elements : Nat := 0
  /-- The tokens of the complete elements. -/
  tokens : Nat := 0
  /-- The tokens of the current element so far. -/
  current : Nat := 0
  /-- How many bytes have been read. -/
  read : Nat := 0
  /-- How many of them belong to complete elements and their separators. -/
  complete : Nat := 0
  /-- Whether the closing bracket of the array was reached. -/
  closed : Bool := false
  deriving DecidableEq, Repr

namespace Sample

/-- One more byte, which leads to the given place. -/
def move (s : Sample) (place : Place) : Sample :=
  { s with place := place, read := s.read + 1 }

def count (s : Sample) : Sample :=
  { s with current := s.current + 1 }

/-- A byte outside strings, numbers and keywords. -/
def structural (s : Sample) (b : UInt8) : Sample :=
  if b == Byte.quote then s.count.move .string
  else if b == 0x7B || b == 0x5B then { s.count.move .between with depth := s.depth + 1 }
  else if (b == 0x7D || b == 0x5D) && s.depth != 0 then
    { s.count.move .between with depth := s.depth - 1 }
  else if b == 0x5D then
    let last := if s.current = 0 then 0 else 1
    { s.move .between with
      elements := s.elements + last, tokens := s.tokens + s.current, complete := s.read
      closed := true }
  else if b == 0x2C && s.depth == 0 then
    { s.move .between with
      elements := s.elements + 1, tokens := s.tokens + s.current, current := 0
      complete := s.read + 1 }
  else if b == 0x2C || b == 0x3A || b == 0x7D then s.count.move .between
  else if Byte.isBlank b then s.move .between
  else if s.place = .scalar then s.move .scalar
  else s.count.move .scalar

def step (s : Sample) (b : UInt8) : Sample :=
  match s.place with
  | .between | .scalar => s.structural b
  | .string =>
    if b == Byte.quote then s.move .between
    else if b == Byte.backslash then s.move .escape
    else s.move .string
  | .escape => s.move .string

/-- Reads at most `window` bytes, and no further than the closing bracket of the array or the
end of the element number `most`. -/
def run (most : Nat) : (window : Nat) → Sample → Bytes → Sample
  | 0, s, _ => s
  | _, s, [] => s
  | window + 1, s, b :: rest =>
    if s.closed || most ≤ s.elements then s else run most window (s.step b) rest

/-- The number of elements in `extent` bytes, if they are like the sampled ones. -/
def extrapolate (s : Sample) (extent : Nat) : Nat :=
  max (mulCount extent s.elements / max s.complete 1) s.elements

/-- The shape of an array that takes `extent` bytes with all that follows it. -/
def shape (s : Sample) (threshold : Nat) (extent : Unit → Nat) : Shape :=
  if s.elements = 0 then .notLarge
  else
    let elements := if s.closed then s.elements else s.extrapolate (extent ())
    ⟨threshold < elements, elements, (s.tokens + s.elements / 2) / s.elements⟩

end Sample

/-- The shape of the array whose opening bracket stands before `rest`, a text without blanks at
its end.  The window starts at the bracket, and the extent at the first element. -/
def sampleArray (settings : ShapeSettings) (rest : Bytes) : Shape :=
  let body := skipBlank rest
  match body with
  | [] => .notLarge
  | b :: _ =>
    if b == 0x5D then .notLarge
    else
      let window := settings.sampleWindow - (rest.takeWhile Byte.isBlank).length
      (Sample.run settings.sampleElements window {} body).shape settings.largeArrayThreshold
        fun _ => body.length

/-! ## Sampling an object -/

/-- What has been seen of an object. -/
structure Envelope where
  place : Place := .between
  /-- The brackets open inside the object. -/
  depth : Nat := 0
  /-- Whether a value of a member starts next. -/
  afterColon : Bool := false
  /-- The shape of the array with the most elements; of two equal ones, the first. -/
  best : Shape := .notLarge
  deriving DecidableEq, Repr

namespace Envelope

/-- Keeps the larger of two shapes. -/
def offer (e : Envelope) (s : Shape) : Envelope :=
  if e.best.estimatedElements < s.estimatedElements then { e with best := s } else e

/-- A byte outside strings; `none` at the closing bracket of the object. -/
def structural (settings : ShapeSettings) (e : Envelope) (b : UInt8) (rest : Bytes) :
    Option Envelope :=
  if b == Byte.quote then some { e with place := .string, afterColon := false }
  else if b == 0x3A && e.depth == 0 then some { e with afterColon := true }
  else if b == 0x7B || b == 0x5B then
    let e :=
      if b == 0x5B && e.depth == 0 && e.afterColon then e.offer (sampleArray settings rest) else e
    some { e with depth := e.depth + 1, afterColon := false }
  else if b == 0x7D || b == 0x5D then
    if e.depth = 0 then none else some { e with depth := e.depth - 1 }
  else if Byte.isBlank b then some e
  else some { e with afterColon := false }

/-- One byte of the object, before the rest of the text. -/
def step (settings : ShapeSettings) (e : Envelope) (b : UInt8) (rest : Bytes) : Option Envelope :=
  match e.place with
  | .between | .scalar => e.structural settings b rest
  | .string =>
    some (if b == Byte.quote then { e with place := .between }
      else if b == Byte.backslash then { e with place := .escape }
      else e)
  | .escape => some { e with place := .string }

/-- Reads at most `window` bytes, and no further than the closing bracket of the object. -/
def run (settings : ShapeSettings) : (window : Nat) → Envelope → Bytes → Envelope
  | 0, e, _ => e
  | _, e, [] => e
  | window + 1, e, b :: rest =>
    match e.step settings b rest with
    | none => e
    | some e => run settings window e rest

end Envelope

/-- The shape of the array with the most elements among the members of the object whose opening
bracket stands before `rest`, a text without blanks at its end. -/
def sampleEnvelope (settings : ShapeSettings) (rest : Bytes) : Shape :=
  (Envelope.run settings settings.envelopeWindow {} rest).best

/-- The shape of a text.  Blanks around it make no difference. -/
def detectShape (settings : ShapeSettings) (text : Bytes) : Shape :=
  match trimBlank text with
  | [] => .notLarge
  | b :: rest =>
    if b == 0x5B then sampleArray settings rest
    else if b == 0x7B then sampleEnvelope settings rest
    else .notLarge

end FlatJson
