import FlatJson.Tokenizer

/-!
# By position

The scan and the sampling once more, as work with positions of the text: indices, slices and
differences are checked, and so is the progress of loops.  So a function of this module has no
value if an index or a slice is out of range, if a difference is below zero, if something is
divided by zero, or if a loop makes a round without coming closer to its end.  Looking a byte up
that need not be there is no such error; the answer is then that there is none.

* `byteAt`, `suffix`, `before`, `between`, `minus`, `divide` — the checked operations.
* `loop` — the checked loop.
* `Attempt` — a position or a state, an error of the text, or no value.
* `closingQuote`, `escape` — the end of a string, and of an escape in it.
* `wholeEnd`, `fractionEnd`, `exponentEnd` — the ends of the parts of a number.
* `token` — one token from its first byte on; `run` and `scan` are the loop over all of them.
* `stringEnd`, `scalarEnd`, `sampleArray`, `sampleEnvelope`, `detectShape` — the sampling.
* `parse` — the shape and then the scan.
-/

namespace FlatJson.Cursor

open Scan

/-! ## Checked operations -/

/-- The byte at a position. -/
def byteAt (text : Bytes) (pos : Nat) : Option UInt8 :=
  text[pos]?

/-- The bytes from a position on. -/
def suffix (text : Bytes) (pos : Nat) : Option Bytes :=
  if pos ≤ text.length then some (text.drop pos) else none

/-- The bytes before a position. -/
def before (text : Bytes) (pos : Nat) : Option Bytes :=
  if pos ≤ text.length then some (text.take pos) else none

/-- The bytes between two positions. -/
def between (text : Bytes) (start stop : Nat) : Option Bytes :=
  if start ≤ stop ∧ stop ≤ text.length then some ((text.drop start).take (stop - start)) else none

/-- A difference of positions or counts. -/
def minus (a b : Nat) : Option Nat :=
  if b ≤ a then some (a - b) else none

/-- A whole quotient. -/
def divide (a b : Nat) : Option Nat :=
  if b = 0 then none else some (a / b)

/-- Repeats a step until it gives a result in place of a further state.  What is left to do has to
become less with every round. -/
def loop {σ ρ : Type} (left : σ → Nat) (step : σ → Option (ρ ⊕ σ)) (s : σ) : Option ρ :=
  match step s with
  | none => none
  | some (.inl r) => some r
  | some (.inr t) => if left t < left s then loop left step t else none
termination_by left s

/-- The first position from `pos` on at which no byte of a class stands. -/
def skip (inClass : UInt8 → Bool) (text : Bytes) (pos : Nat) : Option Nat :=
  loop (text.length - ·) (fun pos =>
    if text[pos]?.any inClass then some (.inr (pos + 1)) else some (.inl pos)) pos

/-! ## One token -/

/-- What a part of the scan comes to: a result, or an error of the text. -/
abbrev Attempt := ExceptT LexError Option

/-- The character that starts at a position. -/
def charAt (text : Bytes) (pos : Nat) : Option Char :=
  return Utf8.firstChar (← suffix text pos)

/-- The error for a refusal at a position. -/
def refuse {α : Type} (text : Bytes) (pos : Nat) : Refusal → Attempt α
  | .character expected => do throw ⟨.unexpectedCharacter (← charAt text pos) expected, pos⟩
  | .escape => do throw ⟨.invalidEscape (← charAt text pos), ← minus pos 1⟩
  | .because kind offset => throw ⟨kind, offset⟩

/-- The value of a hexadecimal digit, if the byte is one. -/
def hexDigit (b : UInt8) : Option (Option Nat) := do
  if 0x30 ≤ b ∧ b ≤ 0x39 then return some (← minus b.toNat 0x30)
  else if 0x61 ≤ b ∧ b ≤ 0x66 then return some ((← minus b.toNat 0x61) + 10)
  else if 0x41 ≤ b ∧ b ≤ 0x46 then return some ((← minus b.toNat 0x41) + 10)
  else return none

/-- The number that hexadecimal digits denote after those of `code`, if they are such digits. -/
def unit (code : Nat) : Bytes → Option (Option Nat)
  | [] => some (some code)
  | b :: rest => do
    match ← hexDigit b with
    | some digit => unit (code * 16 + digit) rest
    | none => return none

/-- The position after the escape whose backslash is at `backslash`, in the string that starts at
`quote`. -/
def escape (text : Bytes) (quote backslash : Nat) : Attempt Nat := do
  match text[backslash + 1]? with
  | none => throw ⟨.unterminatedString, quote⟩
  | some b =>
    if isShortEscape b then return backslash + 2
    else if b == 0x75 then
      match between text (backslash + 2) (backslash + 6) with
      | none => throw ⟨.invalidUnicodeEscape, backslash⟩
      | some digits =>
        match ← unit 0 digits with
        | some _ => return backslash + 6
        | none => throw ⟨.invalidUnicodeEscape, backslash⟩
    else throw ⟨.invalidEscape (← charAt text (backslash + 1)), backslash⟩

/-- The part of a string from `pos` on up to the next quote or escape, for the string that starts
at `quote`: the position of the quote, or the one after the escape. -/
def stretch (text : Bytes) (quote pos : Nat) : Attempt (Nat ⊕ Nat) := do
  let rest ← suffix text pos
  match rest.findIdx? (fun b => b == Byte.quote || b == Byte.backslash) with
  | none => throw ⟨.unterminatedString, quote⟩
  | some n =>
    match (← before rest n).findIdx? Byte.isControl with
    | some i => throw ⟨.controlCharacter (← byteAt rest i), pos + i⟩
    | none =>
      if (← byteAt text (pos + n)) == Byte.quote then return .inl (pos + n)
      else return .inr (← escape text quote (pos + n))

/-- The position of the quote that closes the string which starts at `quote` and has been read up
to `pos`. -/
def closingQuote (text : Bytes) (quote pos : Nat) : Attempt Nat :=
  ExceptT.mk <| loop (text.length - ·) (fun pos => do
    match ← (stretch text quote pos).run with
    | .ok (.inl close) => return .inl (.ok close)
    | .ok (.inr next) => return .inr next
    | .error e => return .inl (.error e)) pos

/-- A string, as the name of a member or as a value. -/
def string (limits : Limits) (text : Bytes) (s : State) : Attempt State := do
  if s.awaiting.admitsKey || s.awaiting.admitsValue limits.several then
    let close ← closingQuote text s.pos (s.pos + 1)
    let len ← minus (← minus close s.pos) 1
    if s.awaiting.admitsKey then
      return { s.emit .key (s.pos + 1) len with pos := close + 1, awaiting := .colon }
    else return { s.emit .string (s.pos + 1) len with pos := close + 1 }.endValue
  else refuse text s.pos s.unexpected

/-- The position after the whole digits of a number. -/
def wholeEnd (text : Bytes) (pos : Nat) : Attempt Nat := do
  match text[pos]? with
  | none => throw ⟨.malformedNumber "a digit", pos⟩
  | some b =>
    if b == 0x30 then
      if text[pos + 1]?.any Byte.isDigit then
        throw ⟨.malformedNumber "no digits after a leading zero", pos + 1⟩
      else return pos + 1
    else if Byte.isDigit b then skip Byte.isDigit text pos
    else throw ⟨.malformedNumber "a digit", pos⟩

/-- The position after the digits that are needed at a position. -/
def digitsEnd (expected : String) (text : Bytes) (pos : Nat) : Attempt Nat := do
  let stop ← skip Byte.isDigit text pos
  if stop = pos then throw ⟨.malformedNumber expected, pos⟩ else return stop

/-- The position after the fraction of a number, if it has one. -/
def fractionEnd (text : Bytes) (pos : Nat) : Attempt Nat :=
  if text[pos]? = some 0x2E then digitsEnd "a digit after the decimal point" text (pos + 1)
  else return pos

/-- The position after the exponent of a number, if it has one. -/
def exponentEnd (text : Bytes) (pos : Nat) : Attempt Nat :=
  if text[pos]?.any isExponentLetter then
    if text[pos + 1]? = some 0x2B ∨ text[pos + 1]? = some 0x2D then
      digitsEnd "a digit in the exponent" text (pos + 2)
    else digitsEnd "a digit in the exponent" text (pos + 1)
  else return pos

def number (limits : Limits) (text : Bytes) (s : State) : Attempt State := do
  if s.awaiting.admitsValue limits.several then
    let pos := if (← byteAt text s.pos) == 0x2D then s.pos + 1 else s.pos
    let stop ← exponentEnd text (← fractionEnd text (← wholeEnd text pos))
    return { s.emit .number s.pos (← minus stop s.pos) with pos := stop }.endValue
  else refuse text s.pos s.unexpected

def word (limits : Limits) (text : Bytes) (s : State) (w : Keyword) : Attempt State := do
  if s.awaiting.admitsValue limits.several then
    let rest ← suffix text s.pos
    let same := ((rest.zip w.spelling).takeWhile fun (found, wanted) => found == wanted).length
    if same = w.spelling.length then
      return { s.emit (.word w) s.pos same with pos := s.pos + same }.endValue
    else if same = rest.length then throw ⟨.unexpectedEnd (State.expectedWord w), text.length⟩
    else refuse text (s.pos + same) (.character (State.expectedWord w))
  else refuse text s.pos s.unexpected

/-- A bracket, a comma or a colon. -/
def mark (text : Bytes) (s : State) : Except Refusal State → Attempt State
  | .ok s => return s
  | .error refusal => refuse text s.pos refusal

/-- The token that starts with the byte at the position of a state between two tokens. -/
def token (limits : Limits) (text : Bytes) (s : State) (b : UInt8) : Attempt State :=
  match Lead.ofByte b with
  | .opening c => mark text s (s.push limits c)
  | .closing c => mark text s (s.pop c)
  | .comma => mark text s s.comma
  | .colon => mark text s s.colon
  | .quote => string limits text s
  | .number _ => number limits text s
  | .word w => word limits text s w
  | .blank | .other => refuse text s.pos s.unexpected

/-! ## All tokens -/

/-- One token with the blanks before it, or the end of the scan. -/
def round (limits : Limits) (text : Bytes) (s : State) : Option (Outcome ⊕ State) := do
  let s := { s with pos := ← skip Byte.isBlank text s.pos }
  match text[s.pos]? with
  | none => return .inl (s.outcome { s with pos := text.length }.finish)
  | some b =>
    match ← (token limits text s b).run with
    | .ok s => return .inr s
    | .error e => return .inl (s.outcome (some e))

/-- The rest of a scan from a state between two tokens. -/
def run (limits : Limits) (text : Bytes) (s : State) : Option Outcome :=
  loop (fun s => text.length - s.pos) (round limits text) s

def scan (limits : Limits) (text : Bytes) : Option Outcome :=
  run limits text {}

/-! ## The shape -/

/-- The position after the string that has been read up to `pos`, if it closes before `limit`. -/
def stringEnd (text : Bytes) (limit pos : Nat) : Option (Option Nat) :=
  loop (limit - ·) (fun pos => do
    if pos < limit then
      match (← between text pos limit).findIdx?
        (fun b => b == Byte.quote || b == Byte.backslash) with
      | none => return .inl none
      | some n =>
        if (← byteAt text (pos + n)) == Byte.quote then return .inl (some (pos + n + 1))
        else return .inr (pos + n + 2)
    else return .inl none) pos

/-- Whether a number or keyword ends before the byte. -/
def isSeparator (b : UInt8) : Bool :=
  b == 0x2C || b == 0x3A || b == 0x5B || b == 0x5D || b == 0x7B || b == 0x7D || b == Byte.quote ||
    Byte.isBlank b

/-- The position after the number or keyword that has been read up to `pos`. -/
def scalarEnd (text : Bytes) (limit pos : Nat) : Option Nat :=
  loop (limit - ·) (fun pos => do
    if pos < limit then
      if isSeparator (← byteAt text pos) then return .inl pos else return .inr (pos + 1)
    else return .inl pos) pos

/-- One token of the sample of an array, whose bytes are counted from the start of the text. -/
def sampleToken (text : Bytes) (limit most : Nat) (s : Sample) : Option (Sample ⊕ Sample) := do
  if s.read < limit ∧ s.elements < most then
    let b ← byteAt text s.read
    if b == Byte.quote then
      match ← stringEnd text limit (s.read + 1) with
      | some stop => return .inr { s.count with read := stop }
      | none => return .inl s.count
    else if b == 0x7B || b == 0x5B then
      return .inr { s.count with depth := s.depth + 1, read := s.read + 1 }
    else if (b == 0x7D || b == 0x5D) && s.depth != 0 then
      return .inr { s.count with depth := ← minus s.depth 1, read := s.read + 1 }
    else if b == 0x5D then
      let s := { s with complete := s.read, closed := true }
      if s.current = 0 then return .inl s
      else return .inl { s with elements := s.elements + 1, tokens := s.tokens + s.current }
    else if b == 0x2C && s.depth == 0 then
      return .inr { s with
        elements := s.elements + 1, tokens := s.tokens + s.current, current := 0
        read := s.read + 1, complete := s.read + 1 }
    else if b == 0x2C || b == 0x3A || b == 0x7D then
      return .inr { s.count with read := s.read + 1 }
    else if Byte.isBlank b then return .inr { s with read := s.read + 1 }
    else return .inr { s.count with read := ← scalarEnd text limit s.read }
  else return .inl s

/-- The sample of an array from a state on. -/
def sample (text : Bytes) (limit most : Nat) (s : Sample) : Option Sample :=
  loop (fun s => limit - s.read) (sampleToken text limit most) s

/-- The position after the last byte before `stop` that is not blank, or else `first`. -/
def trimEnd (text : Bytes) (first stop : Nat) : Option Nat :=
  loop (· - first) (fun stop => do
    if first < stop then
      let last ← minus stop 1
      if Byte.isBlank (← byteAt text last) then return .inr last else return .inl stop
    else return .inl stop) stop

/-- The shape of an array after its sample, where the first element is at `first`. -/
def sampledShape (threshold : Nat) (text : Bytes) (first : Nat) (s : Sample) : Option Shape := do
  if s.elements = 0 then return .notLarge
  else
    let average ← divide (s.tokens + s.elements / 2) s.elements
    if s.closed then return ⟨threshold < s.elements, s.elements, average⟩
    else
      let sampled ← minus s.complete first
      let extent ← minus (← trimEnd text first text.length) first
      let estimate := max (← divide (mulCount extent s.elements) (max sampled 1)) s.elements
      return ⟨threshold < estimate, estimate, average⟩

/-- The shape of the array whose opening bracket is at a position. -/
def sampleArray (settings : ShapeSettings) (text : Bytes) (opening : Nat) : Option Shape := do
  let limit := min text.length (opening + 1 + settings.sampleWindow)
  let first ← skip Byte.isBlank text (opening + 1)
  if text.length ≤ first then return .notLarge
  else if (← byteAt text first) == 0x5D then return .notLarge
  else
    let s ← sample text limit settings.sampleElements { read := first, complete := first }
    sampledShape settings.largeArrayThreshold text first s

/-- One token of an object, from what has been seen of it before a position. -/
def envelopeToken (settings : ShapeSettings) (text : Bytes) (limit : Nat) (e : Envelope)
    (pos : Nat) : Option (Envelope ⊕ Envelope × Nat) := do
  if pos < limit then
    let b ← byteAt text pos
    if b == Byte.quote then
      match ← stringEnd text limit (pos + 1) with
      | some stop => return .inr ({ e with afterColon := false }, stop)
      | none => return .inl { e with afterColon := false }
    else if b == 0x3A && e.depth == 0 then return .inr ({ e with afterColon := true }, pos + 1)
    else if b == 0x5B && e.depth == 0 && e.afterColon then
      let e := e.offer (← sampleArray settings text pos)
      return .inr ({ e with depth := e.depth + 1, afterColon := false }, pos + 1)
    else if b == 0x7B || b == 0x5B then
      return .inr ({ e with depth := e.depth + 1, afterColon := false }, pos + 1)
    else if b == 0x7D || b == 0x5D then
      match minus e.depth 1 with
      | some depth => return .inr ({ e with depth := depth }, pos + 1)
      | none => return .inl e
    else if Byte.isBlank b then return .inr (e, pos + 1)
    else return .inr ({ e with afterColon := false }, pos + 1)
  else return .inl e

/-- What is seen of an object from a position on. -/
def envelope (settings : ShapeSettings) (text : Bytes) (limit : Nat) (e : Envelope) (pos : Nat) :
    Option Envelope :=
  loop (fun (_, pos) => limit - pos) (fun (e, pos) => envelopeToken settings text limit e pos)
    (e, pos)

/-- The shape of the array with the most elements among the members of the object whose opening
bracket is at a position. -/
def sampleEnvelope (settings : ShapeSettings) (text : Bytes) (opening : Nat) : Option Shape := do
  let limit := min text.length (opening + 1 + settings.envelopeWindow)
  return (← envelope settings text limit {} (opening + 1)).best

def detectShape (settings : ShapeSettings) (text : Bytes) : Option Shape := do
  let start ← skip Byte.isBlank text 0
  match text[start]? with
  | none => return .notLarge
  | some b =>
    if b == 0x5B then sampleArray settings text start
    else if b == 0x7B then sampleEnvelope settings text start
    else return .notLarge

/-! ## Tokenizers -/

/-- What a tokenizer with these settings gives for a text. -/
def parse (settings : TokenizerSettings) (text : Bytes) : Option Parsed := do
  let shape ← if settings.detectsShape then detectShape settings.shape text else some .notLarge
  let found ← scan settings.limits text
  return ⟨found.tokens, shape, found.error⟩

end FlatJson.Cursor
