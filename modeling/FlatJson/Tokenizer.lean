import FlatJson.Event

/-!
# Tokenizers

A tokenizer scans one text after the other into a buffer that it keeps.  The tokens and the error
of a text come from the scan alone; the shape of the text only decides how much room is reserved.

* `Room` — the room of the token buffer, how it grows, and the most that can be reserved.
* `Shape.wantedRoom` — the room reserved before a scan.
* `Tokenizer` — settings, the result of the latest scan, and the room kept for the next.
* `Tokenizer.parse?`, `Tokenizer.reset`.
* `Tokenizer.parse` — a parse whose room can be reserved; `Tokenizer.parse?_eq` says when that is.
-/

namespace FlatJson

/-! ## Room for tokens -/

/-- A token buffer, as far as its room is concerned. -/
structure Room where
  used : Nat := 0
  capacity : Nat := 0
  deriving DecidableEq, Repr

namespace Room

/-- Takes all tokens out; the room stays. -/
def clear (r : Room) : Room :=
  { r with used := 0 }

/-- Makes room for so many further tokens, and no more than that. -/
def reserve (r : Room) (count : Nat) : Room :=
  { r with capacity := max r.capacity (r.used + count) }

/-- The most tokens that room can be made for: one is 24 bytes, and a buffer is less than 2⁶³. -/
def limit : Nat := 0x7FFFFFFFFFFFFFFF / 24

/-- What is said where more room than the limit is asked for. -/
def refusal : String := "capacity overflow"

/-- Makes room for so many further tokens, unless that takes a buffer past the limit. -/
def reserve? (r : Room) (count : Nat) : Option Room :=
  if r.used + count ≤ max r.capacity limit then some (r.reserve count) else none

/-- Adds a token.  A full buffer doubles first, to four at least.  The limit is not looked at: by
`Tokenizer.capacity_parse_le` only a text of 2⁵⁷ bytes or more can come near it. -/
def push (r : Room) : Room :=
  { used := r.used + 1
    capacity := if r.used < r.capacity then r.capacity else max (2 * r.capacity) 4 }

def pushMany : Nat → Room → Room
  | 0, r => r
  | n + 1, r => pushMany n r.push

end Room

/-- The room to reserve for a text of `length` bytes.  For a large array it is the estimated
number of tokens and some more, but no more than one token a byte. -/
def Shape.wantedRoom (shape : Shape) (settings : TokenizerSettings) (length : Nat) : Nat :=
  if shape.isLargeArray then
    let estimate := shape.estimatedTokens
    let headroom := mulCount estimate settings.headroomPercent / 100
    min (addCount estimate headroom) (max length settings.initialCapacity)
  else settings.initialCapacity

/-- It is no more than the length of the text and the smallest room that is asked for. -/
theorem Shape.wantedRoom_le (shape : Shape) (settings : TokenizerSettings) (length : Nat) :
    shape.wantedRoom settings length ≤ max length settings.initialCapacity := by
  unfold wantedRoom
  split
  · exact Nat.min_le_right _ _
  · exact Nat.le_max_right _ _

/-! ## Tokenizers -/

/-- A reusable tokenizer. -/
structure Tokenizer where
  settings : TokenizerSettings := {}
  /-- The tokens of the latest text. -/
  tokens : List Token := []
  /-- The containers that the latest text left open, the outermost first. -/
  unclosed : List Container := []
  /-- The shape of the latest text. -/
  lastShape : Option Shape := none
  capacity : Nat := 0
  /-- The number of the pool that the tokenizer is out of, if any. -/
  stamp : Option Nat := none
  deriving DecidableEq, Repr

/-- What a scan of a text gives. -/
structure Parsed where
  /-- The tokens, in order; with an error, those before it. -/
  tokens : List Token
  shape : Shape
  error : Option LexError
  deriving DecidableEq, Repr

namespace Tokenizer

def room (t : Tokenizer) : Room :=
  ⟨t.tokens.length, t.capacity⟩

/-- Forgets the latest text; the room stays. -/
def reset (t : Tokenizer) : Tokenizer :=
  { t with tokens := [], unclosed := [], lastShape := none }

/-- The shape of a text, as far as the settings ask for it, and the record of it. -/
def findShape (settings : TokenizerSettings) (text : Bytes) : Shape × List Event :=
  if settings.detectsShape then
    let shape := detectShape settings.shape text
    (shape, [.shapeDetected shape text.length])
  else (.notLarge, [])

/-- The buffer before a scan: emptied, with the wanted room, and the record of a reservation. -/
def prepare (room : Room) (shape : Shape) (wanted : Nat) : Room × List Event :=
  let room := room.clear
  if room.capacity < wanted then
    (room.reserve wanted, [.roomReserved wanted room.capacity shape.estimatedElements])
  else (room, [])

/-- The same where the room may be refused, with the record of what was asked for. -/
def prepare? (room : Room) (shape : Shape) (wanted : Nat) : Option Room × List Event :=
  let room := room.clear
  if room.capacity < wanted then
    (room.reserve? wanted, [.roomReserved wanted room.capacity shape.estimatedElements])
  else (some room, [])

/-- The start of a scan, which adds to the tokens and the open containers that are there. -/
def scanStart (t : Tokenizer) : Scan.State :=
  { stack := t.unclosed.reverse, emitted := t.tokens.reverse }

/-- Scans a text of a shape into a buffer. -/
def scanInto (t : Tokenizer) (room : Room) (shape : Shape) (text : Bytes) : Parsed × Tokenizer :=
  let found := Scan.scanFrom t.settings.limits t.reset.scanStart text
  let after := { t with
    tokens := found.tokens
    unclosed := found.unclosed
    lastShape := some shape
    capacity := (room.pushMany found.tokens.length).capacity }
  (⟨found.tokens, shape, found.error⟩, after)

/-- Forgets the latest text and scans a new one.  Where the room for it is refused there is no
result, and the tokenizer holds nothing. -/
def parse? (t : Tokenizer) (text : Bytes) : Option Parsed × Tokenizer × List Event :=
  let (shape, detected) := findShape t.settings text
  match prepare? t.room shape (shape.wantedRoom t.settings text.length) with
  | (none, reserved) => (none, t.reset, detected ++ reserved)
  | (some room, reserved) =>
    let (parsed, after) := t.scanInto room shape text
    (some parsed, after, detected ++ reserved)

/-- The same for a text whose room can be reserved, which is all that a theorem on `parse` speaks
of; see `parse?_eq`. -/
def parse (t : Tokenizer) (text : Bytes) : Parsed × Tokenizer × List Event :=
  let (shape, detected) := findShape t.settings text
  let (room, reserved) := prepare t.room shape (shape.wantedRoom t.settings text.length)
  let (parsed, after) := t.scanInto room shape text
  (parsed, after, detected ++ reserved)

/-- The room that a parse of a text asks for. -/
def wanted (t : Tokenizer) (text : Bytes) : Nat :=
  (t.parse text).1.shape.wantedRoom t.settings text.length

/-- Nothing is left for the scan to add to. -/
theorem scanStart_reset (t : Tokenizer) : t.reset.scanStart = {} := rfl

/-- What a parse gives is what a scan of the text alone finds. -/
theorem parse_fst (t : Tokenizer) (text : Bytes) :
    (t.parse text).1 = ⟨(Scan.scan t.settings.limits text).tokens, (findShape t.settings text).1,
      (Scan.scan t.settings.limits text).error⟩ := by
  simp only [parse, scanInto, t.scanStart_reset]
  rfl

/-- Room is refused where it is neither there nor below the limit.  The record does not tell. -/
theorem prepare?_eq (room : Room) (shape : Shape) (wanted : Nat) :
    prepare? room shape wanted =
      (if wanted ≤ max room.capacity Room.limit then some (prepare room shape wanted).1 else none,
        (prepare room shape wanted).2) := by
  by_cases hlt : room.capacity < wanted
  · simp [prepare?, prepare, Room.clear, Room.reserve?, hlt]
  · have hle : wanted ≤ max room.capacity Room.limit := by omega
    simp [prepare?, prepare, Room.clear, hlt, hle]

/-- **When a parse has a result**: unless it wants more room than there is and than the limit. -/
theorem parse?_eq (t : Tokenizer) (text : Bytes) :
    t.parse? text =
      if t.wanted text ≤ max t.capacity Room.limit then (some (t.parse text).1, (t.parse text).2)
      else (none, t.reset, (t.parse text).2.2) := by
  have hprepare := prepare?_eq t.room (findShape t.settings text).1 (t.wanted text)
  have hwanted : (findShape t.settings text).1.wantedRoom t.settings text.length =
      t.wanted text := rfl
  simp only [parse?, hwanted, hprepare]
  by_cases hle : t.wanted text ≤ max t.capacity Room.limit
  · have hroom : t.wanted text ≤ max t.room.capacity Room.limit := hle
    simp only [if_pos hle, if_pos hroom]
    rfl
  · have hroom : ¬ t.wanted text ≤ max t.room.capacity Room.limit := hle
    simp only [if_neg hle, if_neg hroom]
    rfl

/-- The result of a parse is that of `parse`, which there is if the room can be reserved. -/
theorem parse?_eq_some_iff {t : Tokenizer} {text : Bytes} {parsed : Parsed} :
    (t.parse? text).1 = some parsed ↔
      t.wanted text ≤ max t.capacity Room.limit ∧ (t.parse text).1 = parsed := by
  rw [parse?_eq]
  by_cases hle : t.wanted text ≤ max t.capacity Room.limit <;> simp [hle]

theorem parse?_eq_none_iff {t : Tokenizer} {text : Bytes} :
    (t.parse? text).1 = none ↔ max t.capacity Room.limit < t.wanted text := by
  rw [parse?_eq, ← Nat.not_le]
  by_cases hle : t.wanted text ≤ max t.capacity Room.limit <;> simp [hle]

/-- What a text needs does not depend on the texts before it. -/
theorem wanted_congr {t u : Tokenizer} (h : u.settings = t.settings) (text : Bytes) :
    u.wanted text = t.wanted text := by
  rw [wanted, wanted, parse_fst, parse_fst, h]

theorem wanted_le (t : Tokenizer) (text : Bytes) :
    t.wanted text ≤ max text.length t.settings.initialCapacity :=
  Shape.wantedRoom_le _ _ _

/-- With settings and a text of any use, room is never refused. -/
theorem parse?_of_le {t : Tokenizer} {text : Bytes} (hlength : text.length ≤ Room.limit)
    (hinitial : t.settings.initialCapacity ≤ Room.limit) :
    t.parse? text = (some (t.parse text).1, (t.parse text).2) := by
  have hwanted := t.wanted_le text
  rw [parse?_eq, if_pos (by omega)]

/-- Neither the stamp nor the settings depend on what comes of a parse. -/
theorem parse?_kept (t : Tokenizer) (text : Bytes) :
    (t.parse? text).2.1.stamp = t.stamp ∧ (t.parse? text).2.1.settings = t.settings := by
  rw [parse?_eq]
  split <;> exact ⟨rfl, rfl⟩

end Tokenizer

end FlatJson
