import FlatJson.Shape

/-!
# Records

What the library reports about its own work, as data; nothing depends on it.

* `Event` — the records.
* `Event.line` — a record as one line: its level and its text.
-/

namespace FlatJson

/-- A record of something done. -/
inductive Event where
  /-- The shape of a text of so many bytes was detected. -/
  | shapeDetected (shape : Shape) (bytes : Nat)
  /-- Room for tokens was reserved. -/
  | roomReserved (wanted had elements : Nat)
  /-- A pool had no idle tokenizer and made one. -/
  | tokenizerMade (pool : Nat)
  /-- A pool had no place for a returned tokenizer. -/
  | tokenizerDropped (pool capacity : Nat)
  deriving DecidableEq, Repr

/-- How much a record matters. -/
inductive Level where
  | trace
  | debug
  deriving DecidableEq, Repr

def Level.name : Level → String
  | .trace => "TRACE"
  | .debug => "DEBUG"

namespace Event

/-- The level of a record: work on a text is traced, work on a pool is for debugging. -/
def level : Event → Level
  | .shapeDetected .. | .roomReserved .. => .trace
  | .tokenizerMade _ | .tokenizerDropped .. => .debug

def message : Event → String
  | .shapeDetected shape bytes =>
    "shape: large=" ++ toString shape.isLargeArray ++ " elements~" ++
      toString shape.estimatedElements ++ " tokens/element=" ++ toString shape.tokensPerElement ++
      " (" ++ toString bytes ++ " bytes)"
  | .roomReserved wanted had elements =>
    "reserving " ++ toString wanted ++ " tokens (had " ++ toString had ++ ", ~" ++
      toString elements ++ " elements)"
  | .tokenizerMade pool => "pool " ++ toString pool ++ ": creating a tokenizer"
  | .tokenizerDropped pool capacity =>
    "pool " ++ toString pool ++ ": free list full, dropping a tokenizer with capacity " ++
      toString capacity

def line (e : Event) : String :=
  e.level.name ++ " " ++ e.message

end Event

end FlatJson
