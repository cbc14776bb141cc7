import FlatJson.Lexeme.Number
import FlatJson.Lexeme.Text
import FlatJson.Tokenizer

/-!
# Windows onto a token list

A window is a run of tokens together with the text they were read from.  Values inside it are
found by their brackets: a container ends at the first closing bracket of its own depth.

* `Window` — tokens, text and shape; `Window.lexeme`, `Window.rawText?`, `Window.rawNumber?`.
* `splitValue` — the tokens of the value that a run starts with, and those after it.
* `Window.valueEnd` — the same by index.
* `Window.elements` — the elements of an array, one window each.
* `Window.field?` — the window of a member of an object.
-/

namespace FlatJson

/-- A run of tokens and the text they were read from. -/
structure Window where
  tokens : List Token
  text : Array UInt8
  /-- The shape of the whole text. -/
  shape : Shape := .notLarge

namespace Window

/-- The window onto other tokens of the same text. -/
def onto (w : Window) (tokens : List Token) : Window :=
  { w with tokens := tokens }

def length (w : Window) : Nat :=
  w.tokens.length

/-- The bytes of a token; none if its span is not inside the text. -/
def lexeme (w : Window) (t : Token) : Bytes :=
  if t.stop ≤ w.text.size then (w.text.extract t.offset t.stop).toList else []

/-- The content of a string or of the name of a member. -/
def rawText? (w : Window) (t : Token) : Option RawText :=
  match t.kind with
  | .key | .string => some ⟨w.lexeme t⟩
  | _ => none

/-- The text of a number.  Only UTF-8 is taken for one. -/
def rawNumber? (w : Window) (t : Token) : Option RawNumber :=
  match t.kind with
  | .number => if Utf8.isValid (w.lexeme t) then some ⟨w.lexeme t⟩ else none
  | _ => none

def firstNumber? (w : Window) : Option RawNumber :=
  w.tokens.head?.bind w.rawNumber?

def firstText? (w : Window) : Option RawText :=
  w.tokens.head?.bind w.rawText?

end Window

/-! ## Where values end -/

/-- Whether the token closes a container at this depth. -/
def Token.closesAt (depth : Nat) (t : Token) : Bool :=
  t.depth == depth && t.kind.isClosing

/-- The tokens up to the first closing bracket at this depth, that one included, and those after. -/
def splitClosing (depth : Nat) (tokens : List Token) : Option (List Token × List Token) :=
  match tokens.dropWhile fun t => !t.closesAt depth with
  | close :: rest => some (tokens.takeWhile (fun t => !t.closesAt depth) ++ [close], rest)
  | [] => none

/-- The tokens of the value that starts here, and those after it.  There is none if no value
starts here or if its closing bracket is missing. -/
def splitValue : List Token → Option (List Token × List Token)
  | [] => none
  | t :: rest =>
    if t.kind.isScalar then some ([t], rest)
    else if t.kind.isOpening then
      (splitClosing t.depth rest).map fun (inside, after) => (t :: inside, after)
    else none

/-- Nothing is lost in splitting. -/
theorem splitClosing_append {depth : Nat} {tokens inside after : List Token}
    (h : splitClosing depth tokens = some (inside, after)) : tokens = inside ++ after := by
  unfold splitClosing at h
  split at h
  · next close rest he =>
    cases h
    rw [List.append_assoc, List.singleton_append, ← he, List.takeWhile_append_dropWhile]
  · cases h

theorem splitValue_append {tokens value after : List Token}
    (h : splitValue tokens = some (value, after)) : tokens = value ++ after := by
  cases tokens with
  | nil => cases h
  | cons t rest =>
    simp only [splitValue] at h
    split at h
    · cases h; rfl
    · split at h
      · obtain ⟨⟨inside, rest'⟩, hs, he⟩ := Option.map_eq_some_iff.1 h
        cases he
        rw [splitClosing_append hs, List.cons_append]
      · cases h

/-- A value has at least one token. -/
theorem splitValue_ne_nil {tokens value after : List Token}
    (h : splitValue tokens = some (value, after)) : value ≠ [] := by
  cases tokens with
  | nil => cases h
  | cons t rest =>
    simp only [splitValue] at h
    split at h
    · cases h; simp
    · split at h
      · obtain ⟨⟨inside, rest'⟩, _, he⟩ := Option.map_eq_some_iff.1 h
        cases he; simp
      · cases h

theorem splitValue_length_lt {tokens value after : List Token}
    (h : splitValue tokens = some (value, after)) : after.length < tokens.length := by
  have hne := List.length_pos_iff.2 (splitValue_ne_nil h)
  rw [splitValue_append h, List.length_append]
  omega

/-- The tokens after a comma; without a comma there is nothing to go on with. -/
def afterComma : List Token → List Token
  | t :: rest => if t.kind = .comma then rest else []
  | [] => []

theorem afterComma_length_le (tokens : List Token) :
    (afterComma tokens).length ≤ tokens.length := by
  unfold afterComma
  split
  · split <;> simp
  · simp

namespace Window

/-- The index after the value that starts at an index. -/
def valueEnd (w : Window) (index : Nat) : Option Nat :=
  (splitValue (w.tokens.drop index)).map fun (value, _) => index + value.length

/-! ## Elements of an array -/

/-- A position between two elements of an array. -/
structure Elements where
  window : Window
  /-- The tokens from the next element on; none at the end. -/
  pending : List Token

def Elements.index (e : Elements) : Nat :=
  e.window.length - e.pending.length

/-- The next element, and the position after it.  At an unfinished element, and after the last
one, the end is reached for good. -/
def Elements.next (e : Elements) : Option Window × Elements :=
  match splitValue e.pending with
  | none => (none, { e with pending := [] })
  | some (value, after) => (some (e.window.onto value), { e with pending := afterComma after })

/-- The position before the first element, if the window starts with an array, and else the end. -/
def elementsStart (w : Window) : Elements :=
  match w.tokens with
  | ⟨.opening .array, _, _, _⟩ :: rest => ⟨w, rest⟩
  | _ => ⟨w, []⟩

theorem Elements.next_pending_length_lt {e e' : Elements} {w : Window}
    (h : e.next = (some w, e')) : e'.pending.length < e.pending.length := by
  unfold Elements.next at h
  split at h
  · cases h
  · next value after hs =>
    cases h
    exact Nat.lt_of_le_of_lt (afterComma_length_le after) (splitValue_length_lt hs)

/-- The elements from a position on, after those already found in reverse. -/
def Elements.collect (e : Elements) (found : List Window) : List Window :=
  match _h : e.next with
  | (none, _) => found.reverse
  | (some w, e') => e'.collect (w :: found)
termination_by e.pending.length
decreasing_by exact Elements.next_pending_length_lt _h

/-- All elements of the array that the window starts with. -/
def elements (w : Window) : List Window :=
  w.elementsStart.collect []

/-! ## Members of an object -/

/-- The tokens of the first member with this name, among the members from here on. -/
def fieldRun? (w : Window) (name : String) (tokens : List Token) : Option (List Token) :=
  match tokens with
  | key :: _ :: rest =>
    if key.kind = .key then
      match _h : splitValue rest with
      | none => none
      | some (value, after) =>
        if (w.rawText? key).any (·.denotes name) then some value
        else fieldRun? w name (afterComma after)
    else none
  | _ => none
termination_by tokens.length
decreasing_by
  have h1 := afterComma_length_le after
  have h2 := splitValue_length_lt _h
  simp only [List.length_cons]
  omega

/-- The value of the first member with this name, if the window starts with an object.  Names are
compared by what they denote. -/
def field? (w : Window) (name : String) : Option Window :=
  match w.tokens with
  | ⟨.opening .object, _, _, _⟩ :: rest => (w.fieldRun? name rest).map w.onto
  | _ => none

end Window

/-- The window onto the tokens of a scan. -/
def Parsed.window (p : Parsed) (text : Bytes) : Window :=
  ⟨p.tokens, text.toArray, p.shape⟩

end FlatJson
