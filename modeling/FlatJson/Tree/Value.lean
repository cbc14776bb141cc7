import FlatJson.Lexeme.Number
import FlatJson.Lexeme.Text
import FlatJson.Token

/-!
# Values

A value is a tree whose leaves are kept as they were written: numbers as text, strings with their
escapes in place.

* `Value` — the tree; members of an object keep their order, and equal names are kept apart.
* `Value.member?`, `Value.item?` — one step down, if there is one.
* `Value.memberOrNull`, `Value.itemOrNull` — one step down, `null` if there is none.
* `Value.beq` — equality as written.
* `Value.print` — the tree as compact JSON.
-/

namespace FlatJson

/-- A JSON value as written. -/
inductive Value where
  | null
  | bool (b : Bool)
  | number (n : RawNumber)
  | string (s : RawText)
  | array (items : List Value)
  | object (members : List (RawText × Value))

namespace Value

def asBool? : Value → Option Bool
  | .bool b => some b
  | _ => none

def asNumber? : Value → Option RawNumber
  | .number n => some n
  | _ => none

def asText? : Value → Option RawText
  | .string s => some s
  | _ => none

def asArray? : Value → Option (List Value)
  | .array items => some items
  | _ => none

def asObject? : Value → Option (List (RawText × Value))
  | .object members => some members
  | _ => none

def isNull : Value → Bool
  | .null => true
  | _ => false

/-- The value of the first member whose name denotes the given text. -/
def member? (v : Value) (name : String) : Option Value := do
  let members ← v.asObject?
  let (_, value) ← members.find? fun (key, _) => key.denotes name
  return value

/-- The element at an index. -/
def item? (v : Value) (index : Nat) : Option Value := do
  let items ← v.asArray?
  items[index]?

/-- The value of a member, `null` if it is missing. -/
def memberOrNull (v : Value) (name : String) : Value :=
  (v.member? name).getD .null

/-- The element at an index, `null` if it is missing. -/
def itemOrNull (v : Value) (index : Nat) : Value :=
  (v.item? index).getD .null

/-! ## Equality as written -/

mutual

/-- Whether two values are written alike, blanks between tokens apart. -/
def beq : Value → Value → Bool
  | .null, .null => true
  | .bool a, .bool b => a == b
  | .number a, .number b => a == b
  | .string a, .string b => a == b
  | .array a, .array b => beqItems a b
  | .object a, .object b => beqMembers a b
  | _, _ => false

def beqItems : List Value → List Value → Bool
  | [], [] => true
  | a :: as, b :: bs => if beq a b then beqItems as bs else false
  | _, _ => false

def beqMembers : List (RawText × Value) → List (RawText × Value) → Bool
  | [], [] => true
  | (k, a) :: as, (l, b) :: bs => if k == l && beq a b then beqMembers as bs else false
  | _, _ => false

end

instance : BEq Value := ⟨beq⟩

/-! ## Printing -/

/-- Writes a string in its quotes.  The output has its latest byte first. -/
def writeText (s : RawText) (out : Bytes) : Bytes :=
  Byte.quote :: (s.display.reverse ++ Byte.quote :: out)

mutual

/-- Writes a value.  The output has its latest byte first. -/
def write : Value → Bytes → Bytes
  | .null, out => Keyword.null.spelling.reverse ++ out
  | .bool true, out => Keyword.yes.spelling.reverse ++ out
  | .bool false, out => Keyword.no.spelling.reverse ++ out
  | .number n, out => n.bytes.reverse ++ out
  | .string s, out => writeText s out
  | .array items, out => 0x5D :: writeItems items false (0x5B :: out)
  | .object members, out => 0x7D :: writeMembers members false (0x7B :: out)

/-- Writes elements, with a comma before each but the first. -/
def writeItems : List Value → (comma : Bool) → Bytes → Bytes
  | [], _, out => out
  | v :: rest, comma, out => writeItems rest true (write v (if comma then 0x2C :: out else out))

/-- Writes members, with a comma before each but the first. -/
def writeMembers : List (RawText × Value) → (comma : Bool) → Bytes → Bytes
  | [], _, out => out
  | (k, v) :: rest, comma, out =>
    writeMembers rest true (write v (0x3A :: writeText k (if comma then 0x2C :: out else out)))

end

/-- The value as compact JSON: no blanks, and every leaf as it was written, with U+FFFD in place
of bytes that are not UTF-8. -/
def print (v : Value) : Bytes :=
  (write v []).reverse

end Value

end FlatJson
