/-!
# Structured dumps

A dump shows a value with the names of its parts, on one line or indented.

* `Dump` — what is shown: words, lists, records and applications.
* `Dump.compact` — on one line.
* `Dump.indented` — each part on a line of its own, four columns further in, with a comma after it.
-/

namespace FlatJson.Text

/-- What is shown of a value. -/
inductive Dump where
  /-- A word that is shown as it is. -/
  | word (text : String)
  /-- Parts in square brackets. -/
  | list (items : List Dump)
  /-- A name before parts in parentheses. -/
  | tuple (name : String) (items : List Dump)
  /-- A name before named parts in braces. -/
  | record (name : String) (fields : List (String × Dump))

namespace Dump

def nat (n : Nat) : Dump :=
  .word (toString n)

def bool (b : Bool) : Dump :=
  .word (toString b)

/-- Something that may be missing. -/
def option {α : Type} (f : α → Dump) : Option α → Dump
  | none => .word "None"
  | some a => .tuple "Some" [f a]

mutual

def writeCompact : Dump → String → String
  | .word text, out => out ++ text
  | .list items, out => writeCompactItems items false (out ++ "[") ++ "]"
  | .tuple name items, out => writeCompactItems items false (out ++ name ++ "(") ++ ")"
  | .record name fields, out => writeCompactFields fields false (out ++ name ++ " \x7b ") ++ " \x7d"

/-- Writes parts on one line, with a comma before each but the first. -/
def writeCompactItems : List Dump → (comma : Bool) → String → String
  | [], _, out => out
  | d :: rest, comma, out =>
    writeCompactItems rest true (writeCompact d (if comma then out ++ ", " else out))

/-- Writes named parts on one line, with a comma before each but the first. -/
def writeCompactFields : List (String × Dump) → (comma : Bool) → String → String
  | [], _, out => out
  | (name, d) :: rest, comma, out =>
    writeCompactFields rest true
      (writeCompact d ((if comma then out ++ ", " else out) ++ name ++ ": "))

end

/-- A new line at the given level. -/
def newline (level : Nat) : String :=
  "\n" ++ String.ofList (List.replicate (4 * level) ' ')

mutual

def writeIndented : Dump → (level : Nat) → String → String
  | .word text, _, out => out ++ text
  | .list [], _, out => out ++ "[]"
  | .list items, level, out =>
    writeIndentedItems items (level + 1) (out ++ "[") ++ newline level ++ "]"
  | .tuple name items, level, out =>
    writeIndentedItems items (level + 1) (out ++ name ++ "(") ++ newline level ++ ")"
  | .record name fields, level, out =>
    writeIndentedFields fields (level + 1) (out ++ name ++ " \x7b") ++ newline level ++ "\x7d"

/-- Writes parts at the given level, each on a line of its own. -/
def writeIndentedItems : List Dump → (level : Nat) → String → String
  | [], _, out => out
  | d :: rest, level, out =>
    writeIndentedItems rest level (writeIndented d level (out ++ newline level) ++ ",")

/-- Writes named parts at the given level, each on a line of its own. -/
def writeIndentedFields : List (String × Dump) → (level : Nat) → String → String
  | [], _, out => out
  | (name, d) :: rest, level, out =>
    writeIndentedFields rest level
      (writeIndented d level (out ++ newline level ++ name ++ ": ") ++ ",")

end

def compact (d : Dump) : String :=
  writeCompact d ""

/-- A dump with a line for each part. -/
def indented (d : Dump) : String :=
  writeIndented d 0 ""

end Dump

end FlatJson.Text
