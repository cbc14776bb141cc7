import FlatJson.Proofs.Decoding
import FlatJson.Proofs.Printing
import FlatJson.Proofs.Replacing

/-!
# Reading back what a value prints

A printed value is a text again, whatever bytes stood in its strings.  It reads back as the value
with the bytes that are not UTF-8 replaced, and prints the same once more.

* `Value.lossy` — the value with such bytes replaced in its strings and names.
* `Value.leaves_lossy`, `Value.nesting_lossy` — nothing else about it changes.
* `Value.print_written` — what a value prints is that value written down.
* `parseValue_print` — reading back, with the tokens that are read.
-/

namespace FlatJson

/-! ## Replacing in leaves -/

/-- The leaf with the bytes that are not UTF-8 replaced, if it is a string or a name. -/
def Leaf.lossy (l : Leaf) : Leaf :=
  if l.isQuoted then { l with content := Utf8.replaceInvalid l.content } else l

namespace Leaf

@[simp] theorem lossy_kind (l : Leaf) : l.lossy.kind = l.kind := by
  unfold lossy
  split <;> rfl

@[simp] theorem lossy_depth (l : Leaf) : l.lossy.depth = l.depth := by
  unfold lossy
  split <;> rfl

@[simp] theorem lossy_comma (depth : Nat) : (comma depth).lossy = comma depth := rfl

@[simp] theorem lossy_colon (depth : Nat) : (colon depth).lossy = colon depth := rfl

@[simp] theorem lossy_key (name : RawText) (depth : Nat) :
    (key name depth).lossy = key ⟨name.display⟩ depth := rfl

theorem lossy_isQuoted (l : Leaf) : l.lossy.isQuoted = l.isQuoted := by
  simp only [isQuoted, lossy_kind]

theorem spelling_lossy (l : Leaf) : l.lossy.spelling = l.printed := by
  rw [spelling, printed, lossy_isQuoted, lossy]
  split <;> rfl

theorem printed_lossy (l : Leaf) : l.lossy.printed = l.printed := by
  rw [printed, printed, lossy_isQuoted, lossy]
  split
  · rw [Utf8.replaceInvalid_replaceInvalid]
  · rfl

end Leaf

/-- A token that fits its kind still does when bytes are replaced. -/
theorem Spells.lossy {l : Leaf} (h : Spells l.kind l.content) :
    Spells l.lossy.kind l.lossy.content := by
  obtain ⟨kind, depth, content⟩ := l
  cases h with
  | key hc => exact .key hc.replaceInvalid
  | string hc => exact .string hc.replaceInvalid
  | opening c => exact .opening c
  | closing c => exact .closing c
  | number hn => exact .number hn
  | word w => exact .word w
  | comma => exact .comma
  | colon => exact .colon

theorem printedLeaves_eq_spelling (ls : List Leaf) :
    printedLeaves ls = (ls.map Leaf.lossy).flatMap Leaf.spelling := by
  rw [printedLeaves, List.flatMap_map]
  exact List.flatMap_congr fun l _ => l.spelling_lossy.symm

theorem printedLeaves_lossy (ls : List Leaf) :
    printedLeaves (ls.map Leaf.lossy) = printedLeaves ls := by
  rw [printedLeaves, printedLeaves, List.flatMap_map]
  exact List.flatMap_congr fun l _ => l.printed_lossy

/-! ## Replacing in values -/

mutual

/-- The value with the bytes that are not UTF-8 replaced in its strings and in the names of its
members. -/
def Value.lossy : Value → Value
  | .null => .null
  | .bool b => .bool b
  | .number n => .number n
  | .string s => .string ⟨s.display⟩
  | .array items => .array (lossyItems items)
  | .object members => .object (lossyMembers members)

def lossyItems : List Value → List Value
  | [] => []
  | v :: items => v.lossy :: lossyItems items

def lossyMembers : List (RawText × Value) → List (RawText × Value)
  | [] => []
  | (name, v) :: members => (⟨name.display⟩, v.lossy) :: lossyMembers members

end

mutual

/-- Only the contents of leaves change. -/
theorem Value.leaves_lossy : ∀ (v : Value) (depth : Nat),
    v.lossy.leaves depth = (v.leaves depth).map Leaf.lossy
  | .null, _ | .bool true, _ | .bool false, _ | .number _, _ | .string _, _ => rfl
  | .array items, depth => by
    rw [Value.lossy, Value.leaves, itemLeaves_lossy items, Value.leaves, List.map_cons,
      List.map_append]
    rfl
  | .object members, depth => by
    rw [Value.lossy, Value.leaves, memberLeaves_lossy members, Value.leaves, List.map_cons,
      List.map_append]
    rfl

theorem itemLeaves_lossy : ∀ (items : List Value) (depth : Nat) (comma : Bool),
    itemLeaves depth (lossyItems items) comma = (itemLeaves depth items comma).map Leaf.lossy
  | [], _, _ => rfl
  | v :: items, depth, comma => by
    rw [lossyItems, itemLeaves, v.leaves_lossy, itemLeaves_lossy items, itemLeaves]
    cases comma <;> simp

theorem memberLeaves_lossy : ∀ (members : List (RawText × Value)) (depth : Nat) (comma : Bool),
    memberLeaves depth (lossyMembers members) comma =
      (memberLeaves depth members comma).map Leaf.lossy
  | [], _, _ => rfl
  | (name, v) :: members, depth, comma => by
    rw [lossyMembers, memberLeaves, v.leaves_lossy, memberLeaves_lossy members, memberLeaves]
    cases comma <;> simp

end

mutual

theorem Value.nesting_lossy : ∀ v : Value, v.lossy.nesting = v.nesting
  | .null | .bool _ | .number _ | .string _ => rfl
  | .array items => by rw [Value.lossy, Value.nesting, nestingItems_lossy items, Value.nesting]
  | .object members => by
    rw [Value.lossy, Value.nesting, nestingMembers_lossy members, Value.nesting]

theorem nestingItems_lossy : ∀ items : List Value,
    nestingItems (lossyItems items) = nestingItems items
  | [] => rfl
  | v :: items => by
    rw [lossyItems, nestingItems, v.nesting_lossy, nestingItems_lossy items, nestingItems]

theorem nestingMembers_lossy : ∀ members : List (RawText × Value),
    nestingMembers (lossyMembers members) = nestingMembers members
  | [] => rfl
  | (name, v) :: members => by
    rw [lossyMembers, nestingMembers, v.nesting_lossy, nestingMembers_lossy members,
      nestingMembers]

end

/-! ## Printing and reading back -/

/-- What a value prints are the leaves of the value with the bytes replaced. -/
theorem Value.print_eq_spelling (v : Value) :
    v.print = (v.lossy.leaves 0).flatMap Leaf.spelling := by
  rw [v.print_eq 0, printedLeaves_eq_spelling, v.leaves_lossy]

theorem Value.print_lossy (v : Value) : v.lossy.print = v.print := by
  rw [v.lossy.print_eq 0, v.leaves_lossy, printedLeaves_lossy, v.print_eq 0]

/-- **What a value of a text prints is the value with the bytes replaced, written down.** -/
theorem Value.print_written {v : Value} {text : Bytes} (h : WrittenText [v] text) :
    WrittenText [v.lossy] v.print := by
  obtain ⟨ps, trail, hlaid⟩ := h.laidText
  have hspells := hlaid.spells
  rw [rootLeaves_singleton] at hspells
  rw [v.print_eq_spelling]
  refine writtenText_spelling ?_
  intro l hl
  rw [v.leaves_lossy] at hl
  obtain ⟨m, hm, rfl⟩ := List.mem_map.1 hl
  exact (hspells m hm).lossy

theorem kinds_of_shows {w : Window} {ts : List Token} {ls : List Leaf}
    (h : List.Forall₂ (Shows w) ts ls) : ts.map (fun t => (t.kind, t.depth)) =
      ls.map fun l => (l.kind, min l.depth maxReportedDepth) := by
  induction h with
  | nil => rfl
  | cons hs _ ih => rw [List.map_cons, List.map_cons, ih, hs.kind, hs.depth]

/-- The tokens of a text of one value have the kinds and the depths of its leaves. -/
theorem Tokenizer.kinds_of_written {text : Bytes} {v : Value} (h : WrittenText [v] text)
    (hv : v.nesting ≤ maxTreeDepth) :
    (({} : Tokenizer).parse text).1.tokens.map (fun t => (t.kind, t.depth)) =
      (v.leaves 0).map fun l => (l.kind, min l.depth maxReportedDepth) := by
  have hshow := Tokenizer.tokens_show_leaves {} (accepted_of_written h hv) h
  rw [rootLeaves_singleton] at hshow
  exact kinds_of_shows hshow

/-- **A value of a text prints a text that reads back as the value with the bytes that are not
UTF-8 replaced, by tokens of the same kinds and depths, and prints the same again.** -/
theorem parseValue_print {text : Bytes} {v : Value} (h : (parseValue text).1 = .ok v) :
    (parseValue v.print).1 = .ok v.lossy ∧
    (({} : Tokenizer).parse v.print).1.tokens.map (fun t => (t.kind, t.depth)) =
      (({} : Tokenizer).parse text).1.tokens.map (fun t => (t.kind, t.depth)) ∧
    v.lossy.print = v.print := by
  obtain ⟨hv, hn⟩ := parseValue_eq_ok_iff.1 h
  have hlossy := Value.print_written hv
  have hnesting : v.lossy.nesting ≤ maxTreeDepth := by rwa [v.nesting_lossy]
  refine ⟨parseValue_of_written hlossy hnesting, ?_, v.print_lossy⟩
  rw [Tokenizer.kinds_of_written hlossy hnesting, Tokenizer.kinds_of_written hv hn, v.leaves_lossy,
    List.map_map]
  refine List.map_congr_left ?_
  intro l _
  rw [Function.comp_apply, l.lossy_kind, l.lossy_depth]

/-- A string of the first byte of a longer character and `\n`, written as an escape. -/
theorem parseValue_print_broken :
    (parseValue [0x22, 0xE2, 0x5C, 0x6E, 0x22]).1 = .ok (.string ⟨[0xE2, 0x5C, 0x6E]⟩) ∧
    (parseValue [0x22, 0xEF, 0xBF, 0xBD, 0x5C, 0x6E, 0x22]).1 =
      .ok (.string ⟨[0xEF, 0xBF, 0xBD, 0x5C, 0x6E]⟩) := by
  have h : (parseValue [0x22, 0xE2, 0x5C, 0x6E, 0x22]).1 =
      .ok (.string ⟨[0xE2, 0x5C, 0x6E]⟩) := rfl
  have hprint : (Value.string ⟨[0xE2, 0x5C, 0x6E]⟩).print =
      [0x22, 0xEF, 0xBF, 0xBD, 0x5C, 0x6E, 0x22] := by decide +kernel
  have hlossy : (Value.string ⟨[0xE2, 0x5C, 0x6E]⟩).lossy =
      .string ⟨[0xEF, 0xBF, 0xBD, 0x5C, 0x6E]⟩ := rfl
  have hback := (parseValue_print h).1
  rw [hprint, hlossy] at hback
  exact ⟨h, hback⟩

end FlatJson
