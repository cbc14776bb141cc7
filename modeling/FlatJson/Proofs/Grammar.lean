import FlatJson.Scan.State
import FlatJson.Tree.Value

/-!
# The grammar of JSON texts

The productions of the grammar over bytes, as inductive predicates that know nothing of the
scanner.  A derivation of a value is indexed by the value it derives, so that the tree of a text
is a `Value`.

* `Blank`, `IsNumber`, `IsContent` — blanks, numbers, and what stands between two quotes.
* `Value.Written` — the bytes of one value, blanks inside its containers included.
* `WrittenText` — one value or several, with blanks around them.
* `Value.nesting` — how deep the containers of a value nest.
* `InLanguage` — the texts that given limits admit.

Strings may hold any byte from 0x20 on, UTF-8 or not, and surrogates need not be paired.
-/

namespace FlatJson

/-! ## Bytes -/

/-- A property of every byte is decided by trying them all. -/
instance decidableForallByte {P : UInt8 → Prop} [DecidablePred P] : Decidable (∀ b, P b) :=
  decidable_of_iff (∀ n : Fin 256, P (UInt8.ofFin n)) <| by
    constructor
    · intro h b
      exact h b.toFin
    · intro h n
      exact h _

/-! ## Blanks and numbers -/

/-- Blank bytes only. -/
def Blank (s : Bytes) : Prop := ∀ b ∈ s, Byte.isBlank b

instance (s : Bytes) : Decidable (Blank s) := List.decidableBAll (fun b => Byte.isBlank b) s

/-- Decimal digits only. -/
def AllDigits (s : Bytes) : Prop := ∀ b ∈ s, Byte.isDigit b

/-- The digits before the point: a zero alone, or digits that do not start with a zero. -/
inductive IsWhole : Bytes → Prop
  | zero : IsWhole [0x30]
  | digits {b : UInt8} {s : Bytes} :
      Byte.isDigit b → b ≠ 0x30 → AllDigits s → IsWhole (b :: s)

/-- The point and the digits after it, if there are any. -/
inductive IsFraction : Bytes → Prop
  | absent : IsFraction []
  | present {s : Bytes} : s ≠ [] → AllDigits s → IsFraction (0x2E :: s)

/-- The letter of the exponent, its sign and its digits, if there are any. -/
inductive IsExponent : Bytes → Prop
  | absent : IsExponent []
  | present {b : UInt8} {sign s : Bytes} :
      Scan.isExponentLetter b → sign ∈ [[], [0x2B], [0x2D]] → s ≠ [] → AllDigits s →
      IsExponent (b :: (sign ++ s))

/-- A number: an optional minus sign, whole digits, an optional fraction and exponent. -/
inductive IsNumber : Bytes → Prop
  | mk {sign whole fraction exponent : Bytes} :
      sign ∈ [[], [0x2D]] → IsWhole whole → IsFraction fraction → IsExponent exponent →
      IsNumber (sign ++ whole ++ fraction ++ exponent)

/-! ## Strings -/

/-- What may stand between two quotes: bytes that stand for themselves, short escapes, and
numeric escapes of four hexadecimal digits. -/
inductive IsContent : Bytes → Prop
  | nil : IsContent []
  | plain {b : UInt8} {s : Bytes} :
      0x20 ≤ b → b ≠ Byte.quote → b ≠ Byte.backslash → IsContent s → IsContent (b :: s)
  | short {b : UInt8} {s : Bytes} :
      Scan.isShortEscape b → IsContent s → IsContent (Byte.backslash :: b :: s)
  | unit {h₁ h₂ h₃ h₄ : UInt8} {s : Bytes} :
      Byte.isHexDigit h₁ → Byte.isHexDigit h₂ → Byte.isHexDigit h₃ → Byte.isHexDigit h₄ →
      IsContent s → IsContent (Byte.backslash :: 0x75 :: h₁ :: h₂ :: h₃ :: h₄ :: s)

/-- Bytes in quotes. -/
def quoted (s : Bytes) : Bytes := Byte.quote :: (s ++ [Byte.quote])

/-! ## Values -/

mutual

/-- The bytes of a value, without blanks around it. -/
inductive Value.Written : Value → Bytes → Prop
  | null : Value.Written .null Keyword.null.spelling
  | yes : Value.Written (.bool true) Keyword.yes.spelling
  | no : Value.Written (.bool false) Keyword.no.spelling
  | number {s : Bytes} : IsNumber s → Value.Written (.number ⟨s⟩) s
  | string {s : Bytes} : IsContent s → Value.Written (.string ⟨s⟩) (quoted s)
  | emptyArray {u : Bytes} : Blank u → Value.Written (.array []) (0x5B :: (u ++ [0x5D]))
  | array {items : List Value} {s : Bytes} :
      WrittenItems items s → Value.Written (.array items) (0x5B :: (s ++ [0x5D]))
  | emptyObject {u : Bytes} : Blank u → Value.Written (.object []) (0x7B :: (u ++ [0x7D]))
  | object {members : List (RawText × Value)} {s : Bytes} :
      WrittenMembers members s → Value.Written (.object members) (0x7B :: (s ++ [0x7D]))

/-- The bytes of one element or several, with commas between them. -/
inductive WrittenItems : List Value → Bytes → Prop
  | one {v : Value} {u s w : Bytes} :
      Blank u → v.Written s → Blank w → WrittenItems [v] (u ++ s ++ w)
  | more {v : Value} {items : List Value} {u s w t : Bytes} :
      Blank u → v.Written s → Blank w → WrittenItems items t →
      WrittenItems (v :: items) (u ++ s ++ w ++ 0x2C :: t)

/-- The bytes of one member or several, with commas between them. -/
inductive WrittenMembers : List (RawText × Value) → Bytes → Prop
  | one {name : Bytes} {v : Value} {a b c s w : Bytes} :
      Blank a → IsContent name → Blank b → Blank c → v.Written s → Blank w →
      WrittenMembers [(⟨name⟩, v)] (a ++ quoted name ++ b ++ 0x3A :: (c ++ s ++ w))
  | more {name : Bytes} {v : Value} {members : List (RawText × Value)} {a b c s w t : Bytes} :
      Blank a → IsContent name → Blank b → Blank c → v.Written s → Blank w →
      WrittenMembers members t →
      WrittenMembers ((⟨name⟩, v) :: members)
        (a ++ quoted name ++ b ++ 0x3A :: (c ++ s ++ w ++ 0x2C :: t))

end

/-! ## Texts -/

/-- Whether the bytes go on with a digit. -/
def StartsWithDigit (s : Bytes) : Prop := ∃ b ∈ s.head?, Byte.isDigit b

/-- The bytes of one value or several, with blanks around them.  Blanks between two values may be
missing, but a number is not followed by a digit. -/
inductive WrittenText : List Value → Bytes → Prop
  | one {v : Value} {u s w : Bytes} :
      Blank u → v.Written s → Blank w → WrittenText [v] (u ++ s ++ w)
  | more {v : Value} {roots : List Value} {u s t : Bytes} :
      Blank u → v.Written s → WrittenText roots t →
      (v.asNumber?.isSome → ¬ StartsWithDigit t) → WrittenText (v :: roots) (u ++ s ++ t)

mutual

/-- How many containers nest in a value, itself included. -/
def Value.nesting : Value → Nat
  | .array items => nestingItems items + 1
  | .object members => nestingMembers members + 1
  | _ => 0

/-- The deepest nesting among elements. -/
def nestingItems : List Value → Nat
  | [] => 0
  | v :: items => max v.nesting (nestingItems items)

/-- The deepest nesting among the values of members. -/
def nestingMembers : List (RawText × Value) → Nat
  | [] => 0
  | (_, v) :: members => max v.nesting (nestingMembers members)

end

/-- The texts of the language under given limits: one value, or several where they are allowed,
none of which nests too deep. -/
def InLanguage (limits : Scan.Limits) (text : Bytes) : Prop :=
  ∃ roots, WrittenText roots text ∧ (∀ v ∈ roots, v.nesting ≤ limits.maxDepth) ∧
    (limits.several ∨ roots.length = 1)

/-! ## Small facts -/

theorem Blank.nil : Blank [] := fun _ h => nomatch h

theorem Blank.cons {b : UInt8} {s : Bytes} (hb : Byte.isBlank b) (hs : Blank s) :
    Blank (b :: s) := by
  intro c hc
  rcases List.mem_cons.1 hc with rfl | hc
  · exact hb
  · exact hs c hc

theorem Blank.append {s t : Bytes} (hs : Blank s) (ht : Blank t) : Blank (s ++ t) := by
  intro b hb
  rcases List.mem_append.1 hb with hb | hb
  · exact hs b hb
  · exact ht b hb

theorem AllDigits.append {s t : Bytes} (hs : AllDigits s) (ht : AllDigits t) :
    AllDigits (s ++ t) := by
  intro b hb
  rcases List.mem_append.1 hb with hb | hb
  · exact hs b hb
  · exact ht b hb

theorem not_isControl_iff {b : UInt8} : ¬ Byte.isControl b ↔ 0x20 ≤ b := by
  simp [Byte.isControl]

/-- Bytes that stand for themselves. -/
theorem IsContent.of_forall {s : Bytes}
    (h : ∀ b ∈ s, 0x20 ≤ b ∧ b ≠ Byte.quote ∧ b ≠ Byte.backslash) : IsContent s := by
  induction s with
  | nil => exact .nil
  | cons b s ih =>
    obtain ⟨hle, hq, hb⟩ := h b List.mem_cons_self
    exact .plain hle hq hb (ih fun c hc => h c (List.mem_cons_of_mem _ hc))

theorem IsContent.append {s t : Bytes} (hs : IsContent s) (ht : IsContent t) :
    IsContent (s ++ t) := by
  induction hs with
  | nil => exact ht
  | plain h hq hb _ ih => exact .plain h hq hb ih
  | short he _ ih => exact .short he ih
  | unit h₁ h₂ h₃ h₄ _ ih => exact .unit h₁ h₂ h₃ h₄ ih

theorem AllDigits.single {b : UInt8} (h : Byte.isDigit b) : AllDigits [b] := by
  intro c hc
  rwa [List.mem_singleton.1 hc]

theorem IsWhole.allDigits {s : Bytes} (h : IsWhole s) : AllDigits s := by
  cases h with
  | zero => exact AllDigits.single rfl
  | digits hb _ hs => exact (AllDigits.single hb).append hs

theorem IsWhole.ne_nil {s : Bytes} (h : IsWhole s) : s ≠ [] := by
  cases h <;> exact List.cons_ne_nil _ _

/-- A numeric escape is complete with its fourth digit. -/
theorem IsContent.unit_of_length {s hex : Bytes} (h : IsContent s)
    (hd : ∀ b ∈ hex, Byte.isHexDigit b) (hlen : hex.length = 4) :
    IsContent (s ++ Byte.backslash :: 0x75 :: hex) := by
  match hex, hlen with
  | [h₁, h₂, h₃, h₄], _ =>
    have hunit : IsContent [Byte.backslash, 0x75, h₁, h₂, h₃, h₄] :=
      .unit (hd h₁ (by simp)) (hd h₂ (by simp)) (hd h₃ (by simp)) (hd h₄ (by simp)) .nil
    exact h.append hunit

end FlatJson
