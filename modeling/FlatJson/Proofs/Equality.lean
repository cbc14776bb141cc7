import FlatJson.Proofs.Decoding
import FlatJson.Proofs.Printing

/-!
# When two values are equal

Values are compared as written: numbers and strings by their bytes, containers part by part.  That
is equality of trees, and two texts have equal values just when they differ in blanks only.

* `Value.eq_of_beq`, `Value.beq_self` — the comparison decides equality.
* `WrittenText.compact` — a text of one value stays one when it is made compact.
* `parseValue_beq_iff` — equal values and compact texts.
-/

namespace FlatJson

/-! ## The comparison -/

mutual

theorem Value.eq_of_beq : ∀ {v w : Value}, v.beq w → v = w
  | .null, .null, _ => rfl
  | .bool _, .bool _, h => by
    rw [Value.beq] at h
    rw [LawfulBEq.eq_of_beq h]
  | .number _, .number _, h => by
    rw [Value.beq] at h
    rw [LawfulBEq.eq_of_beq h]
  | .string _, .string _, h => by
    rw [Value.beq] at h
    rw [LawfulBEq.eq_of_beq h]
  | .array _, .array _, h => by
    rw [Value.beq] at h
    rw [eq_of_beqItems h]
  | .object _, .object _, h => by
    rw [Value.beq] at h
    rw [eq_of_beqMembers h]

theorem eq_of_beqItems : ∀ {vs ws : List Value}, Value.beqItems vs ws → vs = ws
  | [], [], _ => rfl
  | v :: vs, w :: ws, h => by
    rw [Value.beqItems] at h
    split at h
    · rename_i hv
      rw [Value.eq_of_beq hv, eq_of_beqItems h]
    · cases h

theorem eq_of_beqMembers : ∀ {ms ns : List (RawText × Value)}, Value.beqMembers ms ns → ms = ns
  | [], [], _ => rfl
  | (k, v) :: ms, (l, w) :: ns, h => by
    rw [Value.beqMembers] at h
    split at h
    · rename_i hv
      obtain ⟨hk, hv⟩ := Bool.and_eq_true_iff.1 hv
      rw [LawfulBEq.eq_of_beq hk, Value.eq_of_beq hv, eq_of_beqMembers h]
    · cases h

end

mutual

theorem Value.beq_self : ∀ v : Value, v.beq v
  | .null => rfl
  | .bool b => by rw [Value.beq, beq_self_eq_true]
  | .number n => by rw [Value.beq, beq_self_eq_true]
  | .string s => by rw [Value.beq, beq_self_eq_true]
  | .array items => by rw [Value.beq, beqItems_self items]
  | .object members => by rw [Value.beq, beqMembers_self members]

theorem beqItems_self : ∀ vs : List Value, Value.beqItems vs vs
  | [] => rfl
  | v :: vs => by rw [Value.beqItems, if_pos v.beq_self, beqItems_self vs]

theorem beqMembers_self : ∀ ms : List (RawText × Value), Value.beqMembers ms ms
  | [] => rfl
  | (k, v) :: ms => by
    rw [Value.beqMembers, beq_self_eq_true, v.beq_self, Bool.and_self, if_pos rfl,
      beqMembers_self ms]

end

/-- **Values that compare equal are the same tree.** -/
instance : LawfulBEq Value where
  eq_of_beq := Value.eq_of_beq
  rfl := Value.beq_self _

/-! ## Compact texts -/

namespace WrittenText

variable {v : Value} {text : Bytes}

/-- Of a text of one value, the leaves of the value are left. -/
theorem compact_eq (h : WrittenText [v] text) :
    compact text = (v.leaves 0).flatMap Leaf.spelling := by
  obtain ⟨ps, trail, hl⟩ := h.laidText
  rw [hl.text_eq, compact_spread hl.proper hl.blank, hl.leaves, rootLeaves_singleton]

/-- A text of one value stays one when it is made compact. -/
theorem compact (h : WrittenText [v] text) : WrittenText [v] (compact text) := by
  obtain ⟨ps, trail, hl⟩ := h.laidText
  have hspells := hl.spells
  rw [rootLeaves_singleton] at hspells
  rw [h.compact_eq]
  exact writtenText_spelling hspells

end WrittenText

/-! ## Equal values -/

/-- **Two texts have equal values just when they are the same without the blanks outside their
strings.** -/
theorem parseValue_beq_iff {a b : Bytes} {v w : Value} (ha : (parseValue a).1 = .ok v)
    (hb : (parseValue b).1 = .ok w) : v == w ↔ compact a = compact b := by
  obtain ⟨hv, hnv⟩ := parseValue_eq_ok_iff.1 ha
  obtain ⟨hw, hnw⟩ := parseValue_eq_ok_iff.1 hb
  rw [beq_iff_eq]
  constructor
  · rintro rfl
    rw [hv.compact_eq, hw.compact_eq]
  · intro h
    -- The compact text of both is read once, so it has one value.
    have hread : (parseValue (compact a)).1 = .ok v := parseValue_of_written hv.compact hnv
    rw [h, parseValue_of_written hw.compact hnw] at hread
    exact (Except.ok.inj hread).symm

/-- The texts `[1 ]` and ` [1]` of one value, and the text `[1.0]` of another. -/
theorem parseValue_beq_iff_array :
    compact [0x5B, 0x31, 0x20, 0x5D] = compact [0x20, 0x5B, 0x31, 0x5D] ∧
    ¬ Value.array [.number ⟨[0x31]⟩] == .array [.number ⟨[0x31, 0x2E, 0x30]⟩] := by
  have hone : (parseValue [0x5B, 0x31, 0x20, 0x5D]).1 = .ok (.array [.number ⟨[0x31]⟩]) := rfl
  have htwo : (parseValue [0x20, 0x5B, 0x31, 0x5D]).1 = .ok (.array [.number ⟨[0x31]⟩]) := rfl
  have hthree : (parseValue [0x5B, 0x31, 0x2E, 0x30, 0x5D]).1 =
      .ok (.array [.number ⟨[0x31, 0x2E, 0x30]⟩]) := rfl
  refine ⟨(parseValue_beq_iff hone htwo).1 (beq_self_eq_true _), ?_⟩
  rw [parseValue_beq_iff hone hthree]
  decide

end FlatJson
