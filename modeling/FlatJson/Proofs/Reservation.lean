import FlatJson.Proofs.Extents
import FlatJson.Proofs.UniformArrays
import Mathlib.Algebra.Group.Nat.Defs

/-!
# One reservation for an array of elements alike

The room for a large array is reserved before the scan.  If all elements have the same number of
tokens, the estimate counts one separator for each of them and so one more than there are: with no
headroom at all it still leaves a token to spare.  The limit of one token a byte cannot undercut the
scan either, which never makes more tokens than that.

* `Value.length_leaves` — how many leaves a value has is the same at every depth.
* `length_itemLeaves` — the leaves of elements alike, with the commas between them.
* `Room.pushMany_of_le` — what is pushed into reserved room does not grow it.
* `Tokenizer.roomAfter` — the room that a parse has.
* `Tokenizer.one_reservation_of_uniform` — the reservation is the only change.
-/

namespace FlatJson

/-! ## Leaves of elements -/

mutual

/-- How many leaves a value has does not depend on its depth. -/
theorem Value.length_leaves : ∀ (v : Value) (depth : Nat),
    (v.leaves depth).length = (v.leaves 0).length
  | .null, _ => rfl
  | .bool true, _ => rfl
  | .bool false, _ => rfl
  | .number _, _ => rfl
  | .string _, _ => rfl
  | .array items, depth => by
    have hhere := length_itemLeaves_eq items (depth + 1) false
    have hroot := length_itemLeaves_eq items (0 + 1) false
    simp only [Value.leaves, List.length_cons, List.length_append]
    omega
  | .object members, depth => by
    have hhere := length_memberLeaves_eq members (depth + 1) false
    have hroot := length_memberLeaves_eq members (0 + 1) false
    simp only [Value.leaves, List.length_cons, List.length_append]
    omega

theorem length_itemLeaves_eq : ∀ (items : List Value) (depth : Nat) (comma : Bool),
    (itemLeaves depth items comma).length = (itemLeaves 0 items comma).length
  | [], _, _ => rfl
  | v :: items, depth, comma => by
    have hvalue := v.length_leaves depth
    have hrest := length_itemLeaves_eq items depth true
    cases comma <;> simp [itemLeaves, hvalue, hrest]

theorem length_memberLeaves_eq : ∀ (members : List (RawText × Value)) (depth : Nat) (comma : Bool),
    (memberLeaves depth members comma).length = (memberLeaves 0 members comma).length
  | [], _, _ => rfl
  | (name, v) :: members, depth, comma => by
    have hvalue := v.length_leaves depth
    have hrest := length_memberLeaves_eq members depth true
    cases comma <;> simp [memberLeaves, hvalue, hrest]

end

variable {length tokens : Nat} {parts : List Bytes}

/-- Each element has its leaves and the comma before it. -/
theorem length_itemLeaves {items : List Value} (h : ∀ v ∈ items, (v.leaves 0).length = tokens)
    (depth : Nat) : (itemLeaves depth items true).length = items.length * (tokens + 1) := by
  induction items with
  | nil => simp [itemLeaves]
  | cons v items ih =>
    obtain ⟨hv, hitems⟩ := List.forall_mem_cons.1 h
    have hrest := ih hitems
    have hvalue := v.length_leaves depth
    simp only [itemLeaves, List.length_append, List.length_cons, Nat.succ_mul, if_true,
      List.length_nil]
    omega

/-- The elements of an array are those that its parts are derived from. -/
theorem exists_writtenItems (hne : parts ≠ []) (h : ∀ s ∈ parts, IsElement length tokens s) :
    ∃ items, WrittenItems items (List.intercalate [0x2C] parts) ∧ items.length = parts.length ∧
      ∀ v ∈ items, (v.leaves 0).length = tokens := by
  induction parts with
  | nil => exact absurd rfl hne
  | cons s parts ih =>
    obtain ⟨hs, hparts⟩ := List.forall_mem_cons.1 h
    obtain ⟨⟨v, hv⟩, -, t, ht, rfl⟩ := hs
    have hleaves := hv.leaves_length ht
    cases parts with
    | nil =>
      refine ⟨[v], ?_, rfl, by simpa using hleaves⟩
      simpa [List.intercalate] using WrittenItems.one .nil hv .nil
    | cons r parts =>
      obtain ⟨items, hitems, hlen, hall⟩ := ih (List.cons_ne_nil r parts) hparts
      refine ⟨v :: items, ?_, by simp [hlen], ?_⟩
      · simpa [List.intercalate] using WrittenItems.more .nil hv .nil hitems
      · exact List.forall_mem_cons.2 ⟨hleaves, hall⟩

/-- The tokens of the array: those of its elements with a comma between any two, and two
brackets. -/
theorem Tokenizer.length_tokens_uniform (t : Tokenizer) {u w : Bytes} (hne : parts ≠ [])
    (hparts : ∀ s ∈ parts, IsElement length tokens s) (hu : Blank u) (hw : Blank w)
    (herr : (t.parse (u ++ (0x5B :: elementsText parts) ++ w)).1.error = none) :
    (t.parse (u ++ (0x5B :: elementsText parts) ++ w)).1.tokens.length =
      parts.length * (tokens + 1) + 1 := by
  obtain ⟨items, hitems, hlen, hall⟩ := exists_writtenItems hne hparts
  have htext : WrittenText [.array items] (u ++ (0x5B :: elementsText parts) ++ w) :=
    .one hu (.array hitems) hw
  have hshow := (t.tokens_show_leaves herr htext).length_eq
  have hcommas := length_itemLeaves hall (0 + 1)
  rw [itemLeaves_true _ hitems.ne_nil, hlen, List.length_cons] at hcommas
  rw [hshow, rootLeaves_singleton, Value.leaves, List.length_cons, List.length_append,
    List.length_singleton]
  omega

/-! ## Room -/

/-- What there is room for does not grow the buffer. -/
theorem Room.pushMany_of_le (n : Nat) (r : Room) (h : r.used + n ≤ r.capacity) :
    pushMany n r = ⟨r.used + n, r.capacity⟩ := by
  induction n generalizing r with
  | zero => rfl
  | succ n ih =>
    have hroom : r.used < r.capacity := by omega
    have hpush : r.push = ⟨r.used + 1, r.capacity⟩ := by rw [push, if_pos hroom]
    have hle : r.used + 1 + n ≤ r.capacity := by omega
    have hmany := ih ⟨r.used + 1, r.capacity⟩ hle
    rw [pushMany, hpush, hmany, Nat.add_assoc, Nat.add_comm 1]

/-- A buffer is prepared by one reservation, or by none if there is room. -/
theorem Tokenizer.prepare_eq (room : Room) (shape : Shape) (wanted : Nat) :
    prepare room shape wanted = (⟨0, max room.capacity wanted⟩,
      if room.capacity < wanted then
        [.roomReserved wanted room.capacity shape.estimatedElements]
      else []) := by
  unfold prepare
  by_cases hlt : room.capacity < wanted
  · simp [Room.clear, Room.reserve, hlt]
  · have hmax : max room.capacity wanted = room.capacity := Nat.max_eq_left (Nat.le_of_not_lt hlt)
    simp [Room.clear, hlt, hmax]

/-- Below the largest count, the estimated number of tokens is what it is meant to be. -/
theorem Shape.estimatedTokens_eq {s : Shape} (htokens : s.tokensPerElement + 1 ≤ maxCount)
    (h : s.estimatedElements * (s.tokensPerElement + 1) + 2 ≤ maxCount) :
    s.estimatedTokens = s.estimatedElements * (s.tokensPerElement + 1) + 2 := by
  have hproduct : s.estimatedElements * (s.tokensPerElement + 1) ≤ maxCount := by omega
  rw [estimatedTokens, addCount, mulCount, addCount, Nat.min_eq_left htokens,
    Nat.min_eq_left hproduct, Nat.min_eq_left h]

/-- For a large array, no less room is wanted than a number of tokens that neither the estimate nor
the length of the text is below. -/
theorem Shape.le_wantedRoom {s : Shape} {settings : TokenizerSettings} {bytes count : Nat}
    (hlarge : s.isLargeArray) (hestimate : count ≤ s.estimatedTokens) (hbytes : count ≤ bytes) :
    count ≤ s.wantedRoom settings bytes := by
  have hmax : s.estimatedTokens ≤ maxCount := Nat.min_le_right _ _
  have hsum : count ≤ addCount s.estimatedTokens
      (mulCount s.estimatedTokens settings.headroomPercent / 100) := by
    rw [addCount]
    omega
  have hlimit : count ≤ max bytes settings.initialCapacity :=
    Nat.le_trans hbytes (Nat.le_max_left _ _)
  rw [wantedRoom, if_pos hlarge]
  exact Nat.le_min.2 ⟨hsum, hlimit⟩

/-! ## Parses -/

namespace Tokenizer

/-- The token buffer in a parse of a text, after so many tokens. -/
def roomAfter (t : Tokenizer) (text : Bytes) (count : Nat) : Room :=
  (prepare t.room (t.parse text).1.shape (t.wanted text)).1.pushMany count

/-- The room at the end of a parse is what there is after the last token. -/
theorem parse_capacity (t : Tokenizer) (text : Bytes) : (t.parse text).2.1.capacity =
    (t.roomAfter text (t.parse text).1.tokens.length).capacity := rfl

/-- Room for all tokens is not grown by any of them. -/
theorem roomAfter_of_le (t : Tokenizer) (text : Bytes) {count : Nat} (h : count ≤ t.wanted text) :
    t.roomAfter text count = ⟨count, max t.capacity (t.wanted text)⟩ := by
  have hfits : 0 + count ≤ max t.capacity (t.wanted text) := by omega
  have hmany := Room.pushMany_of_le count ⟨0, max t.capacity (t.wanted text)⟩ hfits
  rw [Nat.zero_add] at hmany
  rw [roomAfter, prepare_eq]
  exact hmany

/-- The records of a parse that detects the shape: the shape, and a reservation if one is made. -/
theorem parse_events (t : Tokenizer) (text : Bytes) (h : t.settings.detectsShape) :
    (t.parse text).2.2 = .shapeDetected (t.parse text).1.shape text.length ::
      if t.capacity < t.wanted text then
        [.roomReserved (t.wanted text) t.capacity (t.parse text).1.shape.estimatedElements]
      else [] := by
  have hprepare := prepare_eq t.room (t.parse text).1.shape (t.wanted text)
  have hevents : (t.parse text).2.2 = (findShape t.settings text).2 ++
      (prepare t.room (t.parse text).1.shape (t.wanted text)).2 := rfl
  have hshape : (t.parse text).1.shape = detectShape t.settings.shape text := by
    rw [parse_fst, findShape, if_pos h]
  have hfound : (findShape t.settings text).2 =
      [.shapeDetected (t.parse text).1.shape text.length] := by
    rw [hshape, findShape, if_pos h]
  rw [hevents, hprepare, hfound]
  rfl

/-- **A large array of elements alike is tokenized with one reservation at most.**  What is wanted
is worked out from the exact number of elements and of their tokens; no token of the scan grows the
buffer beyond that and what was there before. -/
theorem one_reservation_of_uniform (t : Tokenizer) {parts : List Bytes} {u w text : Bytes}
    {length tokens : Nat} (hne : parts ≠ []) (hparts : ∀ s ∈ parts, IsElement length tokens s)
    (hu : Blank u) (hw : Blank w)
    (htext : text = u ++ 0x5B :: (List.intercalate [0x2C] parts ++ 0x5D :: w))
    (hshort : text.length < 2 ^ 32) (hdetects : t.settings.detectsShape)
    (hmost : 1 ≤ t.settings.shape.sampleElements)
    (hwindow : length < t.settings.shape.sampleWindow)
    (hlarge : t.settings.shape.largeArrayThreshold < parts.length)
    (herr : (t.parse text).1.error = none) :
    t.wanted text = (⟨true, parts.length, tokens⟩ : Shape).wantedRoom t.settings text.length ∧
    (t.parse text).2.1.capacity = max t.capacity (t.wanted text) ∧
    (∀ count ≤ (t.parse text).1.tokens.length,
      t.roomAfter text count = ⟨count, max t.capacity (t.wanted text)⟩) ∧
    (t.parse text).2.2 = .shapeDetected ⟨true, parts.length, tokens⟩ text.length ::
      if t.capacity < t.wanted text then
        [.roomReserved (t.wanted text) t.capacity parts.length]
      else [] := by
  rw [elementsText_padded] at htext
  have hshape : (t.parse text).1.shape = ⟨true, parts.length, tokens⟩ := by
    rw [parse_fst, findShape, if_pos hdetects, htext]
    rw [htext] at hshort
    rw [detectShape_elementsText hne hparts hu hw hshort hmost hwindow, decide_eq_true hlarge]
  have hcount : (t.parse text).1.tokens.length = parts.length * (tokens + 1) + 1 := by
    rw [htext] at herr ⊢
    exact t.length_tokens_uniform hne hparts hu hw herr
  have hbytes : (t.parse text).1.tokens.length ≤ text.length := by
    obtain ⟨-, hstop, hle⟩ := t.inOrder_parse text
    exact Nat.le_trans hstop hle
  have hestimate : (⟨true, parts.length, tokens⟩ : Shape).estimatedTokens =
      parts.length * (tokens + 1) + 2 := by
    have hpos : 0 < parts.length := List.length_pos_iff.2 hne
    have hle : tokens + 1 ≤ parts.length * (tokens + 1) := Nat.le_mul_of_pos_left _ hpos
    have hmax : 2 ^ 32 ≤ maxCount := by decide
    exact Shape.estimatedTokens_eq (by dsimp only; omega) (by dsimp only; omega)
  -- The estimate has a token to spare, and the text a byte for every token.
  have hroom : (t.parse text).1.tokens.length ≤ t.wanted text := by
    rw [wanted, hshape]
    exact Shape.le_wantedRoom rfl (by omega) hbytes
  have hafter : ∀ count ≤ (t.parse text).1.tokens.length,
      t.roomAfter text count = ⟨count, max t.capacity (t.wanted text)⟩ := fun count hle =>
    t.roomAfter_of_le text (Nat.le_trans hle hroom)
  refine ⟨by rw [wanted, hshape], ?_, hafter, ?_⟩
  · rw [parse_capacity, hafter _ (Nat.le_refl _)]
  · rw [t.parse_events text hdetects, hshape]

/-- The array `[null,true,null]` between blanks, sampled through a window that cuts the second
element, without headroom: of the eight tokens that room is reserved for, it has seven. -/
theorem one_reservation_of_uniform_cut :
    (∀ s ∈ [Keyword.null.spelling, Keyword.yes.spelling, Keyword.null.spelling],
      IsElement 4 1 s) ∧
    (({ settings.shape := { largeArrayThreshold := 2, sampleWindow := 7 }
        settings.initialCapacity := 0, settings.headroomPercent := 0
        capacity := 5 } : Tokenizer).parse
      ([0x20] ++ 0x5B :: (List.intercalate [0x2C]
        [Keyword.null.spelling, Keyword.yes.spelling, Keyword.null.spelling] ++
          0x5D :: [0x0A]))).1.error = none ∧
    (({ settings.shape := { largeArrayThreshold := 2, sampleWindow := 7 }
        settings.initialCapacity := 0, settings.headroomPercent := 0
        capacity := 5 } : Tokenizer).parse
      ([0x20] ++ 0x5B :: (List.intercalate [0x2C]
        [Keyword.null.spelling, Keyword.yes.spelling, Keyword.null.spelling] ++
          0x5D :: [0x0A]))).2.1.capacity = 8 := by
  have hnull : IsElement 4 1 Keyword.null.spelling := .keyword .null
  have hyes : IsElement 4 1 Keyword.yes.spelling := .keyword .yes
  have hparts : ∀ s ∈ [Keyword.null.spelling, Keyword.yes.spelling, Keyword.null.spelling],
      IsElement 4 1 s := by
    simp [hnull, hyes]
  have hbefore : Blank [0x20] := .cons rfl .nil
  have hafter : Blank [0x0A] := .cons rfl .nil
  obtain ⟨hwanted, hcapacity, -, -⟩ := one_reservation_of_uniform
    { settings.shape := { largeArrayThreshold := 2, sampleWindow := 7 }
      settings.initialCapacity := 0, settings.headroomPercent := 0, capacity := 5 }
    (List.cons_ne_nil _ _) hparts hbefore hafter rfl (by decide) rfl
    (by decide) (by decide) (by decide) (by decide)
  refine ⟨hparts, by decide, hcapacity.trans ?_⟩
  rw [hwanted]
  decide

end Tokenizer

end FlatJson
