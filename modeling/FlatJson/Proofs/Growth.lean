import FlatJson.Proofs.Reservation

/-!
# The room of a tokenizer that is used again

A tokenizer keeps its room from one text to the next.  What a text needs is the same each time: the
room that its shape asks for, and room for its tokens.  Once a tokenizer has been through a text it
has both, and has them from then on.

* `Room.pushMany_fits` — tokens that are added have room.
* `Tokenizer.capacity_parse_le` — the room stays within the limit.
* `Tokenizer.Use`, `Tokenizer.run` — what is done with a tokenizer, one thing after the other.
* `Tokenizer.HasRoomFor` — a parse of a text finds all the room that it needs.
* `Tokenizer.HasRoomFor.use`, `Tokenizer.hasRoomFor_of_mem` — one use, and many.

`Tokenizer.room_settles` is about any number of parses and resets.
-/

namespace FlatJson

/-! ## Adding tokens -/

namespace Room

variable {r : Room}

/-- Adding tokens never gives room back. -/
theorem capacity_le_push (r : Room) : r.capacity ≤ r.push.capacity := by
  rw [push]
  dsimp only
  split <;> omega

/-- A token that is added has room if those before it had. -/
theorem push_fits (h : r.used ≤ r.capacity) : r.push.used ≤ r.push.capacity := by
  rw [push]
  dsimp only
  split <;> omega

theorem capacity_le_pushMany (n : Nat) (r : Room) : r.capacity ≤ (pushMany n r).capacity := by
  induction n generalizing r with
  | zero => exact Nat.le_refl _
  | succ n ih => exact Nat.le_trans r.capacity_le_push (ih r.push)

/-- A token that is added doubles no more room than is used, and makes room for four at least. -/
theorem capacity_push_le (r : Room) : r.push.capacity ≤ max r.capacity (max 4 (2 * r.used)) := by
  rw [push]
  dsimp only
  split <;> omega

theorem capacity_pushMany_le (n : Nat) (r : Room) :
    (pushMany n r).capacity ≤ max r.capacity (max 4 (2 * (r.used + n))) := by
  induction n generalizing r with
  | zero => exact Nat.le_max_left _ _
  | succ n ih =>
    have hone := r.capacity_push_le
    have hmany := ih r.push
    have hused : r.push.used = r.used + 1 := rfl
    rw [pushMany]
    omega

theorem pushMany_used (n : Nat) (r : Room) : (pushMany n r).used = r.used + n := by
  induction n generalizing r with
  | zero => rfl
  | succ n ih =>
    rw [pushMany, ih r.push, push]
    exact Nat.add_right_comm r.used 1 n

/-- Tokens that are added have room if those before them had. -/
theorem pushMany_fits (n : Nat) (h : r.used ≤ r.capacity) :
    r.used + n ≤ (pushMany n r).capacity := by
  rw [← pushMany_used]
  induction n generalizing r with
  | zero => exact h
  | succ n ih => exact ih (push_fits h)

end Room

namespace Tokenizer

variable {t u : Tokenizer} {text : Bytes}

/-! ## One parse -/

/-- The tokens of a parse go into an empty buffer with the room that there was or that is
wanted. -/
theorem roomAfter_eq (t : Tokenizer) (text : Bytes) (count : Nat) :
    t.roomAfter text count = Room.pushMany count ⟨0, max t.capacity (t.wanted text)⟩ := by
  rw [roomAfter, prepare_eq]
  rfl

/-- A parse ends with the room that there was, with what was wanted, and with room for all
tokens. -/
theorem le_capacity_parse (t : Tokenizer) (text : Bytes) :
    t.capacity ≤ (t.parse text).2.1.capacity ∧
    t.wanted text ≤ (t.parse text).2.1.capacity ∧
    (t.parse text).1.tokens.length ≤ (t.parse text).2.1.capacity := by
  rw [parse_capacity, roomAfter_eq]
  have hgrows := Room.capacity_le_pushMany (t.parse text).1.tokens.length
    ⟨0, max t.capacity (t.wanted text)⟩
  have hfits := Room.pushMany_fits (r := ⟨0, max t.capacity (t.wanted text)⟩)
    (t.parse text).1.tokens.length (Nat.zero_le _)
  dsimp only at hgrows hfits
  omega

/-- **A parse that has a result never takes the buffer past the limit**, unless the text is of
2⁵⁷ bytes or more: what is reserved is within the limit, and the tokens are too few to pass it. -/
theorem capacity_parse_le (hroom : t.wanted text ≤ max t.capacity Room.limit)
    (hlength : text.length < 0x200000000000000) :
    (t.parse text).2.1.capacity ≤ max t.capacity Room.limit := by
  have hlimit : Room.limit = 0x555555555555555 := rfl
  obtain ⟨-, htokens, hstop⟩ := t.inOrder_parse text
  have hgrown := Room.capacity_pushMany_le (t.parse text).1.tokens.length
    ⟨0, max t.capacity (t.wanted text)⟩
  rw [parse_capacity, roomAfter_eq]
  dsimp only at hgrown
  omega

/-- A parse of the text finds the room that it wants, and room for all its tokens. -/
structure HasRoomFor (t : Tokenizer) (text : Bytes) : Prop where
  wanted_le : t.wanted text ≤ t.capacity
  tokens_le : (t.parse text).1.tokens.length ≤ t.capacity

/-- Room for a text is kept with the settings, where no room is given back. -/
theorem HasRoomFor.mono (h : t.HasRoomFor text) (hs : u.settings = t.settings)
    (hc : t.capacity ≤ u.capacity) : u.HasRoomFor text := by
  constructor
  · rw [wanted_congr hs]
    exact Nat.le_trans h.wanted_le hc
  · have htokens : (u.parse text).1.tokens = (t.parse text).1.tokens := by
      rw [parse_fst, parse_fst, hs]
    rw [htokens]
    exact Nat.le_trans h.tokens_le hc

/-- A text that has been parsed has its room. -/
theorem hasRoomFor_parse (t : Tokenizer) (text : Bytes) : (t.parse text).2.1.HasRoomFor text := by
  have hsettings : (t.parse text).2.1.settings = t.settings := rfl
  obtain ⟨-, hwanted, htokens⟩ := t.le_capacity_parse text
  constructor
  · rwa [wanted_congr hsettings]
  · rwa [parse_fst, hsettings, ← parse_fst]

/-- Where there is room for a text, no token of it grows the buffer. -/
theorem HasRoomFor.roomAfter (h : t.HasRoomFor text) {count : Nat}
    (hcount : count ≤ (t.parse text).1.tokens.length) :
    t.roomAfter text count = ⟨count, t.capacity⟩ := by
  have hfits : 0 + count ≤ t.capacity := by
    have hle := h.tokens_le
    omega
  rw [roomAfter_eq, Nat.max_eq_left h.wanted_le, Room.pushMany_of_le _ _ hfits, Nat.zero_add]

theorem HasRoomFor.parse_capacity (h : t.HasRoomFor text) :
    (t.parse text).2.1.capacity = t.capacity := by
  rw [Tokenizer.parse_capacity, h.roomAfter (Nat.le_refl _)]

/-- Where there is room for a text, none is reserved: there is the record of the shape at most. -/
theorem HasRoomFor.events (h : t.HasRoomFor text) :
    (t.parse text).2.2 = (findShape t.settings text).2 := by
  have hevents : (t.parse text).2.2 = (findShape t.settings text).2 ++
      (prepare t.room (t.parse text).1.shape (t.wanted text)).2 := rfl
  rw [hevents, prepare_eq]
  exact (congrArg _ (if_neg (Nat.not_lt_of_le h.wanted_le))).trans (List.append_nil _)

/-! ## One use after the other -/

/-- What is done with a tokenizer between two looks at its room. -/
inductive Use where
  | parse (text : Bytes)
  | reset
  deriving DecidableEq, Repr

/-- The tokenizer after one use. -/
def use (t : Tokenizer) : Use → Tokenizer
  | .parse text => (t.parse text).2.1
  | .reset => t.reset

/-- The tokenizer after many uses. -/
def run (t : Tokenizer) (uses : List Use) : Tokenizer :=
  uses.foldl use t

theorem use_settings (t : Tokenizer) (a : Use) : (t.use a).settings = t.settings := by
  cases a <;> rfl

theorem capacity_le_use (t : Tokenizer) (a : Use) : t.capacity ≤ (t.use a).capacity := by
  cases a with
  | parse text => exact (t.le_capacity_parse text).1
  | reset => exact Nat.le_refl _

theorem run_append (t : Tokenizer) (uses later : List Use) :
    t.run (uses ++ later) = (t.run uses).run later := by
  rw [run, List.foldl_append]
  rfl

/-- No use takes room away. -/
theorem capacity_le_run (t : Tokenizer) (uses : List Use) : t.capacity ≤ (t.run uses).capacity := by
  induction uses generalizing t with
  | nil => exact Nat.le_refl _
  | cons a uses ih => exact Nat.le_trans (t.capacity_le_use a) (ih (t.use a))

/-- Room for a text is kept by one use. -/
theorem HasRoomFor.use (h : t.HasRoomFor text) (a : Use) : (t.use a).HasRoomFor text :=
  h.mono (t.use_settings a) (t.capacity_le_use a)

theorem HasRoomFor.run (h : t.HasRoomFor text) (uses : List Use) :
    (t.run uses).HasRoomFor text := by
  induction uses generalizing t with
  | nil => exact h
  | cons a uses ih => exact ih (h.use a)

/-- **A text that has been parsed at any time has its room from then on.** -/
theorem hasRoomFor_of_mem {uses : List Use} (h : .parse text ∈ uses) :
    (t.run uses).HasRoomFor text := by
  obtain ⟨before, later, rfl⟩ := List.append_of_mem h
  rw [run_append]
  exact ((t.run before).hasRoomFor_parse text).run later

/-- **The room of a tokenizer settles.**  Parses and resets never give room back, and after a parse
there is room for all tokens.  A text that was parsed before is parsed in the room that is there,
whatever came in between: nothing is reserved, and no token grows the buffer. -/
theorem room_settles (t : Tokenizer) (uses : List Use) :
    (∀ later, (t.run uses).capacity ≤ (t.run (uses ++ later)).capacity) ∧
    (∀ text, ((t.run uses).parse text).1.tokens.length ≤
      ((t.run uses).parse text).2.1.capacity) ∧
    ∀ text, .parse text ∈ uses →
      ((t.run uses).parse text).2.1.capacity = (t.run uses).capacity ∧
      (∀ count ≤ ((t.run uses).parse text).1.tokens.length,
        (t.run uses).roomAfter text count = ⟨count, (t.run uses).capacity⟩) ∧
      ((t.run uses).parse text).2.2 = (findShape (t.run uses).settings text).2 := by
  refine ⟨?_, ?_, ?_⟩
  · intro later
    rw [run_append]
    exact (t.run uses).capacity_le_run later
  · exact fun text => ((t.run uses).le_capacity_parse text).2.2
  · intro text hmem
    have hroom : (t.run uses).HasRoomFor text := hasRoomFor_of_mem hmem
    exact ⟨hroom.parse_capacity, fun count hcount => hroom.roomAfter hcount, hroom.events⟩

/-- The text `[1,2]` has five tokens.  Without room at first it ends with room for eight, and so it
does after a reset and after a text that breaks off. -/
theorem room_settles_array :
    Use.parse [0x5B, 0x31, 0x2C, 0x32, 0x5D] ∈
      [.parse [0x5B, 0x31, 0x2C, 0x32, 0x5D], .reset, .parse [0x5B, 0x31]] ∧
    (({ settings.initialCapacity := 0 } : Tokenizer).run
      [.parse [0x5B, 0x31, 0x2C, 0x32, 0x5D], .reset, .parse [0x5B, 0x31]]).capacity = 8 ∧
    ((({ settings.initialCapacity := 0 } : Tokenizer).run
      [.parse [0x5B, 0x31, 0x2C, 0x32, 0x5D], .reset, .parse [0x5B, 0x31]]).parse
        [0x5B, 0x31, 0x2C, 0x32, 0x5D]).2.1.capacity = 8 := by
  have hmem : Use.parse [0x5B, 0x31, 0x2C, 0x32, 0x5D] ∈
      [.parse [0x5B, 0x31, 0x2C, 0x32, 0x5D], .reset, .parse [0x5B, 0x31]] := List.mem_cons_self
  have hcapacity : (({ settings.initialCapacity := 0 } : Tokenizer).run
      [.parse [0x5B, 0x31, 0x2C, 0x32, 0x5D], .reset, .parse [0x5B, 0x31]]).capacity = 8 := by
    decide
  obtain ⟨-, -, hagain⟩ := room_settles { settings.initialCapacity := 0 }
    [.parse [0x5B, 0x31, 0x2C, 0x32, 0x5D], .reset, .parse [0x5B, 0x31]]
  exact ⟨hmem, hcapacity, (hagain _ hmem).1.trans hcapacity⟩

end Tokenizer

end FlatJson
