import FlatJson.Proofs.Reservation
import Mathlib.Algebra.Group.Nat.Defs

/-!
# Counts that stop at the largest

The room for a large array is worked out from counts that stop at the largest one.  A count that has
stopped is too small, and what is derived from it may be too small by far: of a product that has
stopped, a hundredth is no longer the percentage that was asked for.  All the same the room comes
out as if counts had no limit, because it has a limit of its own, and whatever has stopped is still
beyond that.

* `addCount_min_left`, `mulCount_min_left` — a number that has stopped before an operation, and one
  that stops after it.
* `Shape.tokenCount` — the estimated number of tokens where counts do not stop.
* `Shape.estimatedTokens_eq_min` — the estimate stops once, at the end.
* `headroom_eq_min` — so does the headroom, at a hundredth of the largest count.
* `Shape.unlimitedRoom` — the room for a large array where counts do not stop.

`Shape.wantedRoom_eq_unlimitedRoom` says that the room for a large array is the one without any of
this, and that a buffer reserves it.
-/

namespace FlatJson

variable (a b : Nat)

/-! ## Operations on counts -/

/-- It does not matter whether a summand has stopped. -/
theorem addCount_min_left : addCount (min a maxCount) b = addCount a b := by
  unfold addCount
  omega

/-- It does not matter whether a factor has stopped. -/
theorem mulCount_min_left : mulCount (min a maxCount) b = mulCount a b := by
  unfold mulCount
  rcases Nat.le_total a maxCount with h | h
  · rw [Nat.min_eq_left h]
  · rw [Nat.min_eq_right h]
    cases b with
    | zero => rfl
    | succ b =>
      have hlargest : maxCount ≤ maxCount * (b + 1) := Nat.le_mul_of_pos_right _ b.succ_pos
      have hlarger : maxCount * (b + 1) ≤ a * (b + 1) := Nat.mul_le_mul_right _ h
      rw [Nat.min_eq_right hlargest, Nat.min_eq_right (Nat.le_trans hlargest hlarger)]

theorem mulCount_comm : mulCount a b = mulCount b a := by
  unfold mulCount
  rw [Nat.mul_comm]

theorem mulCount_min_right : mulCount a (min b maxCount) = mulCount a b := by
  rw [mulCount_comm, mulCount_min_left, mulCount_comm]

/-! ## Estimates -/

namespace Shape

/-- The tokens of as many elements, each with a separator, and of the two brackets. -/
def tokenCount (s : Shape) : Nat :=
  s.estimatedElements * (s.tokensPerElement + 1) + 2

/-- **The estimated number of tokens stops at the end and nowhere before.** -/
theorem estimatedTokens_eq_min (s : Shape) : s.estimatedTokens = min s.tokenCount maxCount := by
  have hproduct : mulCount s.estimatedElements (addCount s.tokensPerElement 1) =
      min (s.estimatedElements * (s.tokensPerElement + 1)) maxCount :=
    mulCount_min_right _ _
  rw [estimatedTokens, hproduct]
  exact addCount_min_left _ 2

end Shape

/-- The headroom stops at a hundredth of the largest count, also where its number of tokens has
stopped before. -/
theorem headroom_eq_min (tokens percent : Nat) :
    mulCount (min tokens maxCount) percent / 100 =
      min (tokens * percent / 100) (maxCount / 100) := by
  rw [mulCount_min_left]
  unfold mulCount
  omega

/-- What is limited to less than a hundredth of the largest count does not show where the tokens or
the headroom have stopped. -/
theorem addCount_headroom (tokens percent : Nat) {limit : Nat} (h : limit ≤ maxCount / 100) :
    min (addCount (min tokens maxCount) (mulCount (min tokens maxCount) percent / 100)) limit =
      min (tokens + tokens * percent / 100) limit := by
  rw [headroom_eq_min, addCount_min_left]
  unfold addCount
  omega

/-! ## Room -/

/-- The room for a large array where counts do not stop: the estimated number of tokens with the
headroom, but no more than the text is long or the settings ask for. -/
def Shape.unlimitedRoom (s : Shape) (settings : TokenizerSettings) (length : Nat) : Nat :=
  min (s.tokenCount + s.tokenCount * settings.headroomPercent / 100)
    (max length settings.initialCapacity)

/-- **Counts that stop never change a reservation.**  The estimate is the number of tokens up to the
largest count; the room that is wanted for a large array is the one without a largest count, and it
is what a buffer with less room reserves. -/
theorem Shape.wantedRoom_eq_unlimitedRoom (s : Shape) :
    s.estimatedTokens = min s.tokenCount (2 ^ 64 - 1) ∧
    ∀ (settings : TokenizerSettings) (length : Nat), s.isLargeArray → length < 2 ^ 57 →
      settings.initialCapacity < 2 ^ 57 →
      s.wantedRoom settings length = s.unlimitedRoom settings length ∧
      ∀ room : Room, Tokenizer.prepare room s (s.wantedRoom settings length) =
        (⟨0, max room.capacity (s.unlimitedRoom settings length)⟩,
          if room.capacity < s.unlimitedRoom settings length then
            [.roomReserved (s.unlimitedRoom settings length) room.capacity s.estimatedElements]
          else []) := by
  refine ⟨s.estimatedTokens_eq_min, ?_⟩
  intro settings length hlarge hlength hcapacity
  have hlimit : max length settings.initialCapacity ≤ maxCount / 100 := by
    have hpower : 2 ^ 57 ≤ maxCount / 100 := by decide
    omega
  have hroom : s.wantedRoom settings length = s.unlimitedRoom settings length := by
    rw [wantedRoom, if_pos hlarge, estimatedTokens_eq_min]
    exact addCount_headroom _ _ hlimit
  refine ⟨hroom, ?_⟩
  intro room
  rw [hroom]
  exact Tokenizer.prepare_eq room s _

/-- An estimate of more than `2 ^ 62` tokens, four times as many for the headroom, which stops, and
a text as long as it may be: the room is one token a byte. -/
theorem Shape.wantedRoom_eq_unlimitedRoom_stopped :
    (⟨true, 2 ^ 60, 3⟩ : Shape).estimatedTokens = 2 ^ 62 + 2 ∧
    maxCount < (2 ^ 62 + 2) * 400 ∧
    (⟨true, 2 ^ 60, 3⟩ : Shape).wantedRoom { headroomPercent := 400 } (2 ^ 57 - 1) = 2 ^ 57 - 1 ∧
    Tokenizer.prepare ⟨5, 8⟩ ⟨true, 2 ^ 60, 3⟩
      ((⟨true, 2 ^ 60, 3⟩ : Shape).wantedRoom { headroomPercent := 400 } (2 ^ 57 - 1)) =
        (⟨0, 2 ^ 57 - 1⟩, [.roomReserved (2 ^ 57 - 1) 8 (2 ^ 60)]) := by
  obtain ⟨htokens, hroom⟩ := wantedRoom_eq_unlimitedRoom ⟨true, 2 ^ 60, 3⟩
  obtain ⟨hwanted, hreserved⟩ := hroom { headroomPercent := 400 } (2 ^ 57 - 1) rfl
    (by decide) (by decide)
  exact ⟨htokens, by decide, hwanted, hreserved ⟨5, 8⟩⟩

end FlatJson
