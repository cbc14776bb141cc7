import FlatJson.Proofs.SampledOffsets

/-!
# Estimates stay within the text

A sample counts nothing without reading a byte for it: a token has its first byte, and an element has
the comma or the bracket that ends it.  So no estimate is larger than the text is long, whatever the
text and wherever the sample was cut off.

* `Sample.Effect` — what one byte can do to the counts of a sample.
* `Sample.Accounted` — the invariant: what was counted has been read.
* `Sample.Accounted.step`, `Sample.Accounted.run` — one byte, and a whole sample.
* `Shape.Fits` — a shape that an array of so many bytes can have.

`detectShape_in_bounds` says that the detection of a shape comes to an end with such a shape, and
without an index, slice, difference or quotient out of range.
-/

namespace FlatJson

/-! ## Samples -/

namespace Sample

variable {s : Sample}

/-- What one byte can do to the counts of a sample. -/
inductive Effect (s t : Sample) : Prop
  /-- It belongs to the current element and starts a token of it, or none. -/
  | inside : t.counts = s.counts → t.current ≤ s.current + 1 → Effect s t
  /-- It is the comma after the current element. -/
  | comma :
      t.counts = (s.elements + 1, s.tokens + s.current, s.read + 1, s.closed) → t.current = 0 →
      Effect s t
  /-- It is the closing bracket, after an element or after none. -/
  | close (last : Nat) :
      last ≤ 1 → t.counts = (s.elements + last, s.tokens + s.current, s.read, true) → Effect s t

theorem structural_effect (s : Sample) (b : UInt8) : Effect s (s.structural b) := by
  unfold structural
  split_ifs
  all_goals first
    | exact .inside rfl (Nat.le_refl _)
    | exact .inside rfl (Nat.le_succ _)
    | exact .comma rfl rfl
    | exact .close 0 (Nat.zero_le 1) rfl
    | exact .close 1 (Nat.le_refl 1) rfl

/-- Every byte has one of these effects. -/
theorem step_effect (s : Sample) (b : UInt8) : Effect s (s.step b) := by
  cases hp : s.place with
  | between | scalar =>
    simp only [step, hp]
    exact s.structural_effect b
  | string =>
    simp only [step, hp]
    split_ifs <;> exact .inside rfl (Nat.le_succ _)
  | escape =>
    simp only [step, hp]
    exact .inside rfl (Nat.le_succ _)

theorem step_read (s : Sample) (b : UInt8) : (s.step b).read = s.read + 1 := by
  have hstructural : (s.structural b).read = s.read + 1 := by
    unfold structural
    split_ifs <;> rfl
  unfold step
  split
  · exact hstructural
  · exact hstructural
  · split_ifs <;> rfl
  · rfl

/-- Everything counted has a byte of its own: the tokens, and the ends of the elements.  Before the
closing bracket, what belongs to complete elements also lies before what does not. -/
structure Accounted (s : Sample) : Prop where
  counted : s.tokens + s.elements ≤ s.read
  complete : s.closed = false → s.tokens + s.elements ≤ s.complete
  current : s.closed = false → s.complete + s.current ≤ s.read

theorem accounted_initial : Accounted {} :=
  ⟨Nat.le_refl _, fun _ => Nat.le_refl _, fun _ => Nat.le_refl _⟩

/-- **One more byte pays for whatever it adds to the counts.** -/
theorem Accounted.step (h : s.Accounted) (hc : s.closed = false) (b : UInt8) :
    (s.step b).Accounted := by
  have hcomplete := h.complete hc
  have hcurrent := h.current hc
  have hread := s.step_read b
  cases s.step_effect b with
  | inside hcounts hle =>
    simp only [counts, Prod.mk.injEq] at hcounts
    obtain ⟨he, ht, hcp, -⟩ := hcounts
    constructor <;> intros <;> omega
  | comma hcounts hzero =>
    simp only [counts, Prod.mk.injEq] at hcounts
    obtain ⟨he, ht, hcp, -⟩ := hcounts
    constructor <;> intros <;> omega
  | close last hlast hcounts =>
    simp only [counts, Prod.mk.injEq] at hcounts
    obtain ⟨he, ht, -, hcl⟩ := hcounts
    refine ⟨by omega, fun h => ?_, fun h => ?_⟩ <;> simp [hcl] at h

/-- **Whatever a sample has counted when it ends, it has read**, and no more than there is. -/
theorem Accounted.run (h : s.Accounted) (most w : Nat) (rest : Bytes) :
    (run most w s rest).Accounted ∧ (run most w s rest).read ≤ s.read + rest.length := by
  induction rest generalizing s w with
  | nil =>
    rw [run_nil]
    exact ⟨h, Nat.le_refl _⟩
  | cons b rest ih =>
    cases w with
    | zero =>
      rw [run_zero]
      exact ⟨h, Nat.le_add_right _ _⟩
    | succ w =>
      by_cases hg : s.GoesOn most
      · obtain ⟨hlater, hread⟩ := ih (h.step hg.1 b) w
        rw [step_read] at hread
        rw [run_cons hg, List.length_cons]
        exact ⟨hlater, by omega⟩
      · rw [run_of_not_goesOn hg]
        exact ⟨h, Nat.le_add_right _ _⟩

end Sample

/-! ## Shapes -/

/-- The shape of an array of so many bytes, as far as it can be told from that: it has no more
elements than bytes, and its elements no more tokens.  It is large just when it has more elements
than the threshold. -/
structure Shape.Fits (threshold bytes : Nat) (s : Shape) : Prop where
  elements_le : s.estimatedElements ≤ bytes
  tokens_le : s.tokensPerElement ≤ bytes
  isLarge_iff : s.isLargeArray ↔ threshold < s.estimatedElements

variable {threshold bytes : Nat}

theorem Shape.notLarge_fits (threshold bytes : Nat) : Shape.notLarge.Fits threshold bytes :=
  ⟨Nat.zero_le _, Nat.zero_le _, by simp [Shape.notLarge]⟩

theorem Shape.Fits.mono {s : Shape} {m n : Nat} (h : s.Fits threshold m) (hle : m ≤ n) :
    s.Fits threshold n :=
  ⟨Nat.le_trans h.elements_le hle, Nat.le_trans h.tokens_le hle, h.isLarge_iff⟩

/-- Elements that have no more bytes than there are elements are no reason to expect more of them
than bytes. -/
theorem Sample.Accounted.extrapolate_le {s : Sample} (h : s.Accounted) (hc : s.closed = false)
    (hread : s.read ≤ bytes) : s.extrapolate bytes ≤ bytes := by
  have hcomplete := h.complete hc
  have hcurrent := h.current hc
  have hle : s.elements ≤ max s.complete 1 := by omega
  have hproduct : mulCount bytes s.elements ≤ bytes * max s.complete 1 :=
    Nat.le_trans (Nat.min_le_left _ _) (Nat.mul_le_mul_left bytes hle)
  have hquotient : mulCount bytes s.elements / max s.complete 1 ≤ bytes :=
    Nat.div_le_of_le_mul (by rwa [Nat.mul_comm])
  exact Nat.max_le.2 ⟨hquotient, by omega⟩

/-- The shape that a sample gives of the bytes it was taken from. -/
theorem Sample.Accounted.fits {s : Sample} (h : s.Accounted) (hread : s.read ≤ bytes) :
    (s.shape threshold fun _ => bytes).Fits threshold bytes := by
  have hcounted := h.counted
  unfold Sample.shape
  by_cases hzero : s.elements = 0
  · rw [if_pos hzero]
    exact Shape.notLarge_fits threshold bytes
  · rw [if_neg hzero]
    have helements : (if s.closed then s.elements else s.extrapolate bytes) ≤ bytes := by
      cases hc : s.closed with
      | true =>
        rw [if_pos rfl]
        omega
      | false =>
        rw [if_neg Bool.false_ne_true]
        exact h.extrapolate_le hc hread
    have haverage : (s.tokens + s.elements / 2) / s.elements ≤ bytes := by
      have hle : (s.tokens + s.elements / 2) / s.elements ≤ s.tokens + s.elements / 2 :=
        Nat.div_le_self _ _
      omega
    exact ⟨helements, haverage, decide_eq_true_iff⟩

theorem sampleArray_fits (settings : ShapeSettings) (rest : Bytes) :
    (sampleArray settings rest).Fits settings.largeArrayThreshold rest.length := by
  have hbody : (skipBlank rest).length ≤ rest.length :=
    (List.dropWhile_suffix Byte.isBlank).length_le
  unfold sampleArray
  cases hskip : skipBlank rest with
  | nil => exact Shape.notLarge_fits _ _
  | cons b body =>
    rw [hskip] at hbody
    dsimp only
    split
    · exact Shape.notLarge_fits _ _
    · obtain ⟨haccounted, hread⟩ := Sample.accounted_initial.run settings.sampleElements
        (settings.sampleWindow - (rest.takeWhile Byte.isBlank).length) (b :: body)
      rw [show ({} : Sample).read = 0 from rfl, Nat.zero_add] at hread
      exact (haccounted.fits hread).mono hbody

theorem arrayShapeAt_fits (settings : ShapeSettings) (text : Bytes) (offset : Nat) :
    (arrayShapeAt settings text offset).Fits settings.largeArrayThreshold text.length := by
  have hle : ((text.rdropWhile Byte.isBlank).drop (offset + 1)).length ≤ text.length := by
    have hprefix := (List.rdropWhile_prefix Byte.isBlank text).length_le
    rw [List.length_drop]
    omega
  exact (sampleArray_fits settings _).mono hle

theorem detectShape_fits (settings : ShapeSettings) (text : Bytes) :
    (detectShape settings text).Fits settings.largeArrayThreshold text.length := by
  rw [detectShape_eq_foldl]
  rcases foldl_larger (arrayShapeAt settings text) (sampledOffsets settings text) .notLarge with
    ⟨hstart, -⟩ | ⟨_, offset, _, -, hlargest, -⟩
  · rw [hstart]
    exact Shape.notLarge_fits _ _
  · rw [hlargest]
    exact arrayShapeAt_fits settings text offset

/-- **The shape of a text is found without an index, slice, difference or quotient out of range,
whatever the text and the settings, and its estimates stay within the text.**  There are no more
elements than bytes, and no more tokens in one of them; and the array is large just when it has more
elements than the threshold. -/
theorem detectShape_in_bounds (settings : ShapeSettings) (text : Bytes) :
    ∃ shape, Cursor.detectShape settings text = some shape ∧
      detectShape settings text = shape ∧
      shape.estimatedElements ≤ text.length ∧ shape.tokensPerElement ≤ text.length ∧
      (shape.isLargeArray ↔ settings.largeArrayThreshold < shape.estimatedElements) := by
  have hfits := detectShape_fits settings text
  exact ⟨_, Cursor.detectShape_eq settings text, rfl, hfits.elements_le, hfits.tokens_le,
    hfits.isLarge_iff⟩

end FlatJson
