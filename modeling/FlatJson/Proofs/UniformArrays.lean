import FlatJson.Proofs.SampledValues
import Mathlib.Algebra.Group.Nat.Defs

/-!
# Arrays of elements alike

If all elements of an array have the same length and the same number of tokens, its shape is exact,
however little of it is sampled: wherever the sample ends, what it has seen of complete elements is
to the whole array as their number is to the number of all.

* `IsElement` — an element of a given length and number of tokens.
* `Sample.run_uniform` — a sample of such elements, ended or cut off in any place.
* `detectShape_uniform` — the shape of the array.
-/

namespace FlatJson

/-! ## Elements -/

/-- A value of so many bytes, without blanks around it, which some tokenizer takes for so many
tokens. -/
structure IsElement (length tokens : Nat) (s : Bytes) : Prop where
  written : ∃ v : Value, v.Written s
  length_eq : s.length = length
  tokens_eq : ∃ t : Tokenizer, (t.parse s).1.error = none ∧ (t.parse s).1.tokens.length = tokens

/-- However a value is derived, it has one number of tokens. -/
theorem Value.Written.leaves_length {v : Value} {s : Bytes} (h : v.Written s) {t : Tokenizer}
    (ht : (t.parse s).1.error = none) : (v.leaves 0).length = (t.parse s).1.tokens.length := by
  have htext : WrittenText [v] s := by simpa using WrittenText.one .nil h .nil
  rw [(t.tokens_show_leaves ht htext).length_eq, rootLeaves_singleton]

theorem IsElement.tallies {length tokens most : Nat} {s rest : Bytes}
    (h : IsElement length tokens s) (hrest : StartsApart rest) :
    Sample.Tallies most 0 s rest tokens := by
  obtain ⟨⟨v, hv⟩, -, t, ht, rfl⟩ := h
  rw [← hv.leaves_length ht]
  exact hv.tallies 0 hrest

theorem IsElement.tokens_ne_zero {length tokens : Nat} {s : Bytes} (h : IsElement length tokens s) :
    tokens ≠ 0 := by
  obtain ⟨⟨v, hv⟩, -, t, ht, rfl⟩ := h
  rw [← hv.leaves_length ht]
  exact fun h => v.leaves_ne_nil 0 (List.length_eq_zero_iff.1 h)

theorem IsElement.keyword (w : Keyword) : IsElement w.spelling.length 1 w.spelling := by
  cases w with
  | null => exact ⟨⟨_, .null⟩, rfl, {}, by decide, by decide⟩
  | yes => exact ⟨⟨_, .yes⟩, rfl, {}, by decide, by decide⟩
  | no => exact ⟨⟨_, .no⟩, rfl, {}, by decide, by decide⟩

/-- Elements with commas between them, and the closing bracket. -/
def elementsText (parts : List Bytes) : Bytes := List.intercalate [0x2C] parts ++ [0x5D]

theorem elementsText_singleton (u : Bytes) : elementsText [u] = u ++ [0x5D] := by
  simp [elementsText, List.intercalate]

theorem elementsText_cons (u v : Bytes) (parts : List Bytes) :
    elementsText (u :: v :: parts) = u ++ 0x2C :: elementsText (v :: parts) := by
  simp [elementsText, List.intercalate]

theorem elementsText_length {length tokens : Nat} {parts : List Bytes} (hne : parts ≠ [])
    (h : ∀ s ∈ parts, IsElement length tokens s) :
    (elementsText parts).length = parts.length * (length + 1) := by
  induction parts with
  | nil => exact absurd rfl hne
  | cons u parts ih =>
    obtain ⟨hu, hparts⟩ := List.forall_mem_cons.1 h
    cases parts with
    | nil => simp [elementsText_singleton, hu.length_eq]
    | cons v parts =>
      have hlater := ih (List.cons_ne_nil v parts) hparts
      rw [elementsText_cons, List.length_append, List.length_cons, hlater, hu.length_eq,
        List.length_cons (a := u), Nat.succ_mul]
      omega

/-! ## Samples -/

namespace Sample

variable {length tokens most : Nat} {s : Sample}

/-- What a sample comes to in a window of `w` bytes, if `n` elements alike are ahead: it sees all of
them and the closing bracket, or some of them in full; one at least, if it may see one and the
window is longer than that. -/
inductive Uniform (length tokens most n w : Nat) (s t : Sample) : Prop
  | closed (complete : Nat) :
      t.counts = (s.elements + n, s.tokens + n * tokens, complete, true) →
      Uniform length tokens most n w s t
  | cut (m : Nat) :
      m ≤ n → (s.elements < most → length < w → 0 < m) →
      t.counts = (s.elements + m, s.tokens + m * tokens, s.complete + m * (length + 1), false) →
      Uniform length tokens most n w s t

/-- An element and what follows it are in the window, or else nothing is counted. -/
theorem run_element {u rest : Bytes} (hu : IsElement length tokens u) (hrest : StartsApart rest)
    (hs : s.IsBetween) (n w : Nat) :
    (s.Ready most ∧ ∃ k, w = u.length + (k + 1)) ∨
      Uniform length tokens most n w s (run most w s (u ++ rest)) := by
  have hcut (h : (run most w s (u ++ rest)).counts = s.counts)
      (hend : s.elements < most → length < w → False) :
      Uniform length tokens most n w s (run most w s (u ++ rest)) := by
    refine .cut 0 (Nat.zero_le n) (fun h₁ h₂ => (hend h₁ h₂).elim) ?_
    rw [h, counts, hs.2]
    simp
  by_cases hg : s.GoesOn most
  · by_cases hw : length < w
    · have hlen := hu.length_eq
      exact .inl ⟨⟨hs, hg⟩, w - u.length - 1, by omega⟩
    · have hle : w ≤ u.length := by
        rw [hu.length_eq]
        omega
      exact .inr (hcut ((hu.tallies hrest).run_cut ⟨hs, hg⟩ hle) fun _ h => hw h)
  · exact .inr (hcut (by rw [run_of_not_goesOn hg]) fun h _ => hg ⟨hs.2, h⟩)

/-- **A sample of elements alike**, wherever it ends. -/
theorem run_uniform (most : Nat) {parts : List Bytes} (hne : parts ≠ [])
    (hparts : ∀ u ∈ parts, IsElement length tokens u) (hs : s.IsBetween) (hd : s.depth = 0)
    (hcurrent : s.current = 0) (hread : s.complete = s.read) (w : Nat) :
    Uniform length tokens most parts.length w s (run most w s (elementsText parts)) := by
  induction parts generalizing s w with
  | nil => exact absurd rfl hne
  | cons u parts ih =>
    obtain ⟨hu, hparts⟩ := List.forall_mem_cons.1 hparts
    cases parts with
    | nil =>
      rw [elementsText_singleton]
      have hsep : StartsApart [0x5D] := .cons rfl []
      rcases run_element hu hsep hs 1 w with ⟨hready, k, rfl⟩ | hcut
      · refine .closed (s.read + u.length) ?_
        rw [(hu.tallies hsep).run_close hready hd hu.tokens_ne_zero]
        simp [lastElement, past, counts, hcurrent]
      · exact hcut
    | cons v parts =>
      rw [elementsText_cons]
      have hsep : StartsApart (0x2C :: elementsText (v :: parts)) := .cons rfl _
      rcases run_element hu hsep hs (u :: v :: parts).length w with ⟨hready, k, rfl⟩ | hcut
      · have hrun := (hu.tallies hsep).run_comma hready hd k
        have hnext : (s.past tokens u.length).nextElement.IsBetween := hs
        cases ih (List.cons_ne_nil v parts) hparts hnext hd rfl rfl k with
        | closed complete h =>
          refine .closed complete ?_
          rw [hrun, h]
          simp [nextElement, past, hcurrent, Nat.succ_mul]
          omega
        | cut m hm _ h =>
          refine .cut (m + 1) (Nat.succ_le_succ hm) (fun _ _ => Nat.succ_pos m) ?_
          rw [hrun, h]
          simp [nextElement, past, hcurrent, hread, hu.length_eq, Nat.succ_mul]
          omega
      · exact hcut

/-! ## Estimates -/

theorem average_eq {m : Nat} (hm : 0 < m) (tokens : Nat) :
    (m * tokens + m / 2) / m = tokens := by
  have hhalf : m / 2 / m = 0 := Nat.div_eq_of_lt (Nat.div_lt_self hm (by decide))
  rw [Nat.mul_add_div hm, hhalf, Nat.add_zero]

/-- Some elements alike tell the number of all, if the products stay below the largest count. -/
theorem extrapolate_eq {m n width : Nat} (hm : 0 < m) (hmn : m ≤ n) (hwidth : 0 < width)
    (he : s.elements = m) (hc : s.complete = m * width) (hmax : n * width * m ≤ maxCount) :
    s.extrapolate (n * width) = n := by
  have hpos : 0 < m * width := Nat.mul_pos hm hwidth
  have hone : max (m * width) 1 = m * width := Nat.max_eq_left hpos
  have hquotient : n * width * m / (m * width) = n := by
    rw [Nat.mul_assoc, Nat.mul_comm width m, Nat.mul_div_cancel n hpos]
  rw [extrapolate, mulCount, he, hc, Nat.min_eq_left hmax, hone, hquotient, Nat.max_eq_left hmn]

end Sample

/-! ## Texts -/

/-- Blanks around a text that neither starts nor ends with one. -/
theorem trimBlank_padded {u s w : Bytes} (hu : Blank u) (hw : Blank w) (hne : s ≠ [])
    (hfirst : ∀ b ∈ s.head?, ¬ Byte.isBlank b) (hlast : Cursor.NoBlankEnd s) :
    trimBlank (u ++ s ++ w) = s := by
  have hskip : skipBlank (u ++ s ++ w) = s ++ w := by
    rw [List.append_assoc]
    refine skipBlank_append hu ?_
    rwa [List.head?_append_of_ne_nil s hne]
  show (skipBlank (u ++ s ++ w)).rdropWhile Byte.isBlank = s
  rw [hskip, rdropWhile_append_blank hlast hw]

/-- The elements of an array start with a byte that is neither blank nor the end of the array. -/
theorem elementsText_first {length tokens : Nat} {parts : List Bytes} (hne : parts ≠ [])
    (h : ∀ s ∈ parts, IsElement length tokens s) :
    ∃ b t, elementsText parts = b :: t ∧ Byte.isBlank b = false ∧ b ≠ 0x5D := by
  obtain ⟨s, parts, rfl⟩ := List.exists_cons_of_ne_nil hne
  obtain ⟨v, hv⟩ := (h s List.mem_cons_self).written
  obtain ⟨b, t, rfl, hb⟩ := hv.exists_first
  cases parts with
  | nil => exact ⟨b, _, elementsText_singleton (b :: t), hb⟩
  | cons r parts => exact ⟨b, _, elementsText_cons (b :: t) r parts, hb⟩

/-- The shape that a sample of elements alike gives. -/
theorem Sample.Uniform.shape_eq {length tokens most n w threshold : Nat} {t : Sample}
    (h : Uniform length tokens most n w {} t) (hn : 0 < n) (hmost : 1 ≤ most) (hw : length < w)
    (hmax : n * (length + 1) * n ≤ maxCount) :
    (t.shape threshold fun _ => n * (length + 1)) = ⟨threshold < n, n, tokens⟩ := by
  cases h with
  | closed complete h =>
    simp only [counts, Nat.zero_add, Prod.mk.injEq] at h
    obtain ⟨he, ht, -, hcl⟩ := h
    rw [shape, he, ht, hcl, if_neg (Nat.ne_of_gt hn), average_eq hn]
    rfl
  | cut m hm hone h =>
    simp only [counts, Nat.zero_add, Prod.mk.injEq] at h
    obtain ⟨he, ht, hc, hcl⟩ := h
    have hpos : 0 < m := hone hmost hw
    have hle : n * (length + 1) * m ≤ maxCount := Nat.le_trans (Nat.mul_le_mul_left _ hm) hmax
    have hestimate := extrapolate_eq hpos hm (Nat.succ_pos length) he hc hle
    rw [shape, hestimate, he, ht, hcl, if_neg (Nat.ne_of_gt hpos), average_eq hpos]
    rfl

/-- The shape of such an array between blanks. -/
theorem detectShape_elementsText {settings : ShapeSettings} {parts : List Bytes} {u w : Bytes}
    {length tokens : Nat} (hne : parts ≠ []) (hparts : ∀ s ∈ parts, IsElement length tokens s)
    (hu : Blank u) (hw : Blank w)
    (hshort : (u ++ (0x5B :: elementsText parts) ++ w).length < 2 ^ 32)
    (hmost : 1 ≤ settings.sampleElements) (hwindow : length < settings.sampleWindow) :
    detectShape settings (u ++ (0x5B :: elementsText parts) ++ w) =
      ⟨settings.largeArrayThreshold < parts.length, parts.length, tokens⟩ := by
  have hlast : Cursor.NoBlankEnd (0x5B :: elementsText parts) := by
    intro b hb
    obtain rfl : 0x5D = b := by simpa [elementsText, List.getLast?_cons] using hb
    decide
  have htrim : trimBlank (u ++ (0x5B :: elementsText parts) ++ w) = 0x5B :: elementsText parts :=
    trimBlank_padded hu hw (List.cons_ne_nil _ _) (by simp [Byte.isBlank]) hlast
  have hlen := elementsText_length hne hparts
  have hpos : 0 < parts.length := List.length_pos_iff.2 hne
  have hmax : parts.length * (length + 1) * parts.length ≤ maxCount := by
    rw [List.length_append, List.length_append, List.length_cons, hlen] at hshort
    have hle : parts.length ≤ parts.length * (length + 1) :=
      Nat.le_mul_of_pos_right parts.length (Nat.succ_pos length)
    have hextent : parts.length * (length + 1) ≤ 0xFFFFFFFF := by omega
    exact Nat.le_trans (Nat.mul_le_mul hextent (Nat.le_trans hle hextent)) (by decide)
  obtain ⟨b, t, hfirst, hb, hclose⟩ := elementsText_first hne hparts
  have harray := sampleArray_of_first settings Blank.nil hb hclose t
  rw [List.nil_append, ← hfirst, hlen] at harray
  have hrun := Sample.run_uniform settings.sampleElements (s := {}) hne hparts ⟨rfl, rfl⟩ rfl rfl
    rfl settings.sampleWindow
  rw [detectShape, htrim]
  simp only [beq_self_eq_true, if_true]
  rw [harray]
  exact hrun.shape_eq hpos hmost hwindow hmax

theorem elementsText_padded (parts : List Bytes) (u w : Bytes) :
    u ++ 0x5B :: (List.intercalate [0x2C] parts ++ 0x5D :: w) =
      u ++ (0x5B :: elementsText parts) ++ w := by
  simp [elementsText]

/-- **The shape of an array of elements alike is exact**, whether the closing bracket, the number of
elements or the window ends its sample. -/
theorem detectShape_uniform {settings : ShapeSettings} {parts : List Bytes} {u w : Bytes}
    {length tokens : Nat} (hne : parts ≠ []) (hparts : ∀ s ∈ parts, IsElement length tokens s)
    (hu : Blank u) (hw : Blank w)
    (hshort : (u ++ 0x5B :: (List.intercalate [0x2C] parts ++ 0x5D :: w)).length < 2 ^ 32)
    (hmost : 1 ≤ settings.sampleElements) (hwindow : length < settings.sampleWindow) :
    detectShape settings (u ++ 0x5B :: (List.intercalate [0x2C] parts ++ 0x5D :: w)) =
      ⟨settings.largeArrayThreshold < parts.length, parts.length, tokens⟩ := by
  rw [elementsText_padded] at hshort ⊢
  exact detectShape_elementsText hne hparts hu hw hshort hmost hwindow

/-- The array `[null,true,null]` between blanks, sampled through a window that cuts the second
element. -/
theorem detectShape_uniform_cut :
    (∀ s ∈ [Keyword.null.spelling, Keyword.yes.spelling, Keyword.null.spelling],
      IsElement 4 1 s) ∧
    1 ≤ ({ largeArrayThreshold := 2, sampleWindow := 7 } : ShapeSettings).sampleElements ∧ 4 < 7 ∧
    detectShape { largeArrayThreshold := 2, sampleWindow := 7 }
      ([0x20] ++ 0x5B :: (List.intercalate [0x2C]
        [Keyword.null.spelling, Keyword.yes.spelling, Keyword.null.spelling] ++ 0x5D :: [0x0A])) =
      ⟨true, 3, 1⟩ := by
  have hnull : IsElement 4 1 Keyword.null.spelling := .keyword .null
  have hyes : IsElement 4 1 Keyword.yes.spelling := .keyword .yes
  have hparts : ∀ s ∈ [Keyword.null.spelling, Keyword.yes.spelling, Keyword.null.spelling],
      IsElement 4 1 s := by
    simp [hnull, hyes]
  exact ⟨hparts, by decide, by decide, detectShape_uniform (List.cons_ne_nil _ _) hparts
    (.cons rfl .nil) (.cons rfl .nil) (by decide) (by decide) (by decide)⟩

end FlatJson
