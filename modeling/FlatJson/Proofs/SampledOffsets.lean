import FlatJson.Proofs.SampledValues
import FlatJson.Proofs.Sampling

/-!
# Where arrays are sampled

The shape of a text is that of one of the arrays that are sampled in it.  Here the arrays are told
by the offsets of their opening brackets, apart from what the samples give.

* `arrayShapeAt` — the shape of the array whose opening bracket is at an offset.
* `Envelope.samples`, `Envelope.sampledFrom` — where the scan of an object samples an array.
* `sampledOffsets` — where arrays are sampled in a text.
* `Shape.larger` — the shape with more elements; of two equal ones, the first.

`detectShape_eq_foldl` says that the shape of any text is the largest of those at these offsets, and
`foldl_larger` which of them that is.
-/

namespace FlatJson

variable {settings : ShapeSettings} {text rest : Bytes} {e e' : Envelope} {b : UInt8} {offset : Nat}

/-! ## Offsets -/

/-- The shape of the array whose opening bracket is at an offset of the text. -/
def arrayShapeAt (settings : ShapeSettings) (text : Bytes) (offset : Nat) : Shape :=
  sampleArray settings ((text.rdropWhile Byte.isBlank).drop (offset + 1))

/-- The shape with more elements; of two equal ones, the first. -/
def Shape.larger (a b : Shape) : Shape :=
  if a.estimatedElements < b.estimatedElements then b else a

namespace Envelope

/-- Whether an array is sampled whose opening bracket is this byte. -/
def samples (e : Envelope) (b : UInt8) : Bool :=
  (e.place == .between || e.place == .scalar) && b == 0x5B && e.depth == 0 && e.afterColon

/-- The offsets of the arrays that are sampled, where the first byte is at the given offset and
the window has no end. -/
def sampledFrom (settings : ShapeSettings) (offset : Nat) (e : Envelope) : Bytes → List Nat
  | [] => []
  | b :: rest =>
    match e.step settings b rest with
    | none => []
    | some e' =>
      (if e.samples b then [offset] else []) ++ sampledFrom settings (offset + 1) e' rest

end Envelope

/-- The offsets of the opening brackets at which arrays are sampled in a text. -/
def sampledOffsets (settings : ShapeSettings) (text : Bytes) : List Nat :=
  let start := (text.takeWhile Byte.isBlank).length
  match trimBlank text with
  | [] => []
  | b :: rest =>
    if b == 0x5B then [start]
    else if b == 0x7B then
      (Envelope.sampledFrom settings (start + 1) {} rest).filter
        (· < start + 1 + settings.envelopeWindow)
    else []

/-! ## The scan of an object -/

namespace Envelope

theorem offer_eq (e : Envelope) (s : Shape) : e.offer s = { e with best := e.best.larger s } := by
  unfold offer Shape.larger
  split <;> rfl

theorem structural_best (h : e.structural settings b rest = some e') :
    e'.best = if b == 0x5B && e.depth == 0 && e.afterColon then
      e.best.larger (sampleArray settings rest) else e.best := by
  by_cases harray : b == 0x5B && e.depth == 0 && e.afterColon
  · simp only [Bool.and_eq_true, beq_iff_eq] at harray
    obtain ⟨⟨rfl, hd⟩, hcolon⟩ := harray
    simp only [structural, hd, hcolon, Byte.quote] at h
    cases h
    simp [hd, hcolon, offer_eq]
  · rw [if_neg harray]
    simp only [structural, if_neg harray] at h
    split_ifs at h
    all_goals
      cases h
      rfl

/-- The best shape changes where an array is sampled, and nowhere else. -/
theorem step_best (h : e.step settings b rest = some e') :
    e'.best = if e.samples b then e.best.larger (sampleArray settings rest) else e.best := by
  cases hp : e.place with
  | between | scalar =>
    have hstructural : e.structural settings b rest = some e' := by
      rw [← h, step, hp]
    rw [structural_best hstructural]
    simp [samples, hp]
  | string =>
    rw [step, hp] at h
    cases h
    simp only [samples, hp]
    split_ifs <;> simp_all
  | escape =>
    rw [step, hp] at h
    cases h
    simp [samples, hp]

/-- Nothing is sampled before the first byte. -/
theorem le_of_mem_sampledFrom {i : Nat} (h : i ∈ sampledFrom settings offset e rest) :
    offset ≤ i := by
  induction rest generalizing offset e with
  | nil => cases h
  | cons b rest ih =>
    unfold sampledFrom at h
    split at h
    · cases h
    · rcases List.mem_append.1 h with h | h
      · split at h
        · exact Nat.le_of_eq (List.mem_singleton.1 h).symm
        · cases h
      · exact Nat.le_trans (Nat.le_succ offset) (ih h)

/-- What the scan of an object comes to, by the offsets inside its window. -/
theorem run_best (w : Nat) (e : Envelope)
    (hrest : (text.rdropWhile Byte.isBlank).drop offset = rest) :
    (run settings w e rest).best =
      ((sampledFrom settings offset e rest).filter (· < offset + w)).foldl
        (fun best i => best.larger (arrayShapeAt settings text i)) e.best := by
  induction rest generalizing w e offset with
  | nil => rw [run_nil]; rfl
  | cons b rest ih =>
    cases w with
    | zero =>
      have hnone : (sampledFrom settings offset e (b :: rest)).filter (· < offset + 0) = [] := by
        refine List.filter_eq_nil_iff.2 fun i hi => ?_
        have hle := le_of_mem_sampledFrom hi
        simpa using hle
      rw [run_zero, hnone]
      rfl
    | succ w =>
      have hnext : (text.rdropWhile Byte.isBlank).drop (offset + 1) = rest :=
        Cursor.drop_add hrest 1
      have hbound : offset + 1 + w = offset + (w + 1) := by omega
      cases hstep : e.step settings b rest with
      | none =>
        rw [run_cons_none hstep, sampledFrom, hstep]
        rfl
      | some e' =>
        have hlater := ih w e' hnext
        rw [run_cons hstep, hlater, sampledFrom, hstep, step_best hstep, hbound]
        simp only [List.filter_append, List.foldl_append]
        split
        · simp [arrayShapeAt, hnext]
        · rfl

end Envelope

/-! ## Texts -/

theorem Sample.shape_eq_notLarge {s : Sample} {threshold : Nat} {extent : Unit → Nat}
    (h : (s.shape threshold extent).estimatedElements = 0) :
    s.shape threshold extent = .notLarge := by
  unfold Sample.shape at h ⊢
  by_cases hzero : s.elements = 0
  · rw [if_pos hzero]
  · rw [if_neg hzero] at h
    have hle : s.elements ≤ s.extrapolate (extent ()) := Nat.le_max_right _ _
    dsimp only at h
    split at h <;> omega

/-- An array of no elements is not large. -/
theorem sampleArray_eq_notLarge (h : (sampleArray settings rest).estimatedElements = 0) :
    sampleArray settings rest = .notLarge := by
  unfold sampleArray at h ⊢
  cases hbody : skipBlank rest with
  | nil => rfl
  | cons b body =>
    simp only [hbody] at h ⊢
    split at h
    · next hclose => rw [if_pos hclose]
    · next hclose =>
      rw [if_neg hclose]
      exact Sample.shape_eq_notLarge h

theorem Shape.notLarge_larger_sampleArray (settings : ShapeSettings) (rest : Bytes) :
    Shape.notLarge.larger (sampleArray settings rest) = sampleArray settings rest := by
  unfold larger
  split
  · rfl
  · next h => exact (sampleArray_eq_notLarge (Nat.eq_zero_of_not_pos h)).symm

/-- The blanks at the end of a text that is not blank. -/
theorem rdropWhile_of_trimBlank {s : Bytes} (h : trimBlank text = b :: s) :
    text.rdropWhile Byte.isBlank = text.takeWhile Byte.isBlank ++ b :: s := by
  obtain ⟨trail, hskip, htrail, hlast⟩ := Cursor.trimBlank_split text
  have hsplit : text.takeWhile Byte.isBlank ++ skipBlank text = text :=
    List.takeWhile_append_dropWhile
  rw [h] at hskip hlast
  have htext : text = (text.takeWhile Byte.isBlank ++ b :: s) ++ trail := by
    rw [List.append_assoc, ← hskip, hsplit]
  have hend : Cursor.NoBlankEnd (text.takeWhile Byte.isBlank ++ b :: s) := by
    intro c hc
    rw [List.getLast?_append_of_ne_nil _ (List.cons_ne_nil b s)] at hc
    exact hlast c hc
  conv_lhs => rw [htext]
  exact rdropWhile_append_blank hend htrail

/-- The blanks at the end of a text are cut off, but nothing before a byte that is not blank. -/
theorem exists_rdropWhile_eq {s t : Bytes} {c : UInt8} (hc : Byte.isBlank c = false) :
    ∃ t', (s ++ c :: t).rdropWhile Byte.isBlank = s ++ c :: t' := by
  have hsplit : (s ++ c :: t).rdropWhile Byte.isBlank ++ (s ++ c :: t).rtakeWhile Byte.isBlank =
      s ++ c :: t := List.rdropWhile_append_rtakeWhile
  have hnot : c ∉ (s ++ c :: t).rtakeWhile Byte.isBlank := by
    intro hmem
    rw [List.mem_rtakeWhile_imp hmem] at hc
    cases hc
  generalize (s ++ c :: t).rtakeWhile Byte.isBlank = trail at hsplit hnot
  rcases List.append_eq_append_iff.1 hsplit with ⟨mid, -, hrest⟩ | ⟨mid, heq, hrest⟩
  · exact absurd (hrest ▸ List.mem_append_right mid List.mem_cons_self) hnot
  · cases mid with
    | nil =>
      obtain rfl : c :: t = trail := hrest
      exact absurd List.mem_cons_self hnot
    | cons d mid =>
      obtain ⟨rfl, -⟩ := List.cons.inj hrest
      exact ⟨mid, heq⟩

/-- What is left of a text without the blanks around it, up to a byte that is not blank. -/
theorem exists_trimBlank_eq {s t : Bytes} {c : UInt8} (h : skipBlank text = s ++ c :: t)
    (hc : Byte.isBlank c = false) : ∃ t', trimBlank text = s ++ c :: t' := by
  obtain ⟨t', ht⟩ := exists_rdropWhile_eq (s := s) (t := t) hc
  rw [← h] at ht
  exact ⟨t', ht⟩

/-- **The shape of a text is the largest of those of the arrays that are sampled.** -/
theorem detectShape_eq_foldl (settings : ShapeSettings) (text : Bytes) :
    detectShape settings text = (sampledOffsets settings text).foldl
      (fun best i => best.larger (arrayShapeAt settings text i)) .notLarge := by
  unfold detectShape sampledOffsets
  cases htrim : trimBlank text with
  | nil => rfl
  | cons b rest =>
    have hend := rdropWhile_of_trimBlank htrim
    have hrest : (text.rdropWhile Byte.isBlank).drop
        ((text.takeWhile Byte.isBlank).length + 1) = rest := by
      rw [hend]
      simp
    dsimp only
    split_ifs
    · show sampleArray settings rest = Shape.notLarge.larger _
      rw [arrayShapeAt, hrest, Shape.notLarge_larger_sampleArray]
    · exact Envelope.run_best settings.envelopeWindow {} hrest
    · rfl

/-- A fold that keeps the larger shape ends with that of the first element with the largest, unless
none is larger than the one it starts with. -/
theorem foldl_larger {α : Type} (f : α → Shape) (xs : List α) (start : Shape) :
    (xs.foldl (fun best x => best.larger (f x)) start = start ∧
      ∀ x ∈ xs, (f x).estimatedElements ≤ start.estimatedElements) ∨
    ∃ earlier x later, xs = earlier ++ x :: later ∧
      xs.foldl (fun best x => best.larger (f x)) start = f x ∧
      start.estimatedElements < (f x).estimatedElements ∧
      (∀ y ∈ earlier, (f y).estimatedElements < (f x).estimatedElements) ∧
      ∀ y ∈ later, (f y).estimatedElements ≤ (f x).estimatedElements := by
  induction xs generalizing start with
  | nil => exact .inl ⟨rfl, nofun⟩
  | cons a xs ih =>
    rw [List.foldl_cons]
    by_cases ha : start.estimatedElements < (f a).estimatedElements
    · have hstart : start.larger (f a) = f a := if_pos ha
      rw [hstart]
      rcases ih (f a) with ⟨hfold, hle⟩ | ⟨earlier, x, later, rfl, hfold, hlt, hearlier, hlater⟩
      · exact .inr ⟨[], a, xs, rfl, hfold, ha, nofun, hle⟩
      · refine .inr ⟨a :: earlier, x, later, rfl, hfold, Nat.lt_trans ha hlt, ?_, hlater⟩
        exact List.forall_mem_cons.2 ⟨hlt, hearlier⟩
    · have hstart : start.larger (f a) = start := if_neg ha
      rw [hstart]
      rcases ih start with ⟨hfold, hle⟩ | ⟨earlier, x, later, rfl, hfold, hlt, hearlier, hlater⟩
      · exact .inl ⟨hfold, List.forall_mem_cons.2 ⟨Nat.le_of_not_lt ha, hle⟩⟩
      · refine .inr ⟨a :: earlier, x, later, rfl, hfold, hlt, ?_, hlater⟩
        exact List.forall_mem_cons.2 ⟨by omega, hearlier⟩

end FlatJson
