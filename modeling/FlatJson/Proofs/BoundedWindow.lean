import FlatJson.Proofs.Sampling
import FlatJson.Proofs.UniformArrays

/-!
# What the shape of a text depends on

Of a text without the blanks around it, the shape depends on the length and on the bytes inside a
window: those of the object that is searched, and behind them those of one more sample, which may
start at the last of them.

* `take_of_take`, `dropWhile_window` — two texts that agree up to some place.
* `Sample.run_take` — a sample looks at no byte past its window.
* `sampleArray_congr`, `Envelope.run_congr` — arrays and objects that agree inside the window.

`detectShape_eq_of_window` is about whole texts, with any blanks around them.
-/

namespace FlatJson

variable {settings : ShapeSettings} {x y : Bytes}

/-! ## Texts that agree up to a place -/

theorem take_of_take {m n : Nat} (h : x.take n = y.take n) (hle : m ≤ n) : x.take m = y.take m := by
  have htake := congrArg (List.take m) h
  rwa [List.take_take, List.take_take, Nat.min_eq_left hle] at htake

theorem take_of_take_cons {b c : UInt8} {n : Nat}
    (h : (b :: x).take (n + 1) = (c :: y).take (n + 1)) : b = c ∧ x.take n = y.take n :=
  List.cons.inj h

/-- What two texts that agree inside a window start with ends at the same place, or behind the
window in both of them. -/
theorem dropWhile_window (p : UInt8 → Bool) (w : Nat) (hlength : x.length = y.length)
    (h : x.take w = y.take w) :
    (w ≤ (x.takeWhile p).length ∧ w ≤ (y.takeWhile p).length) ∨
    ((x.takeWhile p).length = (y.takeWhile p).length ∧ (x.takeWhile p).length < w ∧
      (x.dropWhile p).length = (y.dropWhile p).length ∧
      (x.dropWhile p).take (w - (x.takeWhile p).length) =
        (y.dropWhile p).take (w - (x.takeWhile p).length)) := by
  induction w generalizing x y with
  | zero => exact .inl ⟨Nat.zero_le _, Nat.zero_le _⟩
  | succ w ih =>
    cases x with
    | nil =>
      obtain rfl : y = [] := List.eq_nil_of_length_eq_zero hlength.symm
      exact .inr ⟨rfl, Nat.succ_pos w, rfl, rfl⟩
    | cons b x =>
      cases y with
      | nil => cases hlength
      | cons c y =>
        obtain ⟨rfl, hrest⟩ := take_of_take_cons h
        have hlength' : x.length = y.length := Nat.succ.inj hlength
        cases hb : p b with
        | false =>
          have hnot : ¬ p b := by simp [hb]
          rw [List.takeWhile_cons_of_neg hnot, List.takeWhile_cons_of_neg hnot,
            List.dropWhile_cons_of_neg hnot, List.dropWhile_cons_of_neg hnot]
          exact .inr ⟨rfl, Nat.succ_pos w, hlength, h⟩
        | true =>
          simp only [List.takeWhile_cons, List.dropWhile_cons, hb, if_true, List.length_cons,
            Nat.add_le_add_iff_right, Nat.add_lt_add_iff_right, Nat.add_right_cancel_iff,
            Nat.add_sub_add_right]
          exact ih hlength' hrest

/-! ## Arrays -/

/-- A sample looks at no byte past its window. -/
theorem Sample.run_take (most w : Nat) (s : Sample) (x : Bytes) :
    Sample.run most w s (x.take w) = Sample.run most w s x := by
  induction w generalizing s x with
  | zero => rw [Sample.run_zero, Sample.run_zero]
  | succ w ih =>
    cases x with
    | nil => rfl
    | cons b x =>
      rw [List.take_succ_cons]
      by_cases h : s.GoesOn most
      · rw [Sample.run_cons h, Sample.run_cons h]
        exact ih (s.step b) x
      · rw [Sample.run_of_not_goesOn h, Sample.run_of_not_goesOn h]

/-- No element is seen where blanks fill the window. -/
theorem sampleArray_of_blank_window
    (h : settings.sampleWindow ≤ (x.takeWhile Byte.isBlank).length) :
    sampleArray settings x = .notLarge := by
  have hwindow : settings.sampleWindow - (x.takeWhile Byte.isBlank).length = 0 := by omega
  unfold sampleArray
  cases skipBlank x with
  | nil => rfl
  | cons b body =>
    simp only [hwindow, Sample.run_zero]
    split <;> rfl

/-- **Two arrays of one length that agree inside the window of the sample have the same shape.** -/
theorem sampleArray_congr (hlength : x.length = y.length)
    (h : x.take settings.sampleWindow = y.take settings.sampleWindow) :
    sampleArray settings x = sampleArray settings y := by
  rcases dropWhile_window Byte.isBlank settings.sampleWindow hlength h with ⟨hx, hy⟩ |
    ⟨hblank, hlt, hbody, htake⟩
  · rw [sampleArray_of_blank_window hx, sampleArray_of_blank_window hy]
  · have hrun : ∀ s, Sample.run settings.sampleElements
        (settings.sampleWindow - (x.takeWhile Byte.isBlank).length) s (skipBlank x) =
        Sample.run settings.sampleElements
          (settings.sampleWindow - (x.takeWhile Byte.isBlank).length) s (skipBlank y) := by
      intro s
      have htake' : (skipBlank x).take (settings.sampleWindow - (x.takeWhile Byte.isBlank).length) =
          (skipBlank y).take (settings.sampleWindow - (x.takeWhile Byte.isBlank).length) := htake
      rw [← Sample.run_take, htake', Sample.run_take]
    unfold sampleArray
    rw [← hblank]
    obtain ⟨w, hw⟩ := Nat.exists_eq_add_of_lt hlt
    have hwindow : settings.sampleWindow - (x.takeWhile Byte.isBlank).length = w + 1 := by omega
    rw [hwindow] at htake hrun ⊢
    change (skipBlank x).length = (skipBlank y).length at hbody
    change (skipBlank x).take (w + 1) = (skipBlank y).take (w + 1) at htake
    cases hx : skipBlank x with
    | nil =>
      rw [hx] at hbody
      rw [List.eq_nil_of_length_eq_zero hbody.symm]
    | cons b body =>
      cases hy : skipBlank y with
      | nil =>
        rw [hx, hy] at hbody
        cases hbody
      | cons c body' =>
        rw [hx, hy] at hbody hrun htake
        obtain ⟨rfl, -⟩ := take_of_take_cons htake
        simp only [hrun, hbody]

/-! ## Objects -/

/-- What follows a byte of an object matters only for the array that is sampled there. -/
theorem Envelope.step_congr (e : Envelope) (b : UInt8)
    (h : sampleArray settings x = sampleArray settings y) :
    e.step settings b x = e.step settings b y := by
  unfold step structural
  rw [h]

/-- **Two objects of one length that agree inside their window, and in the sample that starts at its
end, have the same shape.** -/
theorem Envelope.run_congr (w : Nat) (e : Envelope) (hlength : x.length = y.length)
    (h : x.take (w + settings.sampleWindow) = y.take (w + settings.sampleWindow)) :
    Envelope.run settings w e x = Envelope.run settings w e y := by
  induction w generalizing e x y with
  | zero => rw [run_zero, run_zero]
  | succ w ih =>
    cases x with
    | nil =>
      obtain rfl : y = [] := List.eq_nil_of_length_eq_zero hlength.symm
      rfl
    | cons b x =>
      cases y with
      | nil => cases hlength
      | cons c y =>
        rw [Nat.add_right_comm] at h
        obtain ⟨rfl, hrest⟩ := take_of_take_cons h
        have hlength' : x.length = y.length := Nat.succ.inj hlength
        have hsample : sampleArray settings x = sampleArray settings y :=
          sampleArray_congr hlength' (take_of_take hrest (Nat.le_add_left _ _))
        have hstep := e.step_congr b hsample
        cases hx : e.step settings b x with
        | none => rw [run_cons_none hx, run_cons_none (hstep.symm.trans hx)]
        | some e' =>
          rw [run_cons hx, run_cons (hstep.symm.trans hx)]
          exact ih e' hlength' hrest

/-! ## Texts -/

/-- More blanks around a text are cut off as well. -/
theorem trimBlank_append {u w : Bytes} (hu : Blank u) (hw : Blank w) (x : Bytes) :
    trimBlank (u ++ x ++ w) = trimBlank x := by
  obtain ⟨trail, hskip, htrail, hlast⟩ := Cursor.trimBlank_split x
  have hlead : Blank (x.takeWhile Byte.isBlank) := fun b hb => List.mem_takeWhile_imp hb
  have hsplit : x.takeWhile Byte.isBlank ++ (trimBlank x ++ trail) = x := by
    rw [← hskip]
    exact List.takeWhile_append_dropWhile
  have hpad : u ++ x ++ w =
      (u ++ x.takeWhile Byte.isBlank) ++ trimBlank x ++ (trail ++ w) := by
    conv_lhs => rw [← hsplit]
    simp only [List.append_assoc]
  rw [hpad]
  by_cases hne : trimBlank x = []
  · have hblank : Blank ((u ++ x.takeWhile Byte.isBlank) ++ trimBlank x ++ (trail ++ w)) := by
      rw [hne, List.append_nil]
      exact (hu.append hlead).append (htrail.append hw)
    have hnone := skipBlank_append hblank (s := []) nofun
    rw [List.append_nil] at hnone
    rw [trimBlank, hnone, hne]
    rfl
  · refine trimBlank_padded (hu.append hlead) (htrail.append hw) hne ?_ hlast
    intro b hb
    have hhead : (skipBlank x).head? = some b := by
      rw [hskip, List.head?_append_of_ne_nil _ hne]
      exact hb
    have hnot := List.head?_dropWhile_not Byte.isBlank x
    rw [show x.dropWhile Byte.isBlank = skipBlank x from rfl, hhead] at hnot
    simpa using hnot

/-- Two texts of one length that agree inside the window have the same shape. -/
theorem detectShape_congr (hlength : (trimBlank x).length = (trimBlank y).length)
    (h : (trimBlank x).take (1 + settings.envelopeWindow + settings.sampleWindow) =
      (trimBlank y).take (1 + settings.envelopeWindow + settings.sampleWindow)) :
    detectShape settings x = detectShape settings y := by
  unfold detectShape
  cases hx : trimBlank x with
  | nil =>
    rw [hx] at hlength
    rw [List.eq_nil_of_length_eq_zero hlength.symm]
  | cons b rest =>
    cases hy : trimBlank y with
    | nil =>
      rw [hx, hy] at hlength
      cases hlength
    | cons c rest' =>
      rw [hx, hy, Nat.add_assoc, Nat.add_comm 1] at h
      rw [hx, hy] at hlength
      obtain ⟨rfl, hrest⟩ := take_of_take_cons h
      have hlength' : rest.length = rest'.length := Nat.succ.inj hlength
      have harray : sampleArray settings rest = sampleArray settings rest' :=
        sampleArray_congr hlength' (take_of_take hrest (Nat.le_add_left _ _))
      have hobject := Envelope.run_congr settings.envelopeWindow {} hlength' hrest
      simp only [harray, sampleEnvelope, hobject]

/-- **The shape of a text depends on a window of it.**  Two texts that have the same length without
the blanks around them, and agree there in the opening bracket, the bytes that are searched of an
object and those of one sample, have the same shape, and the work by position gives the same for
both.  Blanks around a text make no difference. -/
theorem detectShape_eq_of_window (settings : ShapeSettings) :
    (∀ x y, (trimBlank x).length = (trimBlank y).length →
      (trimBlank x).take (1 + settings.envelopeWindow + settings.sampleWindow) =
        (trimBlank y).take (1 + settings.envelopeWindow + settings.sampleWindow) →
      detectShape settings x = detectShape settings y ∧
        Cursor.detectShape settings x = Cursor.detectShape settings y) ∧
    ∀ u x w, Blank u → Blank w →
      detectShape settings (u ++ x ++ w) = detectShape settings x ∧
        Cursor.detectShape settings (u ++ x ++ w) = Cursor.detectShape settings x := by
  simp only [Cursor.detectShape_eq, Option.some.injEq, and_self]
  constructor
  · intro x y hlength htake
    exact detectShape_congr hlength htake
  · intro u x w hu hw
    have htrim := trimBlank_append hu hw x
    exact detectShape_congr (congrArg List.length htrim) (by rw [htrim])

/-- Two objects, the second one between blanks, that differ behind a window of nine bytes: inside the
array `[1,2,3,4]`, of which three bytes are sampled. -/
theorem detectShape_eq_of_window_object :
    detectShape { sampleWindow := 3, envelopeWindow := 5 }
        [0x7B, 0x22, 0x61, 0x22, 0x3A, 0x5B, 0x31, 0x2C, 0x32, 0x2C, 0x33, 0x2C, 0x34, 0x5D, 0x7D] =
      ⟨false, 4, 1⟩ ∧
    detectShape { sampleWindow := 3, envelopeWindow := 5 }
        [0x20, 0x7B, 0x22, 0x61, 0x22, 0x3A, 0x5B, 0x31, 0x2C, 0x32, 0x5D, 0x33, 0x2C, 0x34, 0x5D,
          0x7D, 0x0A] =
      ⟨false, 4, 1⟩ := by
  have hshape : detectShape { sampleWindow := 3, envelopeWindow := 5 }
      [0x7B, 0x22, 0x61, 0x22, 0x3A, 0x5B, 0x31, 0x2C, 0x32, 0x2C, 0x33, 0x2C, 0x34, 0x5D, 0x7D] =
        ⟨false, 4, 1⟩ := by decide
  obtain ⟨hwindow, hblank⟩ :=
    detectShape_eq_of_window { sampleWindow := 3, envelopeWindow := 5 }
  refine ⟨hshape, ?_⟩
  have hsame := (hwindow
    [0x7B, 0x22, 0x61, 0x22, 0x3A, 0x5B, 0x31, 0x2C, 0x32, 0x2C, 0x33, 0x2C, 0x34, 0x5D, 0x7D]
    [0x7B, 0x22, 0x61, 0x22, 0x3A, 0x5B, 0x31, 0x2C, 0x32, 0x5D, 0x33, 0x2C, 0x34, 0x5D, 0x7D]
    (by decide) (by decide)).1
  have hpadded := (hblank [0x20]
    [0x7B, 0x22, 0x61, 0x22, 0x3A, 0x5B, 0x31, 0x2C, 0x32, 0x5D, 0x33, 0x2C, 0x34, 0x5D, 0x7D]
    [0x0A] (by simp [Blank, Byte.isBlank]) (by simp [Blank, Byte.isBlank])).1
  exact hpadded.trans (hsame.symm.trans hshape)

end FlatJson
