import FlatJson.Proofs.TokenParts
import Mathlib.Data.List.DropRight

/-!
# The sampling of an array by position

A sample takes one byte after the other.  By position it searches for the end of each string,
number and keyword and goes on from there, counts its positions from the start of the text, and
finds out only at the end where the blanks after the array start.  The shape is the same.

* `quoteIn`, `scalarBytes` — the end of a string, and of a number or keyword, in a list of bytes.
* `Sample.run_string`, `Sample.run_scalar` — what a sample counts over one of them.
* `Sample.run_shift` — a sample that starts later in the text.
* `Cursor.Stands` — where sampling by position is in a text.
* `Cursor.sample_eq`, `Cursor.sampleArray_eq` — the sample and the shape are the same.
-/

namespace FlatJson

variable {text rest trail : Bytes} {pos limit : Nat}

/-! ## Strings -/

/-- How many bytes stand before the quote that closes a string of which these are the next; the
first of them may be escaped. -/
def quoteIn (escaped : Bool) : Bytes → Option Nat
  | [] => none
  | b :: rest =>
    if escaped then (quoteIn false rest).map (· + 1)
    else if b == Byte.quote then some 0
    else (quoteIn (b == Byte.backslash) rest).map (· + 1)

theorem quoteIn_lt {escaped : Bool} {i : Nat} (h : quoteIn escaped rest = some i) :
    i < rest.length := by
  induction rest generalizing escaped i with
  | nil => cases h
  | cons b rest ih =>
    rw [List.length_cons]
    unfold quoteIn at h
    split at h
    · obtain ⟨j, hj, rfl⟩ := Option.map_eq_some_iff.1 h
      exact Nat.succ_lt_succ (ih hj)
    · split at h
      · cases h
        exact Nat.succ_pos _
      · obtain ⟨j, hj, rfl⟩ := Option.map_eq_some_iff.1 h
        exact Nat.succ_lt_succ (ih hj)

theorem quoteIn_plain {u : Bytes} (hu : ∀ b ∈ u, ¬ (b == Byte.quote || b == Byte.backslash))
    (rest : Bytes) : quoteIn false (u ++ rest) = (quoteIn false rest).map (· + u.length) := by
  induction u with
  | nil => simp
  | cons b u ih =>
    obtain ⟨hb, hu⟩ := List.forall_mem_cons.1 hu
    simp only [Bool.or_eq_true, not_or, Bool.not_eq_true] at hb
    rw [List.cons_append, quoteIn, if_neg Bool.false_ne_true, if_neg (by simp [hb.1]), hb.2, ih hu]
    cases quoteIn false rest <;> simp [Nat.add_assoc]

theorem quoteIn_backslash (rest : Bytes) :
    quoteIn false (Byte.backslash :: rest) = (quoteIn false rest.tail).map (· + 2) := by
  cases rest with
  | nil => rfl
  | cons b rest =>
    rw [quoteIn, if_neg Bool.false_ne_true, if_neg (by decide), beq_self_eq_true, quoteIn,
      if_pos rfl, List.tail_cons]
    cases quoteIn false rest <;> rfl

/-- No string is closed by blanks. -/
theorem quoteIn_append_blank {u : Bytes} (hu : Blank u) (escaped : Bool) (rest : Bytes) :
    quoteIn escaped (rest ++ u) = quoteIn escaped rest := by
  induction rest generalizing escaped with
  | nil =>
    induction u generalizing escaped with
    | nil => rfl
    | cons b u ih =>
      obtain ⟨hb, hu⟩ := List.forall_mem_cons.1 hu
      have hq : (b == Byte.quote) = false := by
        rw [beq_eq_false_iff_ne]
        rintro rfl
        exact absurd hb (by decide)
      have hrest : ∀ escaped, quoteIn escaped u = none := fun escaped => ih hu escaped
      rw [List.nil_append, quoteIn.eq_2, hq, hrest, hrest]
      cases escaped <;> rfl
  | cons b rest ih => simp only [List.cons_append, quoteIn, ih]

/-- What reads a string byte by byte, at most `w` of them, comes to the quote that closes it, or
else stays inside.  The states after `n` bytes of the string are `inside escaped n`, and `after n`
once it is closed. -/
theorem run_quoteIn {σ : Type} (run : Nat → σ → Bytes → σ) (inside : Bool → Nat → σ)
    (after : Nat → σ) (hnil : ∀ w s, run w s [] = s) (hzero : ∀ s rest, run 0 s rest = s)
    (hstep : ∀ escaped n w b rest, run (w + 1) (inside escaped n) (b :: rest) =
      run w (if escaped then inside false (n + 1) else if b == Byte.quote then after (n + 1)
        else inside (b == Byte.backslash) (n + 1)) rest)
    (escaped : Bool) (n w : Nat) (rest : Bytes) :
    (∀ i, quoteIn escaped (rest.take w) = some i → run w (inside escaped n) rest =
      run (w - (i + 1)) (after (n + (i + 1))) (rest.drop (i + 1))) ∧
    (quoteIn escaped (rest.take w) = none →
      ∃ escaped' m, run w (inside escaped n) rest = inside escaped' m) := by
  induction rest generalizing escaped n w with
  | nil =>
    rw [List.take_nil, hnil]
    exact ⟨nofun, fun _ => ⟨escaped, n, rfl⟩⟩
  | cons b rest ih =>
    cases w with
    | zero =>
      rw [List.take_zero, hzero]
      exact ⟨nofun, fun _ => ⟨escaped, n, rfl⟩⟩
    | succ w =>
      -- One byte that does not close the string, and the rest of it.
      have hmore : ∀ escaped, (∀ i, (quoteIn escaped (rest.take w)).map (· + 1) = some i →
          run w (inside escaped (n + 1)) rest =
            run (w + 1 - (i + 1)) (after (n + (i + 1))) ((b :: rest).drop (i + 1))) ∧
          ((quoteIn escaped (rest.take w)).map (· + 1) = none →
            ∃ escaped' m, run w (inside escaped (n + 1)) rest = inside escaped' m) := by
        intro escaped
        obtain ⟨hsome, hnone⟩ := ih escaped (n + 1) w
        refine ⟨?_, fun hi => hnone (Option.map_eq_none_iff.1 hi)⟩
        intro i hi
        obtain ⟨j, hj, rfl⟩ := Option.map_eq_some_iff.1 hi
        rw [hsome j hj, List.drop_succ_cons, Nat.add_sub_add_right, Nat.add_assoc, Nat.add_comm 1]
      rw [hstep, List.take_succ_cons, quoteIn]
      cases escaped with
      | true => exact hmore false
      | false =>
        simp only [Bool.false_eq_true, if_false]
        by_cases hq : b == Byte.quote
        · rw [if_pos hq, if_pos hq]
          refine ⟨?_, nofun⟩
          intro i hi
          cases hi
          rfl
        · rw [if_neg hq, if_neg hq]
          exact hmore (b == Byte.backslash)

theorem Cursor.stringEnd_eq (hlimit : limit ≤ text.length) (pos : Nat) :
    Cursor.stringEnd text limit pos =
      some ((quoteIn false ((text.drop pos).take (limit - pos))).map (pos + · + 1)) := by
  refine Cursor.loop_eq (fun _ => True)
    (fun pos => (quoteIn false ((text.drop pos).take (limit - pos))).map (pos + · + 1)) ?_ trivial
  intro pos _
  by_cases hlt : pos < limit
  · have hbetween : Cursor.between text pos limit = some ((text.drop pos).take (limit - pos)) :=
      if_pos ⟨Nat.le_of_lt hlt, hlimit⟩
    simp only [if_pos hlt, hbetween, Option.bind_eq_bind, Option.bind_some]
    rcases Cursor.findIdx?_cases (fun b => b == Byte.quote || b == Byte.backslash)
      ((text.drop pos).take (limit - pos)) with ⟨hnone, hall⟩ | ⟨u, b, v, htext, hu, hb, hsome⟩
    · have hin := quoteIn_plain hall []
      rw [List.append_nil] at hin
      rw [hnone, hin]
      exact .inl rfl
    have hlen := congrArg List.length htext
    rw [List.length_take, List.length_drop, List.length_append, List.length_cons] at hlen
    have hall : text.drop pos = u ++ b :: (v ++ (text.drop pos).drop (limit - pos)) := by
      rw [← List.cons_append, ← List.append_assoc, ← htext, List.take_append_drop]
    have hlast : text.drop (pos + u.length) = b :: (v ++ (text.drop pos).drop (limit - pos)) := by
      rw [Cursor.drop_add hall, List.drop_left]
    have hbyte : Cursor.byteAt text (pos + u.length) = some b := Cursor.getElem?_of_drop hlast
    rw [hsome, htext, quoteIn_plain hu]
    simp only [hbyte, Option.bind_some]
    by_cases hq : b == Byte.quote
    · rw [if_pos hq]
      exact .inl (by simp [quoteIn, hq])
    · have hback : b = Byte.backslash := by simpa [hq] using hb
      subst hback
      -- The byte after a backslash is passed over, even one past the limit.
      have hlater : (text.drop (pos + u.length + 2)).take (limit - (pos + u.length + 2)) =
          v.tail := by
        rw [Cursor.drop_add hlast]
        cases v with
        | nil =>
          rw [List.length_nil] at hlen
          rw [show limit - (pos + u.length + 2) = 0 by omega]
          rfl
        | cons c v =>
          rw [List.length_cons] at hlen
          rw [show limit - (pos + u.length + 2) = v.length by omega]
          exact List.take_left
      rw [if_neg hq]
      refine .inr ⟨pos + u.length + 2, rfl, by omega, trivial, ?_⟩
      rw [hlater, quoteIn_backslash]
      cases quoteIn false v.tail
      · rfl
      · simp
        omega
  · rw [if_neg hlt, Nat.sub_eq_zero_of_le (Nat.le_of_not_lt hlt), List.take_zero]
    exact .inl rfl

/-! ## Numbers and keywords -/

/-- The bytes of a number or keyword. -/
def scalarBytes (s : Bytes) : Bytes := s.takeWhile fun b => !Cursor.isSeparator b

theorem Cursor.isSeparator_cases {b : UInt8} (h : Cursor.isSeparator b) :
    b = 0x2C ∨ b = 0x3A ∨ b = 0x5B ∨ b = 0x5D ∨ b = 0x7B ∨ b = 0x7D ∨ b = Byte.quote ∨
      Byte.isBlank b := by
  simpa only [Cursor.isSeparator, Bool.or_eq_true, beq_iff_eq, or_assoc] using h

theorem isSeparator_of_isBlank {b : UInt8} (h : Byte.isBlank b) : Cursor.isSeparator b := by
  simp [Cursor.isSeparator, h]

theorem scalarBytes_append_blank {u : Bytes} (hu : Blank u) (rest : Bytes) :
    scalarBytes (rest ++ u) = scalarBytes rest := by
  induction rest with
  | nil =>
    cases u with
    | nil => rfl
    | cons b u => simp [scalarBytes, isSeparator_of_isBlank (hu b List.mem_cons_self)]
  | cons b rest ih =>
    unfold scalarBytes at ih ⊢
    rw [List.cons_append, List.takeWhile_cons, List.takeWhile_cons, ih]

/-- The rest of a number or keyword inside a window, and what comes after it. -/
theorem scalarBytes_split (rest : Bytes) (w : Nat) :
    ∃ more, rest = scalarBytes (rest.take w) ++ more ∧ (scalarBytes (rest.take w)).length ≤ w ∧
      (∀ b ∈ scalarBytes (rest.take w), Cursor.isSeparator b = false) ∧
      ∀ b ∈ (more.take (w - (scalarBytes (rest.take w)).length)).head?, Cursor.isSeparator b := by
  have hsplit : scalarBytes (rest.take w) ++
      (rest.take w).dropWhile (fun b => !Cursor.isSeparator b) = rest.take w :=
    List.takeWhile_append_dropWhile
  have hlen := congrArg List.length hsplit
  rw [List.length_append, List.length_take] at hlen
  have hdrop : (rest.drop (scalarBytes (rest.take w)).length).take
      (w - (scalarBytes (rest.take w)).length) =
      (rest.take w).dropWhile (fun b => !Cursor.isSeparator b) := by
    rw [← List.drop_take]
    exact (congrArg (List.drop _) hsplit.symm).trans List.drop_left
  refine ⟨rest.drop (scalarBytes (rest.take w)).length, ?_, by omega,
    fun b hb => by simpa using List.mem_takeWhile_imp hb, fun b hb => ?_⟩
  · have hprefix : scalarBytes (rest.take w) <+: rest :=
      (List.takeWhile_prefix _).trans (List.take_prefix _ _)
    exact (List.prefix_iff_eq_append.1 hprefix).symm
  · rw [hdrop] at hb
    have hhead := List.head?_dropWhile_not (fun b => !Cursor.isSeparator b) (rest.take w)
    rw [Option.mem_def.1 hb] at hhead
    simpa using hhead

theorem Cursor.scalarEnd_eq (hlimit : limit ≤ text.length) (pos : Nat) :
    Cursor.scalarEnd text limit pos =
      some (pos + (scalarBytes ((text.drop pos).take (limit - pos))).length) := by
  refine Cursor.loop_eq (fun _ => True)
    (fun pos => pos + (scalarBytes ((text.drop pos).take (limit - pos))).length) ?_ trivial
  intro pos _
  by_cases hlt : pos < limit
  · obtain ⟨b, rest, hrest⟩ := Cursor.exists_drop_of_lt (Nat.lt_of_lt_of_le hlt hlimit)
    have hbyte : Cursor.byteAt text pos = some b := Cursor.getElem?_of_drop hrest
    have hnext : text.drop (pos + 1) = rest := Cursor.drop_add hrest 1
    obtain ⟨n, hn⟩ : ∃ n, limit - pos = n + 1 := ⟨limit - pos - 1, by omega⟩
    simp only [if_pos hlt, hbyte, Option.bind_eq_bind, Option.bind_some]
    rw [hrest, hn, List.take_succ_cons, scalarBytes, List.takeWhile_cons]
    cases hb : Cursor.isSeparator b with
    | true => exact .inl rfl
    | false =>
      refine .inr ⟨pos + 1, rfl, by omega, trivial, ?_⟩
      rw [hnext, show limit - (pos + 1) = n by omega]
      simp [scalarBytes, Nat.add_assoc, Nat.add_comm 1]
  · rw [if_neg hlt, Nat.sub_eq_zero_of_le (Nat.le_of_not_lt hlt), List.take_zero]
    exact .inl rfl

/-! ## Samples -/

namespace Sample

variable {most w n : Nat} {s : Sample} {b : UInt8}

/-- The numbers of a sample that its shape depends on. -/
def counts (s : Sample) : Nat × Nat × Nat × Bool :=
  (s.elements, s.tokens, s.complete, s.closed)

/-- Whether a sample is between two tokens of an array that is not closed. -/
def IsBetween (s : Sample) : Prop :=
  s.place = .between ∧ s.closed = false

theorem IsBetween.step_eq (h : s.IsBetween) : s.step b = s.structural b := by
  simp only [step, h.1]

/-- Whether a sample goes on with a further byte. -/
def GoesOn (most : Nat) (s : Sample) : Prop :=
  s.closed = false ∧ s.elements < most

theorem run_nil : run most w s [] = s := by
  cases w <;> rfl

theorem run_zero : run most 0 s rest = s := by
  cases rest <;> rfl

theorem run_cons (h : s.GoesOn most) :
    run most (w + 1) s (b :: rest) = run most w (s.step b) rest := by
  obtain ⟨hc, he⟩ := h
  rw [run, if_neg]
  simp [hc, he]

theorem run_of_not_goesOn (h : ¬ s.GoesOn most) : run most w s rest = s := by
  cases w with
  | zero => exact run_zero
  | succ w =>
    cases rest with
    | nil => rfl
    | cons b rest =>
      rw [run, if_pos]
      by_contra hgo
      exact h (by simpa [GoesOn] using hgo)

/-- Where inside a string a sample is. -/
def stringPlace (escaped : Bool) : Place := if escaped then .escape else .string

theorem step_string {escaped : Bool} (hp : s.place = stringPlace escaped) :
    s.step b =
      if escaped then s.move .string
      else if b == Byte.quote then s.move .between
      else s.move (stringPlace (b == Byte.backslash)) := by
  unfold stringPlace at hp ⊢
  cases escaped with
  | true => simp [step, hp]
  | false =>
    simp only [step, hp, Bool.false_eq_true, if_false]
    split
    · rfl
    · split <;> rfl

/-- The same sample some bytes further on. -/
def along (s : Sample) (place : Place) (n : Nat) : Sample :=
  { s with place := place, read := s.read + n }

/-- A string is read up to the quote that closes it, or else nothing more is counted. -/
theorem run_string (hg : s.GoesOn most) (w : Nat) (rest : Bytes) :
    (∀ i, quoteIn false (rest.take w) = some i → run most w (s.along .string 0) rest =
      run most (w - (i + 1)) (s.along .between (i + 1)) (rest.drop (i + 1))) ∧
    (quoteIn false (rest.take w) = none →
      (run most w (s.along .string 0) rest).counts = s.counts) := by
  have hstep : ∀ (escaped : Bool) (n w : Nat) (b : UInt8) (rest : Bytes),
      run most (w + 1) (s.along (stringPlace escaped) n) (b :: rest) =
        run most w (if escaped then s.along (stringPlace false) (n + 1)
          else if b == Byte.quote then s.along .between (n + 1)
          else s.along (stringPlace (b == Byte.backslash)) (n + 1)) rest := by
    intro escaped n w b rest
    have hg' : (s.along (stringPlace escaped) n).GoesOn most := hg
    rw [run_cons hg', step_string rfl]
    rfl
  obtain ⟨hsome, hnone⟩ := run_quoteIn (run most) (fun escaped => s.along (stringPlace escaped))
    (s.along .between) (fun _ _ => run_nil) (fun _ _ => run_zero) hstep false 0 w rest
  refine ⟨?_, fun hi => ?_⟩
  · intro i hi
    have hrun := hsome i hi
    rw [Nat.zero_add] at hrun
    exact hrun
  · obtain ⟨escaped, n, hrun⟩ := hnone hi
    have hrun : run most w (s.along .string 0) rest = s.along (stringPlace escaped) n := hrun
    rw [hrun]
    rfl

/-- The bytes of a number or keyword are counted as one token. -/
theorem structural_of_not_separator (hb : Cursor.isSeparator b = false) :
    s.structural b = if s.place = .scalar then s.move .scalar else s.count.move .scalar := by
  simp only [Cursor.isSeparator, Bool.or_eq_false_iff] at hb
  simp [structural, hb]

theorem structural_blank (hb : Byte.isBlank b) : s.structural b = s.move .between := by
  simp only [Byte.isBlank, Bool.or_eq_true, beq_iff_eq] at hb
  rcases hb with ((rfl | rfl) | rfl) | rfl <;> simp [structural, Byte.isBlank, Byte.quote]

theorem run_scalar {u : Bytes} (hp : s.place = .scalar) (hg : s.GoesOn most)
    (hu : ∀ b ∈ u, Cursor.isSeparator b = false) (hw : u.length ≤ w) :
    run most w s (u ++ rest) =
      run most (w - u.length) { s with read := s.read + u.length } rest := by
  induction u generalizing s w with
  | nil => rfl
  | cons b u ih =>
    obtain ⟨hb, hu⟩ := List.forall_mem_cons.1 hu
    obtain ⟨w, rfl⟩ : ∃ n, w = n + 1 := ⟨w - 1, by rw [List.length_cons] at hw; omega⟩
    have hstep : s.step b = s.move .scalar := by
      simp only [step, hp]
      rw [structural_of_not_separator hb, if_pos hp]
    have hrest := ih (s := s.move .scalar) rfl hg hu (Nat.le_of_succ_le_succ hw)
    rw [List.cons_append, run_cons hg, hstep, hrest, List.length_cons, Nat.add_sub_add_right]
    simp [move, hp, Nat.add_assoc, Nat.add_comm 1]

/-- At a byte that ends numbers and keywords it makes no difference whether one came before. -/
theorem structural_of_separator (hb : Cursor.isSeparator b) (place : Place) :
    ({ s with place := place } : Sample).structural b = s.structural b := by
  -- The branch that looks at the place is for other bytes only.
  rcases Cursor.isSeparator_cases hb with rfl | rfl | rfl | rfl | rfl | rfl | rfl | hb
  case inr.inr.inr.inr.inr.inr.inr =>
    rw [structural_blank hb, structural_blank hb]
    rfl
  all_goals rfl

/-- Counting after a number or keyword has ended. -/
theorem counts_run_of_separator (hrest : ∀ b ∈ (rest.take w).head?, Cursor.isSeparator b)
    (hp : s.place = .between) :
    (run most w { s with place := .scalar } rest).counts = (run most w s rest).counts := by
  by_cases hg : s.GoesOn most
  · cases w with
    | zero => simp only [run_zero, counts]
    | succ w =>
      cases rest with
      | nil => simp only [run_nil, counts]
      | cons b rest =>
        have hb : Cursor.isSeparator b := hrest b rfl
        have hg' : ({ s with place := .scalar } : Sample).GoesOn most := hg
        have hstep : ({ s with place := .scalar } : Sample).step b = s.step b := by
          simp only [step, hp]
          exact structural_of_separator hb .scalar
        rw [run_cons hg, run_cons hg', hstep]
  · have hg' : ¬ ({ s with place := .scalar } : Sample).GoesOn most := hg
    rw [run_of_not_goesOn hg, run_of_not_goesOn hg']
    rfl

/-! ## Samples that start later -/

/-- The same sample counted from a place so many bytes before. -/
def shift (s : Sample) (n : Nat) : Sample :=
  { s with read := s.read + n, complete := s.complete + n }

theorem structural_shift (s : Sample) (n : Nat) (b : UInt8) :
    (s.shift n).structural b = (s.structural b).shift n := by
  unfold structural
  simp only [apply_ite (fun t : Sample => t.shift n)]
  simp only [shift, count, move, Nat.add_right_comm]
  rfl

theorem step_shift (s : Sample) (n : Nat) (b : UInt8) :
    (s.shift n).step b = (s.step b).shift n := by
  have hmove : ∀ place, (s.shift n).move place = (s.move place).shift n := fun place => by
    simp only [shift, move, Nat.add_right_comm]
  have hplace : (s.shift n).place = s.place := rfl
  unfold step
  rw [hplace]
  cases s.place with
  | between | scalar => exact structural_shift s n b
  | string => simp only [apply_ite (fun t : Sample => t.shift n), hmove]
  | escape => exact hmove .string

theorem run_shift (most w n : Nat) (s : Sample) (rest : Bytes) :
    run most w (s.shift n) rest = (run most w s rest).shift n := by
  induction rest generalizing w s with
  | nil => simp only [run_nil]
  | cons b rest ih =>
    cases w with
    | zero => rfl
    | succ w =>
      by_cases hg : s.GoesOn most
      · have hg' : (s.shift n).GoesOn most := hg
        rw [run_cons hg, run_cons hg', step_shift, ih]
      · have hg' : ¬ (s.shift n).GoesOn most := hg
        rw [run_of_not_goesOn hg, run_of_not_goesOn hg']

end Sample

/-! ## Windows -/

namespace Cursor

variable {w : Nat} {b : UInt8}

/-- The window of a text with blanks at its end, which may cut into them. -/
theorem take_window (htrail : Blank trail) (rest : Bytes) (w : Nat) :
    ∃ u, Blank u ∧ (rest ++ trail).take (min (rest.length + trail.length) w) = rest.take w ++ u := by
  refine ⟨trail.take (w - rest.length), fun b hb => htrail b (List.mem_of_mem_take hb), ?_⟩
  rw [← List.length_append, Nat.min_comm, ← List.take_eq_take_min, List.take_append]

/-- Where sampling by position is in a text: `rest` is what is left of the sampled part, `trail`
the blanks after it, and `w` what is left of the window. -/
structure Stands (text : Bytes) (limit pos w : Nat) (rest trail : Bytes) : Prop where
  limit_le : limit ≤ text.length
  drop_eq : text.drop pos = rest ++ trail
  blank : Blank trail
  window_eq : limit - pos = min (rest.length + trail.length) w

namespace Stands

theorem byte_eq (h : Stands text limit pos w (b :: rest) trail) : text[pos]? = some b :=
  getElem?_of_drop h.drop_eq

theorem next_eq (h : Stands text limit pos w (b :: rest) trail) :
    text.drop (pos + 1) = rest ++ trail :=
  drop_add h.drop_eq 1

theorem exists_window (h : Stands text limit pos w rest trail) (hlt : pos < limit) :
    ∃ n, w = n + 1 := by
  have hw := h.window_eq
  exact ⟨w - 1, by omega⟩

theorem ended (h : Stands text limit pos w rest trail) (hle : limit ≤ pos) :
    w = 0 ∨ rest = [] := by
  have hw := h.window_eq
  rw [← List.length_eq_zero_iff]
  omega

theorem rest_window_eq (h : Stands text limit pos (w + 1) (b :: rest) trail) :
    limit - (pos + 1) = min (rest.length + trail.length) w := by
  have hw := h.window_eq
  rw [List.length_cons] at hw
  omega

/-- Further on in the same text. -/
theorem later (h : Stands text limit pos (w + 1) (b :: rest) trail) {next k : Nat}
    (hk : k ≤ rest.length) (hkw : k ≤ w) (hnext : next = pos + 1 + k) :
    Stands text limit next (w - k) (rest.drop k) trail := by
  subst hnext
  have hw := h.rest_window_eq
  refine ⟨h.limit_le, ?_, h.blank, ?_⟩
  · rw [drop_add h.next_eq, List.drop_append_of_le_length hk]
  · rw [List.length_drop]
    omega

/-- The blanks at the end make no difference to where a string closes. -/
theorem quoteIn_eq (h : Stands text limit pos (w + 1) (b :: rest) trail) :
    quoteIn false ((text.drop (pos + 1)).take (limit - (pos + 1))) =
      quoteIn false (rest.take w) := by
  obtain ⟨u, hu, hwindow⟩ := take_window h.blank rest w
  rw [h.next_eq, h.rest_window_eq, hwindow, quoteIn_append_blank hu]

end Stands

end Cursor

/-! ## Samples by position -/

namespace Cursor

variable {most w : Nat} {s : Sample} {b : UInt8}

theorem sample_done (h : ¬ (s.read < limit ∧ s.elements < most)) :
    sample text limit most s = some s := by
  refine loop_done ?_
  rw [sampleToken, if_neg h]
  rfl

theorem sample_again {t : Sample} (h : sampleToken text limit most s = some (.inr t))
    (hlt : s.read < limit) (ht : s.read < t.read) :
    sample text limit most s = sample text limit most t := by
  refine loop_again h ?_
  omega

/-- A bracket, a comma, a colon or a blank by position. -/
theorem sampleToken_structural (hp : s.place = .between) (hlt : s.read < limit)
    (he : s.elements < most) (hb : text[s.read]? = some b) (hq : b ≠ Byte.quote)
    (hsep : isSeparator b) (hend : ¬ (b = 0x5D ∧ s.depth = 0)) :
    sampleToken text limit most s = some (.inr (s.structural b)) := by
  obtain ⟨place, depth, elements, tokens, current, read, complete, closed⟩ := s
  subst hp
  have hb : byteAt text read = some b := hb
  have hq : (b == Byte.quote) = false := by simpa using hq
  rw [sampleToken, if_pos ⟨hlt, he⟩]
  simp only [Option.bind_eq_bind, hb, Option.bind_some, hq, Bool.false_eq_true, if_false]
  unfold Sample.structural
  simp only [hq, Bool.false_eq_true, if_false]
  by_cases h₁ : b == 0x7B || b == 0x5B
  · rw [if_pos h₁, if_pos h₁]
    rfl
  rw [if_neg h₁, if_neg h₁]
  by_cases h₂ : (b == 0x7D || b == 0x5D) && depth != 0
  · rw [if_pos h₂, if_pos h₂]
    have hd : 1 ≤ depth := by
      simp only [Bool.and_eq_true, bne_iff_ne] at h₂
      omega
    rw [minus_eq hd]
    rfl
  rw [if_neg h₂, if_neg h₂]
  have h₃ : ¬ (b == 0x5D) := by
    intro h
    refine hend ⟨eq_of_beq h, ?_⟩
    simpa [h] using h₂
  rw [if_neg h₃, if_neg h₃]
  by_cases h₄ : b == 0x2C && depth == 0
  · rw [if_pos h₄, if_pos h₄]
    rfl
  rw [if_neg h₄, if_neg h₄]
  by_cases h₅ : b == 0x2C || b == 0x3A || b == 0x7D
  · rw [if_pos h₅, if_pos h₅]
    rfl
  rw [if_neg h₅, if_neg h₅]
  by_cases h₆ : Byte.isBlank b
  · rw [if_pos h₆, if_pos h₆]
    rfl
  · simp_all [isSeparator]

/-- The bracket that closes the array, by position. -/
theorem sampleToken_close (hlt : s.read < limit) (he : s.elements < most)
    (hb : text[s.read]? = some 0x5D) (hd : s.depth = 0) :
    ∃ s', sampleToken text limit most s = some (.inl s') ∧
      s'.counts = (s.structural 0x5D).counts := by
  have hb : byteAt text s.read = some 0x5D := hb
  rw [sampleToken, if_pos ⟨hlt, he⟩]
  simp only [Option.bind_eq_bind, hb, Option.bind_some, hd, bne_self_eq_false, Bool.and_false,
    show ((0x5D : UInt8) == Byte.quote) = false by decide,
    show ((0x5D : UInt8) == 0x7B || (0x5D : UInt8) == 0x5B) = false by decide,
    show ((0x5D : UInt8) == 0x5D) = true by decide, Bool.false_eq_true, if_false, if_true]
  have hstructural : (s.structural 0x5D).counts =
      (s.elements + (if s.current = 0 then 0 else 1), s.tokens + s.current, s.read, true) := by
    simp [Sample.structural, Sample.counts, Sample.move, Byte.quote, hd]
  rw [hstructural]
  by_cases hc : s.current = 0
  · rw [if_pos hc]
    exact ⟨_, rfl, by simp [Sample.counts, hc]⟩
  · rw [if_neg hc]
    exact ⟨_, rfl, by simp [Sample.counts, hc]⟩

theorem structural_place (hq : b ≠ Byte.quote) (hsep : isSeparator b)
    (hend : ¬ (b = 0x5D ∧ s.depth = 0)) :
    (s.structural b).place = .between ∧ (s.structural b).closed = s.closed ∧
      (s.structural b).read = s.read + 1 := by
  rcases isSeparator_cases hsep with rfl | rfl | rfl | rfl | rfl | rfl | rfl | hb
  · -- A comma ends an element, or is inside of one.
    by_cases hd : s.depth == 0 <;>
      simp [Sample.structural, Sample.count, Sample.move, Byte.quote, hd]
  · exact ⟨rfl, rfl, rfl⟩
  · exact ⟨rfl, rfl, rfl⟩
  · have hd : s.depth ≠ 0 := fun hd => hend ⟨rfl, hd⟩
    simp [Sample.structural, Sample.count, Sample.move, Byte.quote, hd]
  · exact ⟨rfl, rfl, rfl⟩
  · -- A closing brace without an opening one is a token like others.
    by_cases hd : s.depth != 0 <;>
      simp [Sample.structural, Sample.count, Sample.move, Byte.quote, hd]
  · exact absurd rfl hq
  · rw [Sample.structural_blank hb]
    exact ⟨rfl, rfl, rfl⟩

/-- What only blanks follow changes no more. -/
theorem sample_blank (hlimit : limit ≤ text.length) (hp : s.place = .between)
    (hblank : Blank (text.drop s.read)) :
    ∃ s', sample text limit most s = some s' ∧ s'.counts = s.counts := by
  induction hn : limit - s.read generalizing s with
  | zero =>
    refine ⟨s, sample_done ?_, rfl⟩
    omega
  | succ n ih =>
    by_cases he : s.elements < most
    · have hlt : s.read < limit := by omega
      obtain ⟨b, rest, hrest⟩ := exists_drop_of_lt (Nat.lt_of_lt_of_le hlt hlimit)
      rw [hrest] at hblank
      obtain ⟨hb, hmore⟩ := List.forall_mem_cons.1 hblank
      have hbyte := getElem?_of_drop hrest
      have hq : b ≠ Byte.quote := by
        rintro rfl
        exact absurd hb (by decide)
      have hclose : ¬ (b = 0x5D ∧ s.depth = 0) := by
        rintro ⟨rfl, -⟩
        exact absurd hb (by decide)
      have htoken := sampleToken_structural hp hlt he hbyte hq (isSeparator_of_isBlank hb) hclose
      rw [Sample.structural_blank hb] at htoken
      have hlater : Blank (text.drop (s.move .between).read) := by
        show Blank (text.drop (s.read + 1))
        rw [drop_add hrest]
        exact hmore
      have hless : limit - (s.move .between).read = n := by
        show limit - (s.read + 1) = n
        omega
      rw [sample_again htoken hlt (Nat.lt_succ_self _)]
      obtain ⟨s', hs', hcounts⟩ := ih (s := s.move .between) rfl hlater hless
      exact ⟨s', hs', hcounts⟩
    · exact ⟨s, sample_done fun h => he h.2, rfl⟩

theorem sampleToken_quote (hlimit : limit ≤ text.length) (hp : s.place = .between)
    (hlt : s.read < limit) (he : s.elements < most) (hb : text[s.read]? = some Byte.quote) :
    sampleToken text limit most s =
      match quoteIn false ((text.drop (s.read + 1)).take (limit - (s.read + 1))) with
      | some i => some (.inr ((s.count.move .between).along .between (i + 1)))
      | none => some (.inl s.count) := by
  have hb : byteAt text s.read = some Byte.quote := hb
  rw [sampleToken, if_pos ⟨hlt, he⟩]
  simp only [Option.bind_eq_bind, hb, Option.bind_some, beq_self_eq_true, if_true,
    stringEnd_eq hlimit]
  cases quoteIn false ((text.drop (s.read + 1)).take (limit - (s.read + 1))) with
  | none => rfl
  | some i => simp [Sample.along, Sample.move, Sample.count, hp, Nat.add_assoc]

theorem sampleToken_scalar (hlimit : limit ≤ text.length) (hp : s.place = .between)
    (hlt : s.read < limit) (he : s.elements < most) (hb : text[s.read]? = some b)
    (hsep : isSeparator b = false) :
    sampleToken text limit most s = some (.inr (s.count.along .between
      (scalarBytes ((text.drop s.read).take (limit - s.read))).length)) := by
  have hb : byteAt text s.read = some b := hb
  simp only [isSeparator, Bool.or_eq_false_iff] at hsep
  rw [sampleToken, if_pos ⟨hlt, he⟩]
  simp only [Option.bind_eq_bind, hb, Option.bind_some, hsep, Bool.or_false, Bool.false_and,
    Bool.false_eq_true, if_false, scalarEnd_eq hlimit]
  simp [Sample.along, Sample.count, hp]

/-- Whether a sample by position counts what a sample byte by byte counts. -/
def Counts (text : Bytes) (limit most : Nat) (s : Sample) (w : Nat) (rest : Bytes) : Prop :=
  ∃ s', sample text limit most s = some s' ∧ s'.counts = (Sample.run most w s rest).counts

section

variable (h : Stands text limit s.read (w + 1) (b :: rest) trail) (hs : s.IsBetween)
  (hlt : s.read < limit) (he : s.elements < most)
  (ih : ∀ (s' : Sample) (w' : Nat) (rest' : Bytes), s.read < s'.read → s'.IsBetween →
    Stands text limit s'.read w' rest' trail → Counts text limit most s' w' rest')

include h hs hlt he ih

theorem counts_quote (hb : b = Byte.quote) : Counts text limit most s (w + 1) (b :: rest) := by
  subst hb
  have hg : s.GoesOn most := ⟨hs.2, he⟩
  have hstep : s.step Byte.quote = (s.count.move .between).along .string 0 := hs.step_eq
  have hg' : (s.count.move .between).GoesOn most := hg
  obtain ⟨hsome, hnone⟩ := Sample.run_string hg' w rest
  have htoken := sampleToken_quote h.limit_le hs.1 hlt he h.byte_eq
  rw [h.quoteIn_eq] at htoken
  unfold Counts
  rw [Sample.run_cons hg, hstep]
  cases hi : quoteIn false (rest.take w) with
  | none =>
    rw [hi] at htoken
    exact ⟨s.count, loop_done htoken, (hnone hi).symm⟩
  | some i =>
    rw [hi] at htoken
    have hin := quoteIn_lt hi
    rw [List.length_take] at hin
    have hread : s.read < ((s.count.move .between).along .between (i + 1)).read := by
      show s.read < s.read + 1 + (i + 1)
      omega
    rw [sample_again htoken hlt hread, hsome i hi]
    exact ih _ _ _ hread ⟨rfl, hs.2⟩ (h.later (by omega) (by omega) rfl)

theorem counts_scalar (hb : isSeparator b = false) :
    Counts text limit most s (w + 1) (b :: rest) := by
  have hg : s.GoesOn most := ⟨hs.2, he⟩
  have hstep : s.step b = s.count.move .scalar := by
    rw [hs.step_eq, Sample.structural_of_not_separator hb, if_neg (by simp [hs.1])]
  have hg' : (s.count.move .scalar).GoesOn most := hg
  obtain ⟨u, hu, hwindow⟩ := take_window h.blank (b :: rest) (w + 1)
  rw [← h.window_eq, ← h.drop_eq] at hwindow
  have hscalar : scalarBytes ((b :: rest).take (w + 1)) = b :: scalarBytes (rest.take w) := by
    rw [List.take_succ_cons, scalarBytes, List.takeWhile_cons, if_pos (by simp [hb])]
    rfl
  have htoken := sampleToken_scalar h.limit_le hs.1 hlt he h.byte_eq hb
  rw [hwindow, scalarBytes_append_blank hu, hscalar] at htoken
  obtain ⟨more, hmore, hle, hnot, hhead⟩ := scalarBytes_split rest w
  generalize scalarBytes (rest.take w) = run at htoken hmore hle hnot hhead
  subst hmore
  have hread : (s.count.along .between (b :: run).length).read = s.read + 1 + run.length := by
    rw [Nat.add_assoc, Nat.add_comm 1]
    rfl
  have hlater : Stands text limit (s.count.along .between (b :: run).length).read (w - run.length)
      ((run ++ more).drop run.length) trail := h.later (by simp) hle hread
  rw [List.drop_left] at hlater
  obtain ⟨t, ht, hcounts⟩ := ih (s.count.along .between (b :: run).length) _ _ (by omega)
    ⟨rfl, hs.2⟩ hlater
  unfold Counts
  rw [sample_again htoken hlt (by omega), Sample.run_cons hg, hstep]
  refine ⟨t, ht, ?_⟩
  rw [hcounts, Sample.run_scalar rfl hg' hnot hle, ← Sample.counts_run_of_separator hhead rfl]
  simp [Sample.along, Sample.count, Sample.move, Nat.add_assoc, Nat.add_comm 1]

theorem counts_separator (hq : b ≠ Byte.quote) (hb : isSeparator b) :
    Counts text limit most s (w + 1) (b :: rest) := by
  have hg : s.GoesOn most := ⟨hs.2, he⟩
  unfold Counts
  rw [Sample.run_cons hg, hs.step_eq]
  by_cases hend : b = 0x5D ∧ s.depth = 0
  · obtain ⟨rfl, hd⟩ := hend
    obtain ⟨t, ht, hcounts⟩ := sampleToken_close hlt he h.byte_eq hd
    have hclosed : ¬ (s.structural 0x5D).GoesOn most := by
      simp [Sample.structural, Sample.GoesOn, Byte.quote, hd]
    refine ⟨t, loop_done ht, ?_⟩
    rw [hcounts, Sample.run_of_not_goesOn hclosed]
  · obtain ⟨hp, hc, hread⟩ := structural_place hq hb hend
    have htoken := sampleToken_structural hs.1 hlt he h.byte_eq hq hb hend
    rw [sample_again htoken hlt (by omega)]
    exact ih _ _ _ (by omega) ⟨hp, hc.trans hs.2⟩ (h.later (Nat.zero_le _) (Nat.zero_le _) hread)

end

/-- **A sample by position counts what a sample byte by byte counts.** -/
theorem sample_eq (h : Stands text limit s.read w rest trail) (hs : s.IsBetween) :
    Counts text limit most s w rest := by
  -- Every round moves the position on.
  induction hn : limit - s.read using Nat.strongRecOn generalizing s rest w with
  | ind n ih =>
    subst hn
    by_cases hgo : s.read < limit ∧ s.elements < most
    · obtain ⟨hlt, he⟩ := hgo
      have ih : ∀ (s' : Sample) (w' : Nat) (rest' : Bytes), s.read < s'.read → s'.IsBetween →
          Stands text limit s'.read w' rest' trail → Counts text limit most s' w' rest' := by
        intro s' w' rest' hread hs' h'
        exact ih _ (by omega) h' hs' rfl
      cases rest with
      | nil =>
        unfold Counts
        rw [Sample.run_nil]
        refine sample_blank h.limit_le hs.1 ?_
        rw [h.drop_eq]
        exact h.blank
      | cons b rest =>
        obtain ⟨w, rfl⟩ := h.exists_window hlt
        by_cases hq : b = Byte.quote
        · exact counts_quote h hs hlt he ih hq
        · cases hb : isSeparator b with
          | true => exact counts_separator h hs hlt he ih hq hb
          | false => exact counts_scalar h hs hlt he ih hb
    · have hend : Sample.run most w s rest = s := by
        by_cases he : s.elements < most
        · rcases h.ended (Nat.le_of_not_lt fun hlt => hgo ⟨hlt, he⟩) with rfl | rfl
          · exact Sample.run_zero
          · exact Sample.run_nil
        · exact Sample.run_of_not_goesOn fun hg => he hg.2
      exact ⟨s, sample_done hgo, by rw [hend]⟩

/-- The sample of an array whose first element is at `first`. -/
theorem sample_first {first : Nat} (hlimit : limit ≤ text.length)
    (htext : text.drop first = rest ++ trail) (htrail : Blank trail)
    (hw : limit - first = min (rest.length + trail.length) w) (most : Nat) :
    ∃ s, sample text limit most { read := first, complete := first } = some s ∧
      s.counts = ((Sample.run most w {} rest).shift first).counts := by
  have hstart : ({ read := first, complete := first } : Sample) = ({} : Sample).shift first := by
    simp [Sample.shift]
  have hstands : Stands text limit first w rest trail := ⟨hlimit, htext, htrail, hw⟩
  obtain ⟨s, hs, hcounts⟩ : Counts text limit most { read := first, complete := first } w rest :=
    sample_eq hstands ⟨rfl, rfl⟩
  refine ⟨s, hs, ?_⟩
  rw [hcounts, hstart, Sample.run_shift]

/-! ## The shape of an array by position -/

/-- The last byte, if there is one, is not blank. -/
def NoBlankEnd (s : Bytes) : Prop := ∀ b ∈ s.getLast?, ¬ Byte.isBlank b

theorem NoBlankEnd.tail (h : NoBlankEnd (b :: rest)) : NoBlankEnd rest := by
  cases rest with
  | nil => exact nofun
  | cons c rest =>
    unfold NoBlankEnd at h ⊢
    rwa [List.getLast?_cons_cons] at h

theorem NoBlankEnd.drop (h : NoBlankEnd rest) (n : Nat) : NoBlankEnd (rest.drop n) := by
  induction n generalizing rest with
  | zero => exact h
  | succ n ih =>
    cases rest with
    | nil => exact h
    | cons b rest => exact ih h.tail

theorem NoBlankEnd.eq_nil (h : NoBlankEnd rest) (hb : Blank rest) : rest = [] := by
  by_contra hne
  have hlast := List.getLast?_eq_some_getLast hne
  exact h _ hlast (hb _ (List.getLast_mem hne))

theorem divide_eq {a b : Nat} (h : b ≠ 0) : divide a b = some (a / b) :=
  if_neg h

/-- The blanks at the end are cut off byte by byte. -/
theorem trimEnd_eq {first : Nat} (htext : text.drop first = rest ++ trail) (htrail : Blank trail)
    (hrest : NoBlankEnd rest) (hne : rest ≠ []) :
    trimEnd text first text.length = some (first + rest.length) := by
  have hlen := congrArg List.length htext
  have hpos := List.length_pos_iff.2 hne
  rw [List.length_drop, List.length_append] at hlen
  have hbyte : ∀ n, byteAt text (first + n) = (rest ++ trail)[n]? := by
    intro n
    rw [byteAt, getElem?_eq_head?, drop_add htext, List.head?_drop]
  refine loop_eq (fun stop => ∃ n, n ≤ trail.length ∧ stop = first + rest.length + n)
    (fun _ => first + rest.length) ?_ ⟨trail.length, Nat.le_refl _, by omega⟩
  rintro stop ⟨n, hn, rfl⟩
  rw [if_pos (by omega), minus_eq (by omega)]
  cases n with
  | zero =>
    have hlast := List.getLast?_eq_some_getLast hne
    have hend : byteAt text (first + rest.length + 0 - 1) = some (rest.getLast hne) := by
      rw [Nat.add_zero, Nat.add_sub_assoc hpos, hbyte, List.getElem?_append_left (by omega),
        ← List.getLast?_eq_getElem?, hlast]
    simp only [Option.bind_eq_bind, Option.bind_some, hend, if_neg (hrest _ hlast)]
    exact .inl rfl
  | succ n =>
    have hblank : Byte.isBlank trail[n] := htrail _ (List.getElem_mem hn)
    have hend : byteAt text (first + rest.length + (n + 1) - 1) = some trail[n] := by
      rw [show first + rest.length + (n + 1) - 1 = first + (rest.length + n) by omega, hbyte,
        List.getElem?_append_right (by omega), Nat.add_sub_cancel_left, List.getElem?_eq_getElem hn]
    simp only [Option.bind_eq_bind, Option.bind_some, hend, if_pos hblank]
    exact .inr ⟨_, rfl, by omega, ⟨n, by omega, by omega⟩, trivial⟩

/-- The shape after a sample depends on what it counts and on the extent of the array. -/
theorem sampledShape_eq {threshold first : Nat} {m : Sample}
    (hcounts : s.counts = (m.shift first).counts)
    (hend : trimEnd text first text.length = some (first + rest.length)) :
    sampledShape threshold text first s = some (m.shape threshold fun _ => rest.length) := by
  obtain ⟨he, ht, hc, hcl⟩ : s.elements = m.elements ∧ s.tokens = m.tokens ∧
      s.complete = m.complete + first ∧ s.closed = m.closed := by
    simpa [Sample.counts, Sample.shift] using hcounts
  unfold sampledShape Sample.shape
  rw [he, ht, hc, hcl]
  by_cases hzero : m.elements = 0
  · rw [if_pos hzero, if_pos hzero]
    rfl
  · have hmax : max m.complete 1 ≠ 0 := by omega
    rw [if_neg hzero, if_neg hzero, divide_eq hzero, minus_eq (Nat.le_add_left _ _), hend]
    simp only [Option.bind_eq_bind, Option.bind_some]
    rw [minus_eq (Nat.le_add_right _ _), Nat.add_sub_cancel, Nat.add_sub_cancel_left]
    simp only [Option.bind_some, divide_eq hmax]
    cases m.closed <;> rfl

/-- **The shape of an array by position.**  Blanks at the end of the text make no difference. -/
theorem sampleArray_eq (settings : ShapeSettings) {opening : Nat} (hopen : opening < text.length)
    (htext : text.drop (opening + 1) = rest ++ trail) (htrail : Blank trail)
    (hrest : NoBlankEnd rest) :
    sampleArray settings text opening = some (FlatJson.sampleArray settings rest) := by
  have hlen := congrArg List.length htext
  rw [List.length_drop, List.length_append] at hlen
  have hsplit : rest.takeWhile Byte.isBlank ++ skipBlank rest = rest :=
    List.takeWhile_append_dropWhile
  have hlead : Blank (rest.takeWhile Byte.isBlank) := fun b hb => List.mem_takeWhile_imp hb
  unfold sampleArray FlatJson.sampleArray
  rw [skip_eq, htext]
  simp only [Option.bind_eq_bind, Option.bind_some]
  cases hbody : skipBlank rest with
  | nil =>
    rw [hbody, List.append_nil] at hsplit
    obtain rfl : rest = [] := hrest.eq_nil (hsplit ▸ hlead)
    have hall : trail.takeWhile Byte.isBlank = trail := List.takeWhile_eq_self_iff.2 htrail
    rw [List.length_nil] at hlen
    rw [List.nil_append, hall, if_pos (by omega)]
    rfl
  | cons b body =>
    rw [hbody] at hsplit
    have hb : Byte.isBlank b = false := by
      have hhead := List.head?_dropWhile_not Byte.isBlank rest
      rw [show rest.dropWhile Byte.isBlank = b :: body from hbody] at hhead
      simpa using hhead
    -- The first element starts after the blanks `lead`.
    generalize rest.takeWhile Byte.isBlank = lead at hsplit hlead
    subst hsplit
    have htake : (lead ++ b :: body ++ trail).takeWhile Byte.isBlank = lead := by
      rw [List.append_assoc, List.takeWhile_append_of_pos hlead, List.cons_append,
        List.takeWhile_cons, hb]
      exact List.append_nil lead
    have hfirst : text.drop (opening + 1 + lead.length) = b :: body ++ trail := by
      rw [drop_add htext, List.append_assoc, List.drop_left]
    have hbyte : byteAt text (opening + 1 + lead.length) = some b := getElem?_of_drop hfirst
    rw [List.length_append] at hlen
    rw [htake, if_neg (by rw [List.length_cons] at hlen; omega), hbyte]
    simp only [Option.bind_some]
    by_cases hclose : b == 0x5D
    · rw [if_pos hclose, if_pos hclose]
      rfl
    · rw [if_neg hclose, if_neg hclose]
      have hlimit : min text.length (opening + 1 + settings.sampleWindow) ≤ text.length :=
        Nat.min_le_left _ _
      have hw : min text.length (opening + 1 + settings.sampleWindow) -
          (opening + 1 + lead.length) = min ((b :: body).length + trail.length)
            (settings.sampleWindow - lead.length) := by
        omega
      have hend : NoBlankEnd (b :: body) := by
        have hdrop := hrest.drop lead.length
        rwa [List.drop_left] at hdrop
      obtain ⟨s, hs, hcounts⟩ := sample_first hlimit hfirst htrail hw settings.sampleElements
      rw [hs]
      exact sampledShape_eq hcounts (trimEnd_eq hfirst htrail hend (List.cons_ne_nil b body))

end Cursor

end FlatJson
