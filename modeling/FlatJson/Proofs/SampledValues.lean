import FlatJson.Proofs.ArraySampling
import FlatJson.Proofs.Building

/-!
# Written values under the sample of an array

The sample of an array knows brackets, quotes and separators only.  Over a written value it counts
one for each token and comes out as deep inside brackets as it went in.

* `StartsApart` — a text before which a number or keyword ends.
* `Sample.Leads` — one sample leads over a text to another, as far as the counts show.
* `Sample.past`, `Sample.Tallies` — a text that counts as so many tokens of the current element.
* `Value.Written.tallies` — a value, wherever it stands in the array.
* `Sample.nextElement`, `Sample.lastElement` — what a comma and the closing bracket complete.
* `Sample.counts_run_of_le` — where nothing is counted up to some place, nothing is before it.
-/

namespace FlatJson

/-! ## Where lexemes end -/

/-- What stands between two quotes ends at the second of them. -/
theorem quoteIn_content {s : Bytes} (h : IsContent s) (rest : Bytes) :
    quoteIn false (s ++ Byte.quote :: rest) = some s.length := by
  induction h with
  | nil => rfl
  | @plain b s _ hq hb _ ih =>
    have hplain : ∀ c ∈ [b], ¬ (c == Byte.quote || c == Byte.backslash) := by simp [hq, hb]
    rw [← List.singleton_append, List.append_assoc, quoteIn_plain hplain, ih]
    rfl
  | short _ _ ih =>
    rw [List.cons_append, quoteIn_backslash, List.cons_append, List.tail_cons, ih]
    rfl
  | @unit h₁ h₂ h₃ h₄ s d₁ d₂ d₃ d₄ _ ih =>
    have hdigit : ∀ c, Byte.isHexDigit c → ¬ (c == Byte.quote || c == Byte.backslash) := by
      decide +kernel
    have hplain : ∀ c ∈ [h₁, h₂, h₃, h₄], ¬ (c == Byte.quote || c == Byte.backslash) := by
      intro c hc
      simp only [List.mem_cons, List.not_mem_nil, or_false] at hc
      rcases hc with rfl | rfl | rfl | rfl
      · exact hdigit c d₁
      · exact hdigit c d₂
      · exact hdigit c d₃
      · exact hdigit c d₄
    have htail : (0x75 :: h₁ :: h₂ :: h₃ :: h₄ :: s ++ Byte.quote :: rest).tail =
        [h₁, h₂, h₃, h₄] ++ (s ++ Byte.quote :: rest) := rfl
    rw [List.cons_append, quoteIn_backslash, htail, quoteIn_plain hplain, ih]
    rfl

theorem IsNumber.not_separator {s : Bytes} (h : IsNumber s) :
    ∀ b ∈ s, Cursor.isSeparator b = false := by
  have hbyte : ∀ b, Byte.isNumeric b → Cursor.isSeparator b = false := by decide +kernel
  exact fun b hb => hbyte b (h.isNumeric b hb)

theorem Keyword.not_separator (k : Keyword) : ∀ b ∈ k.spelling, Cursor.isSeparator b = false := by
  cases k <;> decide +kernel

/-- A number or keyword before this text ends there. -/
def StartsApart (rest : Bytes) : Prop := ∀ b ∈ rest.head?, Cursor.isSeparator b

theorem StartsApart.cons {b : UInt8} (h : Cursor.isSeparator b) (rest : Bytes) :
    StartsApart (b :: rest) := by
  intro c hc
  obtain rfl : b = c := Option.some.inj hc
  exact h

theorem StartsApart.blank_append {u rest : Bytes} (hu : Blank u) (h : StartsApart rest) :
    StartsApart (u ++ rest) := by
  cases u with
  | nil => exact h
  | cons b u => exact .cons (isSeparator_of_isBlank (hu b List.mem_cons_self)) (u ++ rest)

namespace Sample

variable {most depth m n : Nat} {s t x : Sample} {u v rest : Bytes}

/-! ## Texts that count as tokens -/

/-- Whether a sample is between two tokens and reads on. -/
def Ready (most : Nat) (s : Sample) : Prop := s.IsBetween ∧ s.GoesOn most

/-- Over `u`, before `rest`, the sample `s` leads to the sample `t`, as far as the counts show. -/
def Leads (most : Nat) (s t : Sample) (u rest : Bytes) : Prop :=
  s.Ready most → t.Ready most ∧
    ∀ w, (run most (u.length + w) s (u ++ rest)).counts = (run most w t rest).counts

/-- So many tokens and bytes further on in the same element. -/
def past (s : Sample) (tokens bytes : Nat) : Sample :=
  { s with current := s.current + tokens, read := s.read + bytes }

/-- In an element, inside so many brackets at least, the text before `rest` counts as so many
tokens. -/
def Tallies (most depth : Nat) (u rest : Bytes) (tokens : Nat) : Prop :=
  ∀ s : Sample, depth ≤ s.depth → Leads most s (s.past tokens u.length) u rest

theorem Leads.trans (h : Leads most s t u (v ++ rest)) (h' : Leads most t x v rest) :
    Leads most s x (u ++ v) rest := by
  intro hs
  obtain ⟨ht, hu⟩ := h hs
  obtain ⟨hx, hv⟩ := h' ht
  refine ⟨hx, fun w => ?_⟩
  rw [List.length_append, List.append_assoc, Nat.add_assoc, hu, hv]

theorem leads_byte {b : UInt8} (h : s.Ready most → s.structural b = t ∧ t.Ready most) :
    Leads most s t [b] rest := by
  intro hs
  obtain ⟨rfl, ht⟩ := h hs
  refine ⟨ht, fun w => ?_⟩
  rw [List.length_singleton, Nat.add_comm, List.singleton_append, run_cons hs.2, hs.1.step_eq]

theorem Tallies.trans (h : Tallies most depth u (v ++ rest) m) (h' : Tallies most depth v rest n) :
    Tallies most depth (u ++ v) rest (m + n) := by
  intro s hs
  have hall := (h s hs).trans (h' (s.past m u.length) hs)
  simpa [past, Nat.add_assoc] using hall

theorem Tallies.inside (h : Tallies most 0 u rest n) (depth : Nat) : Tallies most depth u rest n :=
  fun s _ => h s (Nat.zero_le _)

theorem tallies_byte {b : UInt8}
    (h : ∀ s : Sample, depth ≤ s.depth → s.place = .between → s.structural b = s.past n 1) :
    Tallies most depth [b] rest n := by
  intro s hd
  refine leads_byte fun hs => ⟨h s hd hs.1.1, hs⟩

theorem tallies_blank (hu : Blank u) : Tallies most depth u rest 0 := by
  induction u with
  | nil =>
    intro s _ hs
    refine ⟨hs, fun w => ?_⟩
    rw [List.length_nil, Nat.zero_add]
    rfl
  | cons b u ih =>
    obtain ⟨hb, hu⟩ := List.forall_mem_cons.1 hu
    have hbyte : Tallies most depth [b] (u ++ rest) 0 := tallies_byte fun s _ hp => by
      rw [structural_blank hb, move, ← hp]
      rfl
    exact hbyte.trans (ih hu)

/-- A number or keyword counts as one token. -/
theorem tallies_scalar (hne : u ≠ []) (hu : ∀ b ∈ u, Cursor.isSeparator b = false)
    (hrest : StartsApart rest) : Tallies most 0 u rest 1 := by
  intro s _ hs
  refine ⟨hs, fun w => ?_⟩
  obtain ⟨b, u, rfl⟩ := List.exists_cons_of_ne_nil hne
  obtain ⟨hb, hu⟩ := List.forall_mem_cons.1 hu
  have hstep : s.step b = s.count.move .scalar := by
    rw [hs.1.step_eq, structural_of_not_separator hb, if_neg (by simp [hs.1.1])]
  have hg : (s.count.move .scalar).GoesOn most := hs.2
  have hhead : ∀ c ∈ (rest.take w).head?, Cursor.isSeparator c := by
    intro c hc
    cases rest with
    | nil => simp at hc
    | cons d rest =>
      cases w with
      | zero => cases hc
      | succ w => exact hrest c hc
  have hp : (s.past 1 (u.length + 1)).place = .between := hs.1.1
  rw [List.length_cons, Nat.add_right_comm, List.cons_append, run_cons hs.2, hstep,
    run_scalar rfl hg hu (Nat.le_add_right _ _), Nat.add_sub_cancel_left,
    ← counts_run_of_separator hhead hp]
  simp [past, move, count, Nat.add_assoc, Nat.add_comm 1]

/-- A string counts as one token. -/
theorem tallies_quoted (hu : IsContent u) : Tallies most 0 (quoted u) rest 1 := by
  intro s _ hs
  refine ⟨hs, fun w => ?_⟩
  have hstep : s.step Byte.quote = (s.count.move .between).along .string 0 := hs.1.step_eq
  have hg : (s.count.move .between).GoesOn most := hs.2
  have hlen : (quoted u).length + w = u.length + 1 + w + 1 := by
    simp [quoted]
    omega
  have htext : quoted u ++ rest = Byte.quote :: (u ++ Byte.quote :: rest) := by simp [quoted]
  have hquote : quoteIn false ((u ++ Byte.quote :: rest).take (u.length + 1 + w)) =
      some u.length := by
    rw [Nat.add_assoc, List.take_length_add_append, Nat.add_comm 1, List.take_succ_cons,
      quoteIn_content hu]
  have hdrop : (u ++ Byte.quote :: rest).drop (u.length + 1) = rest := by simp
  have hrun := (run_string hg (u.length + 1 + w) (u ++ Byte.quote :: rest)).1 _ hquote
  rw [hdrop, Nat.add_sub_cancel_left] at hrun
  rw [hlen, htext, run_cons hs.2, hstep, hrun]
  simp [past, along, move, count, quoted, hs.1.1, Nat.add_assoc, Nat.add_comm 1]

theorem tallies_colon : Tallies most 0 [0x3A] rest 1 :=
  tallies_byte fun s _ hp => by simp [structural, Byte.quote, count, move, past, hp]

/-- Inside brackets a comma counts as one token. -/
theorem tallies_comma : Tallies most 1 [0x2C] rest 1 :=
  tallies_byte fun s hd hp => by
    have hd : s.depth ≠ 0 := by omega
    simp [structural, Byte.quote, count, move, past, hp, hd]

/-- A container counts its brackets and what is between them. -/
theorem Tallies.enclose (c : Container) (h : Tallies most 1 u ([c.closer] ++ rest) n) :
    Tallies most 0 (c.opener :: (u ++ [c.closer])) rest (n + 2) := by
  intro s _
  obtain ⟨inner, hinner⟩ : ∃ inner, inner = { s.past 1 1 with depth := s.depth + 1 } := ⟨_, rfl⟩
  have hopen : Leads most s inner [c.opener] ((u ++ [c.closer]) ++ rest) := leads_byte fun hs => by
    have hp := hs.1.1
    subst hinner
    refine ⟨?_, hs⟩
    cases c <;> simp [structural, Container.opener, Byte.quote, count, move, past, hp]
  have hin := h inner (by simp [hinner])
  have hclose : Leads most (inner.past n u.length) (s.past (n + 2) (u.length + 2)) [c.closer]
      rest := leads_byte fun hs => by
    subst hinner
    have hp : s.place = .between := hs.1.1
    refine ⟨?_, hs⟩
    cases c <;> simp [structural, Container.closer, Byte.quote, count, move, past, hp] <;> omega
  have hall := hopen.trans (hin.trans hclose)
  simpa using hall

/-- Blanks around a text make no difference. -/
theorem Tallies.padded {w : Bytes} (hu : Blank u) (hw : Blank w)
    (h : Tallies most depth v (w ++ rest) n) : Tallies most depth (u ++ v ++ w) rest n := by
  have hall := (tallies_blank hu).trans (h.trans (tallies_blank hw))
  simpa using hall

/-- The name of a member and its colon count as two tokens. -/
theorem Tallies.member {a b : Bytes} (ha : Blank a) (hu : IsContent u) (hb : Blank b)
    (h : Tallies most depth v rest n) :
    Tallies most depth (a ++ quoted u ++ b ++ 0x3A :: v) rest (n + 2) := by
  have hname : Tallies most depth (a ++ quoted u ++ b) ([0x3A] ++ v ++ rest) 1 :=
    .padded ha hb ((tallies_quoted hu).inside depth)
  have hall := hname.trans ((tallies_colon.inside depth).trans h)
  rwa [← Nat.add_assoc, Nat.add_comm] at hall

/-- What follows a comma inside brackets. -/
theorem Tallies.after_comma (h : Tallies most 1 u rest n) :
    Tallies most 1 (0x2C :: u) rest (n + 1) := by
  have hall := tallies_comma.trans h
  rwa [Nat.add_comm] at hall

end Sample

/-! ## Values -/

section

variable {most : Nat}

mutual

/-- **Over a written value the sample counts its tokens**, and comes out where it went in. -/
theorem Value.Written.tallies {v : Value} {s rest : Bytes} (h : v.Written s) (depth : Nat)
    (hrest : StartsApart rest) : Sample.Tallies most 0 s rest (v.leaves depth).length := by
  cases h with
  | null | yes | no => exact Sample.tallies_scalar (by decide) (Keyword.not_separator _) hrest
  | number hn => exact Sample.tallies_scalar hn.ne_nil hn.not_separator hrest
  | string hc => exact Sample.tallies_quoted hc
  | emptyArray hu => exact .enclose .array (Sample.tallies_blank hu)
  | emptyObject hu => exact .enclose .object (Sample.tallies_blank hu)
  | array hi =>
    rw [Value.leaves, List.length_cons, List.length_append]
    exact .enclose .array (hi.tallies (depth + 1) (.cons rfl rest))
  | object hm =>
    rw [Value.leaves, List.length_cons, List.length_append]
    exact .enclose .object (hm.tallies (depth + 1) (.cons rfl rest))

/-- Over the elements of an array inside an element the sample counts their tokens. -/
theorem WrittenItems.tallies {items : List Value} {s rest : Bytes} (h : WrittenItems items s)
    (depth : Nat) (hrest : StartsApart rest) :
    Sample.Tallies most 1 s rest (itemLeaves depth items false).length := by
  cases h with
  | one hu hv hw =>
    have hvalue := (hv.tallies depth (hrest.blank_append hw)).inside 1
    simpa [itemLeaves] using hvalue.padded hu hw
  | @more _ _ _ _ w r hu hv hw hr =>
    have hcomma : StartsApart (w ++ (0x2C :: r ++ rest)) := .blank_append hw (.cons rfl _)
    have hvalue := (hv.tallies depth hcomma).inside 1
    have hall := (hvalue.padded hu hw).trans (hr.tallies depth hrest).after_comma
    rw [itemLeaves, itemLeaves_true depth hr.ne_nil]
    simpa using hall

/-- Over the members of an object inside an element the sample counts their tokens. -/
theorem WrittenMembers.tallies {members : List (RawText × Value)} {s rest : Bytes}
    (h : WrittenMembers members s) (depth : Nat) (hrest : StartsApart rest) :
    Sample.Tallies most 1 s rest (memberLeaves depth members false).length := by
  cases h with
  | one ha hn hb hc hv hw =>
    have hvalue := (hv.tallies depth (hrest.blank_append hw)).inside 1
    simpa [memberLeaves] using (hvalue.padded hc hw).member ha hn hb
  | @more _ _ _ _ _ _ _ w r ha hn hb hc hv hw hr =>
    have hcomma : StartsApart (w ++ (0x2C :: r ++ rest)) := .blank_append hw (.cons rfl _)
    have hvalue := (hv.tallies depth hcomma).inside 1
    have hall := (hvalue.padded hc hw).trans (hr.tallies depth hrest).after_comma
    rw [memberLeaves, memberLeaves_true depth hr.ne_nil]
    simpa using hall.member ha hn hb

end

end

/-! ## Elements -/

namespace Sample

variable {most n w : Nat} {s : Sample} {u rest : Bytes} {b : UInt8}

/-- After the comma that follows an element. -/
def nextElement (s : Sample) : Sample :=
  { s with
    elements := s.elements + 1, tokens := s.tokens + s.current, current := 0
    read := s.read + 1, complete := s.read + 1 }

/-- After the closing bracket that follows an element. -/
def lastElement (s : Sample) : Sample :=
  { s with
    elements := s.elements + 1, tokens := s.tokens + s.current
    read := s.read + 1, complete := s.read, closed := true }

theorem run_comma (hs : s.Ready most) (hd : s.depth = 0) :
    run most (w + 1) s (0x2C :: rest) = run most w s.nextElement rest := by
  have hp := hs.1.1
  have hnext : s.structural 0x2C = s.nextElement := by
    simp [structural, Byte.quote, move, nextElement, hp, hd]
  rw [run_cons hs.2, hs.1.step_eq, hnext]

theorem run_close (hs : s.Ready most) (hd : s.depth = 0) (hc : s.current ≠ 0) :
    run most (w + 1) s (0x5D :: rest) = s.lastElement := by
  have hp := hs.1.1
  have hnext : s.structural 0x5D = s.lastElement := by
    simp [structural, Byte.quote, move, lastElement, hp, hd, hc]
  have hclosed : ¬ s.lastElement.GoesOn most := fun hg => Bool.noConfusion hg.1
  rw [run_cons hs.2, hs.1.step_eq, hnext, run_of_not_goesOn hclosed]

/-- An element with a comma after it. -/
theorem Tallies.run_comma (h : Tallies most 0 u (0x2C :: rest) n) (hs : s.Ready most)
    (hd : s.depth = 0) (w : Nat) :
    (run most (u.length + (w + 1)) s (u ++ 0x2C :: rest)).counts =
      (run most w (s.past n u.length).nextElement rest).counts := by
  obtain ⟨hready, hrun⟩ := h s (Nat.zero_le _) hs
  rw [hrun, Sample.run_comma hready hd]

/-- An element with the closing bracket after it. -/
theorem Tallies.run_close (h : Tallies most 0 u (0x5D :: rest) n) (hs : s.Ready most)
    (hd : s.depth = 0) (hn : n ≠ 0) (w : Nat) :
    (run most (u.length + (w + 1)) s (u ++ 0x5D :: rest)).counts =
      (s.past n u.length).lastElement.counts := by
  obtain ⟨hready, hrun⟩ := h s (Nat.zero_le _) hs
  have hc : (s.past n u.length).current ≠ 0 := by
    show s.current + n ≠ 0
    omega
  rw [hrun, Sample.run_close hready hd hc]

/-! ## Windows that cut an element -/

/-- How far the counts of a sample have come. -/
def progress (s : Sample) : Nat := s.elements + s.closed.toNat

theorem progress_eq_of_counts_eq {t : Sample} (h : s.counts = t.counts) :
    s.progress = t.progress := by
  simp only [counts, Prod.mk.injEq] at h
  obtain ⟨he, -, -, hc⟩ := h
  rw [progress, progress, he, hc]

/-- A byte leaves the counts alone, or they come further. -/
theorem counts_step (hc : s.closed = false) (b : UInt8) :
    (s.step b).counts = s.counts ∨ s.progress < (s.step b).progress := by
  have hstructural : (s.structural b).counts = s.counts ∨
      s.progress < (s.structural b).progress := by
    unfold structural
    split_ifs
    any_goals exact .inl rfl
    -- What is left are the closing bracket of the array and a comma between elements.
    all_goals
      refine .inr ?_
      simp only [progress, move, hc, Bool.toNat_false, Bool.toNat_true]
      omega
  cases hp : s.place with
  | between | scalar => simpa only [step, hp] using hstructural
  | string =>
    simp only [step, hp]
    split_ifs <;> exact .inl rfl
  | escape => exact .inl (by simp only [step, hp]; rfl)

/-- A run leaves the counts alone, or they come further. -/
theorem counts_run (most w : Nat) (s : Sample) (rest : Bytes) :
    (run most w s rest).counts = s.counts ∨ s.progress < (run most w s rest).progress := by
  induction rest generalizing w s with
  | nil => exact .inl (by rw [run_nil])
  | cons b rest ih =>
    by_cases hg : s.GoesOn most
    · cases w with
      | zero => exact .inl rfl
      | succ w =>
        rw [run_cons hg]
        rcases counts_step hg.1 b with hstep | hstep
        · rw [← hstep, ← progress_eq_of_counts_eq hstep]
          exact ih w (s.step b)
        · rcases ih w (s.step b) with hrun | hrun
          · exact .inr (by rwa [progress_eq_of_counts_eq hrun])
          · exact .inr (Nat.lt_trans hstep hrun)
    · exact .inl (by rw [run_of_not_goesOn hg])

/-- A run in a window is one in the first part of the window and one in the rest. -/
theorem run_add (most w n : Nat) (s : Sample) (rest : Bytes) :
    run most (w + n) s rest = run most n (run most w s rest) (rest.drop w) := by
  induction rest generalizing w s with
  | nil => simp only [run_nil, List.drop_nil]
  | cons b rest ih =>
    cases w with
    | zero => rw [run_zero, Nat.zero_add, List.drop_zero]
    | succ w =>
      by_cases hg : s.GoesOn most
      · rw [Nat.add_right_comm, run_cons hg, run_cons hg, ih, List.drop_succ_cons]
      · rw [run_of_not_goesOn hg, run_of_not_goesOn hg, run_of_not_goesOn hg]

/-- **Where nothing is counted up to some place, nothing is counted before it.** -/
theorem counts_run_of_le {m : Nat} (h : (run most n s rest).counts = s.counts) (hm : m ≤ n) :
    (run most m s rest).counts = s.counts := by
  obtain ⟨k, rfl⟩ := Nat.exists_eq_add_of_le hm
  have hend := progress_eq_of_counts_eq h
  rw [run_add] at hend
  rcases counts_run most m s rest with hrun | hrun
  · exact hrun
  · rcases counts_run most k (run most m s rest) (rest.drop m) with hlast | hlast
    · have hsame := progress_eq_of_counts_eq hlast
      omega
    · omega

/-- Nothing is counted in a window that ends inside an element. -/
theorem Tallies.run_cut (h : Tallies most 0 u rest n) (hs : s.Ready most) (hw : w ≤ u.length) :
    (run most w s (u ++ rest)).counts = s.counts := by
  have hall := (h s (Nat.zero_le _) hs).2 0
  rw [run_zero] at hall
  exact counts_run_of_le hall hw

end Sample

/-! ## Shapes -/

/-- A value starts with a byte that is neither blank nor the end of an array. -/
theorem Value.Written.exists_first {v : Value} {s : Bytes} (h : v.Written s) :
    ∃ b t, s = b :: t ∧ Byte.isBlank b = false ∧ b ≠ 0x5D := by
  have hscalar : ∀ b, Cursor.isSeparator b = false → Byte.isBlank b = false ∧ b ≠ 0x5D := by
    decide +kernel
  cases h with
  | null | yes | no => exact ⟨_, _, rfl, by decide⟩
  | number hn =>
    obtain ⟨b, t, rfl⟩ := List.exists_cons_of_ne_nil hn.ne_nil
    exact ⟨b, t, rfl, hscalar b (hn.not_separator b List.mem_cons_self)⟩
  | string | emptyArray | array | emptyObject | object => exact ⟨_, _, rfl, by decide⟩

/-- Blanks are skipped up to a text that does not start with one. -/
theorem skipBlank_append {u s : Bytes} (hu : Blank u) (hs : ∀ b ∈ s.head?, ¬ Byte.isBlank b) :
    skipBlank (u ++ s) = s := by
  rw [skipBlank, List.dropWhile_append_of_pos hu]
  cases s with
  | nil => rfl
  | cons b s => rw [List.dropWhile_cons, if_neg (hs b rfl)]

/-- Blanks at the end of a text are cut off. -/
theorem rdropWhile_append_blank {s w : Bytes} (hs : Cursor.NoBlankEnd s) (hw : Blank w) :
    (s ++ w).rdropWhile Byte.isBlank = s := by
  have hrev : Blank w.reverse := fun b hb => hw b (List.mem_reverse.1 hb)
  have hend : skipBlank (w.reverse ++ s.reverse) = s.reverse := by
    refine skipBlank_append hrev ?_
    rwa [List.head?_reverse]
  rw [List.rdropWhile, List.reverse_append]
  exact (congrArg List.reverse hend).trans (List.reverse_reverse s)

/-- The blanks that a text starts with. -/
theorem takeWhile_blank {u : Bytes} {b : UInt8} (hu : Blank u) (hb : Byte.isBlank b = false)
    (s : Bytes) : (u ++ b :: s).takeWhile Byte.isBlank = u := by
  rw [List.takeWhile_append_of_pos hu, List.takeWhile_cons, hb]
  exact List.append_nil u

/-- The sample of an array starts with its first element. -/
theorem sampleArray_of_first (settings : ShapeSettings) {u : Bytes} {b : UInt8} (hu : Blank u)
    (hb : Byte.isBlank b = false) (hclose : b ≠ 0x5D) (body : Bytes) :
    sampleArray settings (u ++ b :: body) =
      (Sample.run settings.sampleElements (settings.sampleWindow - u.length) {} (b :: body)).shape
        settings.largeArrayThreshold fun _ => (b :: body).length := by
  have hskip : skipBlank (u ++ b :: body) = b :: body := skipBlank_append hu (by simp [hb])
  have hlead : (u ++ b :: body).takeWhile Byte.isBlank = u := takeWhile_blank hu hb body
  have hclose : (b == 0x5D) = false := by simpa using hclose
  simp only [sampleArray, hskip, hlead, hclose, Bool.false_eq_true, if_false]

end FlatJson
