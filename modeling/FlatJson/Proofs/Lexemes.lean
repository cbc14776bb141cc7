import FlatJson.Proofs.Leaves

/-!
# Numbers and strings, byte by byte

The scanner follows a number or a string by a part.  Here every part is given the texts that have
been read when it is reached, so that a complete lexeme is one that the grammar derives, and every
lexeme of the grammar is read to its end.

* `NumberPart.Holds`, `NumberPart.Reads` — what a number holds so far, and how it goes on.
* `StringPart.Holds` — what a string holds so far, with the places that its errors name.
* `Lead.Starts` — the bytes that start a token of each sort.
-/

namespace FlatJson.Scan

/-! ## First bytes -/

/-- Whether the byte starts a token of the sort. -/
def Lead.starts (b : UInt8) : Lead → Bool
  | .blank => Byte.isBlank b
  | .opening c => b == c.opener
  | .closing c => b == c.closer
  | .comma => b == 0x2C
  | .colon => b == 0x3A
  | .quote => b == Byte.quote
  | .number .sign => b == 0x2D
  | .number .zero => b == 0x30
  | .number .whole => Byte.isDigit b && b != 0x30
  | .number _ => false
  | .word w => w.spelling.head? == some b
  | .other => false

theorem Lead.starts_ofByte : ∀ b, Lead.ofByte b = .other ∨ (Lead.ofByte b).starts b := by
  decide +kernel

theorem Lead.ofByte_of_starts {lead : Lead} {b : UInt8} (h : lead.starts b) :
    Lead.ofByte b = lead := by
  cases lead with
  | blank =>
    unfold Lead.ofByte
    exact if_pos h
  | opening c =>
    obtain rfl := eq_of_beq h
    cases c <;> rfl
  | closing c =>
    obtain rfl := eq_of_beq h
    cases c <;> rfl
  | comma | colon | quote =>
    obtain rfl := eq_of_beq h
    rfl
  | number part =>
    cases part with
    | sign | zero =>
      obtain rfl := eq_of_beq h
      rfl
    | whole =>
      revert b
      decide +kernel
    | _ => cases h
  | word w =>
    have hb : w.spelling.head? = some b := eq_of_beq h
    cases w <;> obtain rfl := Option.some.inj hb <;> rfl
  | other => cases h

theorem Lead.ofByte_eq_iff {lead : Lead} (h : lead ≠ .other) (b : UInt8) :
    Lead.ofByte b = lead ↔ lead.starts b := by
  refine ⟨?_, Lead.ofByte_of_starts⟩
  rintro rfl
  exact (Lead.starts_ofByte b).resolve_left h

/-! ## Numbers: what has been read -/

/-- The texts that have been read when a number has got this far. -/
inductive NumberPart.Holds : NumberPart → Bytes → Prop
  | sign : NumberPart.Holds .sign [0x2D]
  | zero {sign : Bytes} : sign ∈ [[], [0x2D]] → NumberPart.Holds .zero (sign ++ [0x30])
  | whole {sign s : Bytes} {b : UInt8} :
      sign ∈ [[], [0x2D]] → Byte.isDigit b → b ≠ 0x30 → AllDigits s →
      NumberPart.Holds .whole (sign ++ b :: s)
  | point {sign whole : Bytes} :
      sign ∈ [[], [0x2D]] → IsWhole whole → NumberPart.Holds .point (sign ++ whole ++ [0x2E])
  | fraction {sign whole s : Bytes} :
      sign ∈ [[], [0x2D]] → IsWhole whole → s ≠ [] → AllDigits s →
      NumberPart.Holds .fraction (sign ++ whole ++ 0x2E :: s)
  | exponent {sign whole fraction : Bytes} {b : UInt8} :
      sign ∈ [[], [0x2D]] → IsWhole whole → IsFraction fraction → isExponentLetter b →
      NumberPart.Holds .exponent (sign ++ whole ++ fraction ++ [b])
  | exponentSign {sign whole fraction : Bytes} {b c : UInt8} :
      sign ∈ [[], [0x2D]] → IsWhole whole → IsFraction fraction → isExponentLetter b →
      c = 0x2B ∨ c = 0x2D → NumberPart.Holds .exponentSign (sign ++ whole ++ fraction ++ [b, c])
  | exponentDigits {sign whole fraction mark s : Bytes} {b : UInt8} :
      sign ∈ [[], [0x2D]] → IsWhole whole → IsFraction fraction → isExponentLetter b →
      mark ∈ [[], [0x2B], [0x2D]] → s ≠ [] → AllDigits s →
      NumberPart.Holds .exponentDigits (sign ++ whole ++ fraction ++ b :: (mark ++ s))

theorem needDigit_more {part part' : NumberPart} {expected : String} {b : UInt8}
    (h : needDigit part expected (some b) = .more part') : Byte.isDigit b ∧ part' = part := by
  simp only [needDigit] at h
  split at h
  · rename_i hb
    cases h
    exact ⟨hb, rfl⟩
  · cases h

theorem needDigit_ne_done {part : NumberPart} {expected : String} {next : Option UInt8} :
    needDigit part expected next ≠ .done := by
  unfold needDigit
  split
  · split <;> simp
  · simp

theorem afterWhole_more {part : NumberPart} {b : UInt8} (h : afterWhole (some b) = .more part) :
    (b = 0x2E ∧ part = .point) ∨ (isExponentLetter b ∧ part = .exponent) := by
  simp only [afterWhole] at h
  split at h
  · rename_i hb
    cases h
    exact .inl ⟨by simpa using hb, rfl⟩
  · split at h
    · rename_i hb
      cases h
      exact .inr ⟨hb, rfl⟩
    · cases h

namespace NumberPart

variable {part part' : NumberPart} {s : Bytes} {b : UInt8} {next : Option UInt8}

theorem Holds.afterWhole {sign whole : Bytes} (hs : sign ∈ [[], [0x2D]]) (hw : IsWhole whole)
    (h : afterWhole (some b) = .more part') : part'.Holds (sign ++ whole ++ [b]) := by
  rcases afterWhole_more h with ⟨rfl, rfl⟩ | ⟨hb, rfl⟩
  · exact .point hs hw
  · have he := Holds.exponent hs hw .absent hb
    rwa [List.append_nil] at he

theorem Holds.of_lead (h : Lead.ofByte b = .number part) : part.Holds [b] := by
  have hb := (Lead.ofByte_eq_iff (by simp) b).1 h
  cases part with
  | sign =>
    obtain rfl : b = 0x2D := by simpa [Lead.starts] using hb
    exact .sign
  | zero =>
    obtain rfl : b = 0x30 := by simpa [Lead.starts] using hb
    exact @Holds.zero [] (by simp)
  | whole =>
    obtain ⟨hd, h0⟩ : Byte.isDigit b ∧ b ≠ 0x30 := by simpa [Lead.starts] using hb
    exact @Holds.whole [] [] b (by simp) hd h0 (fun _ hc => nomatch hc)
  | _ => cases hb

/-- One more byte of a number. -/
theorem Holds.read (hp : part.Holds s) (h : part.read (some b) = .more part') :
    part'.Holds (s ++ [b]) := by
  cases hp with
  | sign =>
    simp only [NumberPart.read] at h
    by_cases h0 : b = 0x30
    · subst h0
      cases h
      exact @Holds.zero [0x2D] (by simp)
    · rw [if_neg (by simpa using h0)] at h
      obtain ⟨hb, rfl⟩ := needDigit_more h
      exact @Holds.whole [0x2D] [] b (by simp) hb h0 (fun _ hc => nomatch hc)
  | zero hs =>
    simp only [NumberPart.read] at h
    split at h
    · cases h
    · exact Holds.afterWhole hs .zero h
  | whole hs hb h0 hd =>
    simp only [NumberPart.read] at h
    split at h
    · rename_i hc
      cases h
      have hd' := hd.append (AllDigits.single hc)
      simpa using Holds.whole hs hb h0 hd'
    · exact Holds.afterWhole hs (.digits hb h0 hd) h
  | point hs hw =>
    obtain ⟨hb, rfl⟩ := needDigit_more h
    simpa using Holds.fraction hs hw (List.cons_ne_nil b []) (AllDigits.single hb)
  | fraction hs hw hne hd =>
    simp only [NumberPart.read] at h
    split at h
    · rename_i hb
      cases h
      simpa using Holds.fraction hs hw (by simp) (hd.append (AllDigits.single hb))
    · split at h
      · rename_i hb
        cases h
        exact .exponent hs hw (.present hne hd) hb
      · cases h
  | exponent hs hw hf he =>
    simp only [NumberPart.read] at h
    split at h
    · rename_i hb
      cases h
      simpa using Holds.exponentSign hs hw hf he (by simpa using hb)
    · obtain ⟨hb, rfl⟩ := needDigit_more h
      have hm : [] ∈ [[], [(0x2B : UInt8)], [0x2D]] := by simp
      simpa using Holds.exponentDigits hs hw hf he hm (List.cons_ne_nil b []) (AllDigits.single hb)
  | @exponentSign _ _ _ _ c hs hw hf he hc =>
    obtain ⟨hb, rfl⟩ := needDigit_more h
    have hm : [c] ∈ [[], [(0x2B : UInt8)], [0x2D]] := by simpa using hc
    simpa using Holds.exponentDigits hs hw hf he hm (List.cons_ne_nil b []) (AllDigits.single hb)
  | exponentDigits hs hw hf he hm hne hd =>
    simp only [NumberPart.read] at h
    split at h
    · rename_i hb
      cases h
      simpa using Holds.exponentDigits hs hw hf he hm (by simp) (hd.append (AllDigits.single hb))
    · cases h

/-- A number that ends is a number of the grammar. -/
theorem Holds.isNumber (hp : part.Holds s) (h : part.read next = .done) : IsNumber s := by
  cases hp with
  | sign =>
    simp only [NumberPart.read] at h
    split at h
    · cases h
    · exact absurd h needDigit_ne_done
  | zero hs => simpa using IsNumber.mk hs .zero .absent .absent
  | whole hs hb h0 hd => simpa using IsNumber.mk hs (.digits hb h0 hd) .absent .absent
  | point => exact absurd h needDigit_ne_done
  | fraction hs hw hne hd => simpa using IsNumber.mk hs hw (.present hne hd) .absent
  | exponent =>
    simp only [NumberPart.read] at h
    split at h
    · cases h
    · exact absurd h needDigit_ne_done
  | exponentSign => exact absurd h needDigit_ne_done
  | exponentDigits hs hw hf he hm hne hd => exact .mk hs hw hf (.present he hm hne hd)

theorem not_isDigit_of_done (h : part.read (some b) = .done) : ¬ Byte.isDigit b := by
  intro hb
  cases part <;> simp [NumberPart.read, needDigit, hb] at h
  all_goals split at h <;> cases h

/-- At the end of the text a number is complete, or something was needed. -/
theorem read_none : part.read none = .done ∨ ∃ expected, part.read none = .wrong expected := by
  cases part <;> simp [NumberPart.read, needDigit, Scan.afterWhole]

/-! ## Numbers: how they go on -/

/-- From one part to another by some bytes, each of which continues the number. -/
inductive Reads : NumberPart → Bytes → NumberPart → Prop
  | nil (part : NumberPart) : Reads part [] part
  | cons {p q r : NumberPart} {b : UInt8} {s : Bytes} :
      p.read (some b) = .more q → Reads q s r → Reads p (b :: s) r

theorem Reads.append {p q r : NumberPart} {s t : Bytes} (h : Reads p s q) (h' : Reads q t r) :
    Reads p (s ++ t) r := by
  induction h with
  | nil => exact h'
  | cons hb _ ih => exact .cons hb (ih h')

/-- Whether a number may be complete here. -/
def isFinal : NumberPart → Bool
  | .zero | .whole | .fraction | .exponentDigits => true
  | _ => false

/-- Whether the byte may continue a number that could be complete. -/
def continues (b : UInt8) : Bool :=
  Byte.isDigit b || b == 0x2E || isExponentLetter b

/-- A number that may be complete ends at any byte that continues no number. -/
theorem read_done (hp : part.isFinal) (h : ∀ b, next = some b → ¬ continues b) :
    part.read next = .done := by
  cases next with
  | none =>
    cases part with
    | zero | whole | fraction | exponentDigits => rfl
    | _ => cases hp
  | some b =>
    have hb : continues b = false := by simpa using h b rfl
    simp only [continues, Bool.or_eq_false_iff, beq_eq_false_iff_ne] at hb
    obtain ⟨⟨hd, hpt⟩, he⟩ := hb
    cases part with
    | zero | whole | fraction | exponentDigits =>
      simp [NumberPart.read, Scan.afterWhole, hd, hpt, he]
    | _ => cases hp

theorem Reads.digits (hp : part = .whole ∨ part = .fraction ∨ part = .exponentDigits)
    (hd : AllDigits s) : Reads part s part := by
  induction s with
  | nil => exact .nil part
  | cons b s ih =>
    have hb : Byte.isDigit b := hd b List.mem_cons_self
    refine .cons ?_ (ih fun c hc => hd c (List.mem_cons_of_mem _ hc))
    rcases hp with rfl | rfl | rfl <;> simp [NumberPart.read, hb]

theorem Reads.whole (h : IsWhole s) :
    ∃ b t p, s = b :: t ∧ Lead.ofByte b = .number p ∧ NumberPart.sign.read (some b) = .more p ∧
      Reads p t p ∧ (p = .zero ∨ p = .whole) := by
  cases h with
  | zero => exact ⟨0x30, [], .zero, rfl, by decide, by decide, .nil _, .inl rfl⟩
  | @digits b t hb h0 hd =>
    refine ⟨b, t, .whole, rfl, Lead.ofByte_of_starts ?_, ?_, .digits (.inl rfl) hd, .inr rfl⟩
    · simp [Lead.starts, hb, h0]
    · simp [NumberPart.read, needDigit, hb, h0]

theorem Reads.fraction (hp : part = .zero ∨ part = .whole) (h : IsFraction s) :
    ∃ q, Reads part s q ∧ (q = .zero ∨ q = .whole ∨ q = .fraction) := by
  cases h with
  | absent => exact ⟨part, .nil part, by rcases hp with rfl | rfl <;> simp⟩
  | @present t hne hd =>
    cases t with
    | nil => exact absurd rfl hne
    | cons b t =>
      have hb : Byte.isDigit b := hd b List.mem_cons_self
      have ht : AllDigits t := fun c hc => hd c (List.mem_cons_of_mem _ hc)
      have hpoint : part.read (some 0x2E) = .more .point := by
        rcases hp with rfl | rfl <;> decide
      refine ⟨.fraction, .cons hpoint (.cons ?_ (.digits (.inr (.inl rfl)) ht)), by simp⟩
      simp [NumberPart.read, needDigit, hb]

/-- The exponent, if there is one. -/
theorem Reads.exponent (hp : part = .zero ∨ part = .whole ∨ part = .fraction)
    (h : IsExponent s) : ∃ q, Reads part s q ∧ q.isFinal := by
  cases h with
  | absent => exact ⟨part, .nil part, by rcases hp with rfl | rfl | rfl <;> rfl⟩
  | @present b mark t he hm hne hd =>
    cases t with
    | nil => exact absurd rfl hne
    | cons c t =>
      have hc : Byte.isDigit c := hd c List.mem_cons_self
      have ht : Reads .exponentDigits t .exponentDigits :=
        .digits (.inr (.inr rfl)) fun d hd' => hd d (List.mem_cons_of_mem _ hd')
      have hletter : part.read (some b) = .more .exponent := by
        revert b
        rcases hp with rfl | rfl | rfl <;> decide +kernel
      have hplain : ∀ c, Byte.isDigit c →
          NumberPart.exponent.read (some c) = .more .exponentDigits := by decide +kernel
      have hsigned : NumberPart.exponentSign.read (some c) = .more .exponentDigits := by
        simp [NumberPart.read, needDigit, hc]
      simp only [List.mem_cons, List.not_mem_nil, or_false] at hm
      rcases hm with rfl | rfl | rfl
      · exact ⟨_, .cons hletter (.cons (hplain c hc) ht), rfl⟩
      · exact ⟨_, .cons hletter (.cons (by decide) (.cons hsigned ht)), rfl⟩
      · exact ⟨_, .cons hletter (.cons (by decide) (.cons hsigned ht)), rfl⟩

/-- **Every number of the grammar is read to a part where it may be complete.** -/
theorem Reads.of_isNumber (h : IsNumber s) :
    ∃ b t p q, s = b :: t ∧ Lead.ofByte b = .number p ∧ Reads p t q ∧ q.isFinal := by
  obtain ⟨hs, hw, hf, he⟩ := h
  obtain ⟨b, t, p, rfl, hb, hsign, ht, hp⟩ := Reads.whole hw
  obtain ⟨q, hf, hq⟩ := Reads.fraction hp hf
  obtain ⟨r, he, hr⟩ := Reads.exponent hq he
  have hall := (ht.append hf).append he
  simp only [List.mem_cons, List.not_mem_nil, or_false] at hs
  rcases hs with rfl | rfl
  · exact ⟨b, _, p, r, by simp, hb, hall, hr⟩
  · exact ⟨0x2D, _, .sign, r, by simp, by decide, .cons hsign hall, hr⟩

end NumberPart

/-! ## Strings -/

/-- The texts that have been read since the opening quote, which ends at `start`, when a string has
got this far. -/
inductive StringPart.Holds (start : Nat) : StringPart → Bytes → Prop
  | body {s : Bytes} : IsContent s → StringPart.Holds start .body s
  | escape {s : Bytes} : IsContent s → StringPart.Holds start .escape (s ++ [Byte.backslash])
  | digits {s hex : Bytes} {missing : Nat} :
      IsContent s → (∀ b ∈ hex, Byte.isHexDigit b) → hex.length + missing = 4 → 0 < missing →
      StringPart.Holds start (.digits (start + s.length) missing)
        (s ++ Byte.backslash :: 0x75 :: hex)
  | tainted {s junk : Bytes} {b : UInt8} :
      IsContent s → Byte.isControl b → (∀ c ∈ junk, c ≠ Byte.quote ∧ c ≠ Byte.backslash) →
      StringPart.Holds start (.tainted b (start + s.length)) (s ++ b :: junk)

/-- One byte of a string completes it or leads to a further part. -/
theorem StringPart.Holds.inString {s s' : State} {start : Nat} {part : StringPart} {got : Bytes}
    {b : UInt8} (h : part.Holds (start + 1) got) (hpos : s.pos = start + 1 + got.length)
    (hs : s.inString start part b = .ok s') :
    (b = Byte.quote ∧ IsContent got ∧ s' = s.endString start) ∨
      ∃ part', part'.Holds (start + 1) (got ++ [b]) ∧
        s' = { s.advance with lexeme := .string start part' } := by
  cases h with
  | body hc =>
    simp only [State.inString] at hs
    split at hs
    · rename_i hq
      cases hs
      exact .inl ⟨by simpa using hq, hc, rfl⟩
    · rename_i hq
      refine .inr ?_
      split at hs
      · rename_i hb
        cases hs
        obtain rfl : b = Byte.backslash := by simpa using hb
        exact ⟨_, .escape hc, rfl⟩
      · rename_i hb
        split at hs
        · rename_i hctl
          cases hs
          rw [hpos]
          exact ⟨_, .tainted hc hctl (fun _ hm => nomatch hm), rfl⟩
        · rename_i hctl
          cases hs
          have hle : 0x20 ≤ b := not_isControl_iff.1 hctl
          have hp := IsContent.plain hle (by simpa using hq) (by simpa using hb) .nil
          exact ⟨_, .body (hc.append hp), rfl⟩
  | @escape c hc =>
    have hback : s.pos - 1 = start + 1 + c.length := by
      rw [hpos, List.length_append]
      exact Nat.add_sub_cancel _ 1
    simp only [State.inString] at hs
    refine .inr ?_
    split at hs
    · rename_i hu
      cases hs
      obtain rfl : b = 0x75 := by simpa using hu
      rw [hback, List.append_assoc]
      exact ⟨_, .digits hc (fun _ hm => nomatch hm) rfl (by omega), rfl⟩
    · split at hs
      · rename_i he
        cases hs
        rw [List.append_assoc]
        exact ⟨_, .body (hc.append (.short he .nil)), rfl⟩
      · cases hs
  | @digits c hex missing hc hd hlen hpos' =>
    simp only [State.inString] at hs
    refine .inr ?_
    split at hs
    · rename_i hx
      cases hs
      have hd' : ∀ x ∈ hex ++ [b], Byte.isHexDigit x := by
        intro x hm
        rcases List.mem_append.1 hm with hm | hm
        · exact hd x hm
        · rwa [List.mem_singleton.1 hm]
      have hlen' : (hex ++ [b]).length = hex.length + 1 := List.length_append
      rw [List.append_assoc, List.cons_append, List.cons_append]
      by_cases hle : missing ≤ 1
      · rw [if_pos hle]
        exact ⟨_, .body (hc.unit_of_length hd' (by omega)), rfl⟩
      · rw [if_neg hle]
        exact ⟨_, .digits hc hd' (by omega) (by omega), rfl⟩
    · cases hs
  | @tainted c junk x hc hctl hj =>
    simp only [State.inString] at hs
    refine .inr ?_
    split at hs
    · cases hs
    · rename_i hq
      cases hs
      simp only [Bool.or_eq_true, beq_iff_eq, not_or] at hq
      rw [List.append_assoc]
      refine ⟨_, .tainted hc hctl ?_, rfl⟩
      intro y hm
      rcases List.mem_append.1 hm with hm | hm
      · exact hj y hm
      · rwa [List.mem_singleton.1 hm]

end FlatJson.Scan
