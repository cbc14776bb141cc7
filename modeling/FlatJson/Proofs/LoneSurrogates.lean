import FlatJson.Proofs.Denotation

/-!
# Surrogates without partners

Decoding stops at the first surrogate that belongs to no pair.  Which one that is can be said
without the walk over the escapes: whatever stands before it is paired, and it is a low surrogate, or
a high one with no low one right after it.

* `WellEscaped` — content whose escapes are all well formed, paired or not.
* `FirstUnpaired` — the first surrogate without a partner, with what stands before and after it.
* `ReportedAt` — the offset that is reported for it.

`WellEscaped.paired_or_unpaired` says that these are all cases, and `RawText.decode_loneSurrogate`
which surrogate is reported, and where.  A high surrogate that is written twice in a row is reported
where it stands the second time, which may be the place of one that has a partner:
`RawText.exists_reported_late`.
-/

namespace FlatJson

variable {s before after digits : Bytes} {n code offset : Nat} {P : Nat → Prop}

/-! ## Well-formed escapes, paired or not -/

/-- Content whose escapes are all well formed, whatever units the numeric ones write down. -/
inductive WellEscaped : Bytes → Prop
  | nil : WellEscaped []
  | plain {b : UInt8} {s : Bytes} : b ≠ Byte.backslash → WellEscaped s → WellEscaped (b :: s)
  | short {letter b : UInt8} {s : Bytes} :
      (letter, b) ∈ shortEscapes → WellEscaped s → WellEscaped (Byte.backslash :: letter :: s)
  | unit {digits s : Bytes} {n : Nat} :
      HexUnit digits n → WellEscaped s → WellEscaped (numericEscape digits ++ s)

/-- Whether a numeric escape for a unit of this kind comes first. -/
def StartsWithUnit (P : Nat → Prop) (s : Bytes) : Prop :=
  ∃ digits n later, s = numericEscape digits ++ later ∧ HexUnit digits n ∧ P n

/-- A low surrogate, the second one of a pair. -/
def IsLowUnit (n : Nat) : Prop := 0xDC00 ≤ n ∧ n < 0xE000

/-- A surrogate without its partner, where every surrogate before it has one.  Pairs are made from
the left: a high surrogate goes with the low one right after it. -/
structure FirstUnpaired (s before after : Bytes) (code : Nat) : Prop where
  cut : ∃ digits, HexUnit digits code ∧ s = before ++ (numericEscape digits ++ after)
  paired : ∃ t, Unescapes before t
  surrogate : 0xD800 ≤ code ∧ code < 0xE000
  alone : code < 0xDC00 → ¬ StartsWithUnit IsLowUnit after

/-- The offset that is reported for a surrogate without a partner: its own, or that of the escape
after it if that one writes down the same high surrogate. -/
inductive ReportedAt (before after : Bytes) (code : Nat) : Nat → Prop
  | itself : (code < 0xDC00 → ¬ StartsWithUnit (· = code) after) →
      ReportedAt before after code before.length
  | late : code < 0xDC00 → StartsWithUnit (· = code) after →
      ReportedAt before after code (before.length + 6)

theorem HexUnit.length (h : HexUnit digits n) : (numericEscape digits).length = 6 := by
  cases h with
  | digits => rfl

/-- The same digits write down the same unit. -/
theorem HexUnit.unique {m : Nat} (hn : HexUnit digits n) (hm : HexUnit digits m) : n = m := by
  obtain ⟨a, b, c, d, rfl⟩ : ∃ a b c d, digits = [a, b, c, d] := by
    cases hn
    exact ⟨_, _, _, _, rfl⟩
  obtain ⟨code, rfl⟩ := RawText.Unescaping.exists_code hn
  obtain ⟨code', rfl⟩ := RawText.Unescaping.exists_code hm
  have hcode := unitOfHex_eq_some_iff.2 hn
  have hcode' := unitOfHex_eq_some_iff.2 hm
  rw [Option.some.inj (hcode.symm.trans hcode')]

/-- Two numeric escapes at the same place are one. -/
theorem HexUnit.append_inj {digits' t : Bytes} {m : Nat} (hn : HexUnit digits n)
    (hm : HexUnit digits' m) (h : numericEscape digits ++ s = numericEscape digits' ++ t) :
    n = m ∧ s = t := by
  have hlength : (numericEscape digits).length = (numericEscape digits').length := by
    rw [hn.length, hm.length]
  obtain ⟨hescape, rest⟩ := List.append_inj h hlength
  have hdigits : digits = digits' := List.cons.inj (List.cons.inj hescape).2 |>.2
  subst hdigits
  exact ⟨hn.unique hm, rest⟩

theorem startsWithUnit_numeric (h : HexUnit digits n) :
    StartsWithUnit P (numericEscape digits ++ s) ↔ P n := by
  constructor
  · rintro ⟨digits', m, later, hs, hm, hP⟩
    obtain ⟨rfl, -⟩ := h.append_inj hm hs
    exact hP
  · intro hP
    exact ⟨digits, n, s, rfl, h, hP⟩

theorem not_startsWithUnit_nil : ¬ StartsWithUnit P [] := by
  rintro ⟨digits, n, later, hs, -, -⟩
  cases hs

theorem not_startsWithUnit_plain {b : UInt8} (hb : b ≠ Byte.backslash) :
    ¬ StartsWithUnit P (b :: s) := by
  rintro ⟨digits, n, later, hs, -, -⟩
  exact hb (List.cons.inj hs).1

theorem ne_of_mem_shortEscapes {letter b : UInt8} (h : (letter, b) ∈ shortEscapes) :
    letter ≠ 0x75 := by
  rintro rfl
  have hshort := shortEscape_eq_some_iff.2 h
  cases hshort

theorem not_startsWithUnit_short {letter b : UInt8} (h : (letter, b) ∈ shortEscapes) :
    ¬ StartsWithUnit P (Byte.backslash :: letter :: s) := by
  rintro ⟨digits, n, later, hs, -, -⟩
  exact ne_of_mem_shortEscapes h (List.cons.inj (List.cons.inj hs).2).1

namespace WellEscaped

theorem of_plain {b : UInt8} (hb : b ≠ Byte.backslash) (h : WellEscaped (b :: s)) :
    WellEscaped s := by
  generalize hx : b :: s = x at h
  cases h with
  | nil => cases hx
  | plain _ hs =>
    cases hx
    exact hs
  | short => exact absurd (List.cons.inj hx).1 hb
  | unit => exact absurd (List.cons.inj hx).1 hb

theorem of_short {letter b : UInt8} (hb : (letter, b) ∈ shortEscapes)
    (h : WellEscaped (Byte.backslash :: letter :: s)) : WellEscaped s := by
  generalize hx : Byte.backslash :: letter :: s = x at h
  cases h with
  | nil => cases hx
  | plain hne => exact absurd (List.cons.inj hx).1.symm hne
  | short _ hs =>
    cases hx
    exact hs
  | unit => exact absurd (List.cons.inj (List.cons.inj hx).2).1 (ne_of_mem_shortEscapes hb)

theorem of_numeric (hn : HexUnit digits n) (h : WellEscaped (numericEscape digits ++ s)) :
    WellEscaped s := by
  generalize hx : numericEscape digits ++ s = x at h
  cases h with
  | nil => cases hx
  | plain hne => exact absurd (List.cons.inj hx).1.symm hne
  | short hb =>
    exact absurd (List.cons.inj (List.cons.inj hx).2).1.symm (ne_of_mem_shortEscapes hb)
  | unit hm hs =>
    obtain ⟨-, rfl⟩ := hn.append_inj hm hx
    exact hs

/-- What stands after paired escapes has well-formed ones, if the whole has. -/
theorem of_append {t : Bytes} (hbefore : Unescapes before t) (h : WellEscaped (before ++ s)) :
    WellEscaped s := by
  induction hbefore with
  | nil => exact h
  | plain hb _ ih => exact ih (h.of_plain hb)
  | short hb _ ih => exact ih (h.of_short hb)
  | unit hn _ _ ih =>
    rw [List.append_assoc] at h
    exact ih (h.of_numeric hn)
  | pair hm _ hn _ _ ih =>
    rw [List.append_assoc, List.append_assoc] at h
    exact ih ((h.of_numeric hm).of_numeric hn)

end WellEscaped

/-- What may stand in a string has well-formed escapes. -/
theorem IsContent.wellEscaped (h : IsContent s) : WellEscaped s := by
  induction h with
  | nil => exact .nil
  | plain _ _ hb _ ih => exact .plain hb ih
  | short hshort _ ih =>
    rw [isShortEscape_eq] at hshort
    obtain ⟨b, hb⟩ := Option.isSome_iff_exists.1 hshort
    exact .short (shortEscape_eq_some_iff.1 hb) ih
  | unit hx₁ hx₂ hx₃ hx₄ _ ih =>
    have hunit := (unitOfHex_isSome_iff _ _ _ _).2 ⟨hx₁, hx₂, hx₃, hx₄⟩
    obtain ⟨code, hcode⟩ := Option.isSome_iff_exists.1 hunit
    exact .unit (unitOfHex_eq_some_iff.1 hcode) ih

/-! ## All surrogates paired, or a first one that is not -/

/-- The escapes are all replaced, or there is a first surrogate without a partner. -/
def PairedOrUnpaired (s : Bytes) : Prop :=
  (∃ t, Unescapes s t) ∨ ∃ before after code, FirstUnpaired s before after code

/-- More comes in front that leaves no surrogate without a partner. -/
theorem PairedOrUnpaired.onto {front : Bytes}
    (hfront : ∀ {s t}, Unescapes s t → ∃ t', Unescapes (front ++ s) t')
    (h : PairedOrUnpaired s) : PairedOrUnpaired (front ++ s) := by
  rcases h with ⟨t, ht⟩ | ⟨before, after, code, ⟨digits, hdigits, rfl⟩, ⟨t, ht⟩, hcode, halone⟩
  · exact .inl (hfront ht)
  · refine .inr ⟨front ++ before, after, code, ⟨digits, hdigits, ?_⟩, hfront ht, hcode, halone⟩
    rw [List.append_assoc]

/-- A low surrogate at the start has no partner. -/
theorem firstUnpaired_low (hn : HexUnit digits n) (hlow : IsLowUnit n) (s : Bytes) :
    FirstUnpaired (numericEscape digits ++ s) [] s n := by
  obtain ⟨hle, hlt⟩ := hlow
  refine ⟨⟨digits, hn, rfl⟩, ⟨[], .nil⟩, by omega, ?_⟩
  intro hhigh
  omega

/-- A high surrogate at the start has no partner if no low one comes next. -/
theorem firstUnpaired_high (hn : HexUnit digits n) (hhigh : 0xD800 ≤ n ∧ n < 0xDC00)
    (hs : ¬ StartsWithUnit IsLowUnit s) : FirstUnpaired (numericEscape digits ++ s) [] s n :=
  ⟨⟨digits, hn, rfl⟩, ⟨[], .nil⟩, by omega, fun _ => hs⟩

namespace WellEscaped

/-- The cases for what follows an escape, and for both together if it is for a high surrogate. -/
theorem cases_onto (h : WellEscaped s) :
    PairedOrUnpaired s ∧ ∀ {digits n}, HexUnit digits n → 0xD800 ≤ n ∧ n < 0xDC00 →
      PairedOrUnpaired (numericEscape digits ++ s) := by
  have halone : ∀ {s}, ¬ StartsWithUnit IsLowUnit s → ∀ {digits n}, HexUnit digits n →
      0xD800 ≤ n ∧ n < 0xDC00 → PairedOrUnpaired (numericEscape digits ++ s) := by
    intro s hs digits n hn hhigh
    exact .inr ⟨[], s, n, firstUnpaired_high hn hhigh hs⟩
  induction h with
  | nil => exact ⟨.inl ⟨[], .nil⟩, halone not_startsWithUnit_nil⟩
  | @plain b s hb _ ih =>
    refine ⟨?_, halone (not_startsWithUnit_plain hb)⟩
    have hfront : ∀ {s t}, Unescapes s t → ∃ t', Unescapes ([b] ++ s) t' :=
      fun ht => ⟨_, .plain hb ht⟩
    exact ih.1.onto hfront
  | @short letter b s hb _ ih =>
    refine ⟨?_, halone (not_startsWithUnit_short hb)⟩
    have hfront : ∀ {s t}, Unescapes s t → ∃ t', Unescapes ([Byte.backslash, letter] ++ s) t' :=
      fun ht => ⟨_, .short hb ht⟩
    exact ih.1.onto hfront
  | @unit digits s n hn _ ih =>
    obtain ⟨hrest, hhighrest⟩ := ih
    by_cases hlow : IsLowUnit n
    · refine ⟨.inr ⟨[], s, n, firstUnpaired_low hn hlow s⟩, ?_⟩
      -- With a high surrogate in front the two are a pair.
      intro high m hm hhigh
      obtain ⟨i, rfl⟩ := Nat.exists_eq_add_of_le hhigh.1
      obtain ⟨j, rfl⟩ := Nat.exists_eq_add_of_le hlow.1
      have hi : i < 0x400 := by omega
      have hj : j < 0x400 := by
        have hlt := hlow.2
        omega
      rw [← List.append_assoc]
      refine hrest.onto ?_
      intro s t ht
      have hpair := Unescapes.pair hm hi hn hj ht
      rw [← List.append_assoc] at hpair
      exact ⟨_, hpair⟩
    · have hnext : ¬ StartsWithUnit IsLowUnit (numericEscape digits ++ s) := by
        rw [startsWithUnit_numeric hn]
        exact hlow
      refine ⟨?_, halone hnext⟩
      by_cases hhigh : 0xD800 ≤ n ∧ n < 0xDC00
      · exact hhighrest hn hhigh
      · refine hrest.onto fun ht => ⟨_, .unit hn ?_ ht⟩
        unfold IsLowUnit at hlow
        omega

/-- **Content with well-formed escapes is unescaped, or has a first surrogate without a
partner.** -/
theorem paired_or_unpaired (h : WellEscaped s) : PairedOrUnpaired s := h.cases_onto.1

end WellEscaped

/-! ## The walk stops there -/

namespace RawText

namespace Unescaping

variable {u : Unescaping}

/-- Paired escapes are gone over one after the other. -/
theorem run_append {t : Bytes} (h : Unescapes before t) (hu : u.units.held = none) (s : Bytes) :
    ∃ u', u'.units.held = none ∧ u'.pos = u.pos + before.length ∧
      run u (before ++ s) = run u' s := by
  induction h generalizing u with
  | nil => exact ⟨u, hu, rfl, rfl⟩
  | @plain b _ _ hb _ ih =>
    obtain ⟨u', hfree, hpos, hrun⟩ := ih (u := u.byte b 1) hu
    refine ⟨u', hfree, ?_, ?_⟩
    · rw [hpos, List.length_cons]
      simp only [byte]
      omega
    · rw [List.cons_append, run_plain hb, settle_of_free hu]
      exact hrun
  | @short letter b _ _ hb _ ih =>
    obtain ⟨u', hfree, hpos, hrun⟩ := ih (u := u.byte b 2) hu
    refine ⟨u', hfree, ?_, ?_⟩
    · rw [hpos, List.length_cons, List.length_cons]
      simp only [byte]
      omega
    · rw [List.cons_append, List.cons_append, run_short (shortEscape_eq_some_iff.2 hb),
        settle_of_free hu]
      exact hrun
  | @unit digits _ _ n hn hscalar _ ih =>
    obtain ⟨code, rfl⟩ := exists_code hn
    have hhigh : ¬ Utf16.isHigh code := by
      rw [Utf16.isHigh_iff]
      omega
    have hlow : ¬ Utf16.isLow code := by
      rw [Utf16.isLow_iff]
      omega
    obtain ⟨u', hfree, hpos, hrun⟩ := ih (u := u.character (Char.ofNat code.toNat)) rfl
    refine ⟨u', hfree, ?_, ?_⟩
    · rw [hpos, List.length_append, hn.length]
      simp only [character]
      omega
    · rw [List.append_assoc, run_numeric hn, unit_eq_ok_iff.2 (.inr (.inl ⟨hu, hhigh, hlow, rfl⟩))]
      exact hrun
  | @pair high low _ _ m n hm hm' hn hn' _ ih =>
    obtain ⟨code, hcode⟩ := exists_code hm
    obtain ⟨code', hcode'⟩ := exists_code hn
    have hhigh : Utf16.isHigh code := by
      rw [Utf16.isHigh_iff]
      omega
    have hlow : Utf16.isLow code' := by
      rw [Utf16.isLow_iff]
      omega
    rw [← hcode] at hm
    rw [← hcode'] at hn
    obtain ⟨u', hfree, hpos, hrun⟩ :=
      ih (u := (u.hold code).character (Char.ofNat (Utf16.combine code code'))) rfl
    refine ⟨u', hfree, ?_, ?_⟩
    · rw [hpos, List.length_append, List.length_append, hm.length, hn.length]
      simp only [character, hold]
      omega
    · rw [List.append_assoc, List.append_assoc, run_numeric hm,
        unit_eq_ok_iff.2 (.inl ⟨hu, hhigh, rfl⟩)]
      show run (u.hold code) _ = _
      rw [run_numeric hn, unit_eq_ok_iff.2 (.inr (.inr ⟨code, rfl, hlow, rfl⟩))]
      exact hrun

/-- A surrogate that is held is reported when no low one follows: at the escape that it came from,
unless the next escape writes it down again. -/
theorem run_of_held {high : UInt16} (hu : u.units.held = some high) (hs : WellEscaped s)
    (hnext : ¬ StartsWithUnit IsLowUnit s) :
    (¬ StartsWithUnit (· = high.toNat) s →
      run u s = .error (.loneSurrogate high.toNat u.heldAt)) ∧
    (StartsWithUnit (· = high.toNat) s → run u s = .error (.loneSurrogate high.toNat u.pos)) := by
  cases hs with
  | nil =>
    refine ⟨fun _ => ?_, fun h => absurd h not_startsWithUnit_nil⟩
    rw [run_nil, settle_of_held hu]
    rfl
  | plain hb _ =>
    refine ⟨fun _ => ?_, fun h => absurd h (not_startsWithUnit_plain hb)⟩
    rw [run_plain hb, settle_of_held hu]
    rfl
  | short hb _ =>
    refine ⟨fun _ => ?_, fun h => absurd h (not_startsWithUnit_short hb)⟩
    rw [run_short (shortEscape_eq_some_iff.2 hb), settle_of_held hu]
    rfl
  | unit hn _ =>
    rw [startsWithUnit_numeric hn] at hnext ⊢
    obtain ⟨code, rfl⟩ := exists_code hn
    have hlow : ¬ Utf16.isLow code := by
      rw [Utf16.isLow_iff]
      exact hnext
    have hunit : u.unit code =
        .error (.loneSurrogate high.toNat (if high = code then u.pos else u.heldAt)) := by
      simp only [Unescaping.unit, Utf16.Pairing.feed, hu, hlow, Bool.false_eq_true, if_false]
    rw [run_numeric hn, hunit, UInt16.toNat_inj]
    constructor
    · intro hne
      rw [if_neg (Ne.symm hne)]
      rfl
    · rintro rfl
      rw [if_pos rfl]
      rfl

/-- **The walk over the escapes stops at the first surrogate without a partner.** -/
theorem run_of_firstUnpaired (h : FirstUnpaired s before after code) (hs : WellEscaped s)
    (hreported : ReportedAt before after code offset) :
    run {} s = .error (.loneSurrogate code offset) := by
  obtain ⟨⟨digits, hdigits, rfl⟩, ⟨t, ht⟩, hcode, halone⟩ := h
  have hafter : WellEscaped after := (hs.of_append ht).of_numeric hdigits
  obtain ⟨u, hfree, hpos, hrun⟩ := run_append (u := {}) ht rfl (numericEscape digits ++ after)
  have hstart : u.pos = before.length := by
    rw [hpos]
    exact Nat.zero_add _
  obtain ⟨unit, rfl⟩ := exists_code hdigits
  rw [hrun, run_numeric hdigits]
  by_cases hlt : unit.toNat < 0xDC00
  · have hhigh : Utf16.isHigh unit := by
      rw [Utf16.isHigh_iff]
      omega
    rw [unit_eq_ok_iff.2 (.inl ⟨hfree, hhigh, rfl⟩)]
    show run (u.hold unit) after = _
    obtain ⟨hitself, hlate⟩ := run_of_held (u := u.hold unit) rfl hafter (halone hlt)
    cases hreported with
    | itself hnot =>
      rw [hitself (hnot hlt)]
      simp only [hold, hstart]
    | late _ hagain =>
      rw [hlate hagain]
      simp only [hold, hstart]
  · have hhigh : ¬ Utf16.isHigh unit := by
      rw [Utf16.isHigh_iff]
      omega
    have hlow : Utf16.isLow unit := by
      rw [Utf16.isLow_iff]
      omega
    have hunit : u.unit unit = .error (.loneSurrogate unit.toNat u.pos) := by
      simp only [Unescaping.unit, Utf16.Pairing.feed, hfree, hhigh, hlow, Bool.false_eq_true,
        if_false, if_true]
    cases hreported with
    | itself _ =>
      rw [hunit, hstart]
      rfl
    | late hlt' _ => exact absurd hlt' hlt

end Unescaping

/-! ## What decoding reports -/

theorem exists_reportedAt (before after : Bytes) (code : Nat) :
    ∃ offset, ReportedAt before after code offset := by
  by_cases h : code < 0xDC00 ∧ StartsWithUnit (· = code) after
  · exact ⟨_, .late h.1 h.2⟩
  · exact ⟨_, .itself fun hlt hagain => h ⟨hlt, hagain⟩⟩

/-- Content that is UTF-8 is decoded to the error of its first surrogate without a partner. -/
theorem decode_of_firstUnpaired (h : FirstUnpaired s before after code) (htext : Utf8.IsText s)
    (hs : WellEscaped s) (hreported : ReportedAt before after code offset) :
    decode ⟨s⟩ = .error (.loneSurrogate code offset) := by
  have hrun : unescape ⟨s⟩ = .error (.loneSurrogate code offset) :=
    Unescaping.run_of_firstUnpaired h hs hreported
  obtain ⟨digits, -, hcut⟩ := h.cut
  have hescapes : hasEscapes ⟨s⟩ := by
    rw [hasEscapes_iff, hcut]
    exact List.mem_append_right _ List.mem_cons_self
  obtain ⟨text, htext⟩ := exists_textOf_iff.2 htext
  rw [decode_of_escapes hescapes, htext, hrun]
  rfl

/-- The content of a string or a name that was scanned. -/
def Scanned (s : Bytes) : Prop :=
  ∃ (t : Tokenizer) (text : Bytes) (tok : Token), tok ∈ (t.parse text).1.tokens ∧
    (tok.kind = .key ∨ tok.kind = .string) ∧
    ((t.parse text).1.window text).rawText? tok = some ⟨s⟩

theorem Scanned.wellEscaped (h : Scanned s) : WellEscaped s := by
  obtain ⟨t, text, tok, htok, hkind, hraw⟩ := h
  obtain ⟨raw, hraw', -, hcontent⟩ := t.content_of_token htok hkind
  obtain rfl := Option.some.inj (hraw.symm.trans hraw')
  exact hcontent.wellEscaped

/-- **Which surrogate decoding reports, and where.**  Content that is UTF-8 and whose escapes are
well formed, as those of strings and names are that were scanned, is decoded to the error of a
surrogate just when that is the first one without a partner.  It is reported where it stands, but a
high surrogate that is written twice in a row where it stands the second time. -/
theorem decode_loneSurrogate (htext : Utf8.IsText s) (hs : WellEscaped s ∨ Scanned s) :
    decode ⟨s⟩ = .error (.loneSurrogate code offset) ↔
      ∃ before after, FirstUnpaired s before after code ∧ ReportedAt before after code offset := by
  have hs : WellEscaped s := hs.elim id Scanned.wellEscaped
  constructor
  · intro h
    rcases hs.paired_or_unpaired with ⟨out, hout⟩ | ⟨before, after, code', hfirst⟩
    · -- Content whose surrogates all have partners is decoded.
      obtain ⟨d, hd⟩ := exists_decoded_iff.2 ⟨htext, out, hout⟩
      rw [decode, hd] at h
      cases h
    · obtain ⟨offset', hreported⟩ := exists_reportedAt before after code'
      rw [decode_of_firstUnpaired hfirst htext hs hreported] at h
      cases h
      exact ⟨before, after, hfirst, hreported⟩
  · rintro ⟨before, after, hfirst, hreported⟩
    exact decode_of_firstUnpaired hfirst htext hs hreported

/-- The content `\uD83D\uDE00\uD800A`, a pair and a high surrogate before the letter `A`, and that of
the text `"\uD800"`. -/
theorem decode_loneSurrogate_after_pair :
    (∃ before after, FirstUnpaired [0x5C, 0x75, 0x44, 0x38, 0x33, 0x44, 0x5C, 0x75, 0x44, 0x45, 0x30,
        0x30, 0x5C, 0x75, 0x44, 0x38, 0x30, 0x30, 0x41] before after 0xD800 ∧
      ReportedAt before after 0xD800 12) ∧
    ∃ before after, FirstUnpaired [0x5C, 0x75, 0x44, 0x38, 0x30, 0x30] before after 0xD800 ∧
      ReportedAt before after 0xD800 0 := by
  have htext : Utf8.IsText [0x5C, 0x75, 0x44, 0x38, 0x33, 0x44, 0x5C, 0x75, 0x44, 0x45, 0x30, 0x30,
      0x5C, 0x75, 0x44, 0x38, 0x30, 0x30, 0x41] := Utf8.isValid_iff.1 (by rfl)
  have hs : WellEscaped [0x5C, 0x75, 0x44, 0x38, 0x33, 0x44, 0x5C, 0x75, 0x44, 0x45, 0x30, 0x30,
      0x5C, 0x75, 0x44, 0x38, 0x30, 0x30, 0x41] := by
    apply IsContent.wellEscaped
    apply IsContent.unit rfl rfl rfl rfl
    apply IsContent.unit rfl rfl rfl rfl
    apply IsContent.unit rfl rfl rfl rfl
    exact .plain (by decide) (by decide) (by decide) .nil
  have hscanned : Scanned [0x5C, 0x75, 0x44, 0x38, 0x30, 0x30] :=
    ⟨{}, [0x22, 0x5C, 0x75, 0x44, 0x38, 0x30, 0x30, 0x22], ⟨.string, 0, 1, 6⟩, by decide, .inr rfl,
      by decide⟩
  constructor
  · exact (decode_loneSurrogate htext (.inl hs)).1 (by rfl)
  · exact (decode_loneSurrogate (Utf8.isValid_iff.1 (by rfl)) (.inr hscanned)).1 (by rfl)

/-- **A surrogate may be reported late**, even at an escape that has its partner: in the content
`\uD800\uD800\uDC00` the first escape has none, and the second one is reported. -/
theorem exists_reported_late : ∃ s code offset, Utf8.IsText s ∧ WellEscaped s ∧
    decode ⟨s⟩ = .error (.loneSurrogate code offset) ∧
    ¬ ∃ before after, FirstUnpaired s before after code ∧ offset = before.length := by
  refine ⟨[0x5C, 0x75, 0x44, 0x38, 0x30, 0x30, 0x5C, 0x75, 0x44, 0x38, 0x30, 0x30,
    0x5C, 0x75, 0x44, 0x43, 0x30, 0x30], 0xD800, 6, Utf8.isValid_iff.1 (by rfl), ?_, by rfl, ?_⟩
  · apply IsContent.wellEscaped
    apply IsContent.unit rfl rfl rfl rfl
    apply IsContent.unit rfl rfl rfl rfl
    exact .unit rfl rfl rfl rfl .nil
  · rintro ⟨before, after, ⟨⟨digits, -, hcut⟩, ⟨t, ht⟩, -, -⟩, hlength⟩
    -- The six bytes before it are the first escape, which is not paired.
    obtain rfl : [0x5C, 0x75, 0x44, 0x38, 0x30, 0x30] = before :=
      (congrArg (List.take 6) hcut).trans (List.take_left' hlength.symm)
    have herror : unescape ⟨[0x5C, 0x75, 0x44, 0x38, 0x30, 0x30]⟩ =
        .error (.loneSurrogate 0xD800 0) := by rfl
    rw [← unescape_eq_ok_iff, herror] at ht
    cases ht

end RawText

end FlatJson
