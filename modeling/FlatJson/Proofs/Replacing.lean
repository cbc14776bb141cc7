import FlatJson.Proofs.Encoding

/-!
# Strings with their bytes that are not UTF-8 replaced

Replacing what is not UTF-8 leaves every ASCII byte where it is, so the escapes of a string stay
whole and its quotes stay the only ones.

* `segments_append_char` — a character ends what stands before it and is a segment of its own.
* `replaceInvalid_append_ascii` — an ASCII byte is therefore kept, and splits the replacement in two.
* `replaceInvalid_replaceInvalid` — after replacing, nothing is left to be replaced.
* `IsContent.replaceInvalid` — what may stand between two quotes still may.
-/

namespace FlatJson

namespace Utf8

/-! ## Characters among other bytes -/

/-- A reader that had found these segments before. -/
def Reader.onto (r : Reader) (found : List Segment) : Reader := ⟨r.found ++ found, r.unfinished⟩

theorem Reader.feed_onto (r : Reader) (found : List Segment) (b : UInt8) :
    (r.onto found).feed b = (r.feed b).onto found := by
  have htake : ∀ (fs : List Segment) (x : Segment ⊕ Partial),
      Reader.take (fs ++ found) x = (Reader.take fs x).onto found := by
    intro fs x
    cases x <;> rfl
  unfold Reader.feed Reader.onto
  cases r.unfinished with
  | none => exact htake _ _
  | some p =>
    dsimp only
    split
    · exact htake _ _
    · exact htake (_ :: _) _

theorem Reader.foldl_onto (s : Bytes) (r : Reader) (found : List Segment) :
    s.foldl Reader.feed (r.onto found) = (s.foldl Reader.feed r).onto found := by
  induction s generalizing r with
  | nil => rfl
  | cons b s ih => rw [List.foldl_cons, List.foldl_cons, Reader.feed_onto, ih]

theorem Reader.finish_onto (r : Reader) (found : List Segment) :
    (r.onto found).finish = found.reverse ++ r.finish := by
  unfold Reader.finish Reader.onto
  cases r.unfinished <;> simp

/-- The first byte of a character continues no other. -/
theorem exists_first_byte (c : Char) :
    ∃ b s, String.utf8EncodeChar c = b :: s ∧ (b.toNat < 0x80 ∨ 0xBF < b.toNat) := by
  obtain ⟨n, hn, rfl⟩ : ∃ n, n.isValidChar ∧ c = Char.ofNat n :=
    ⟨c.toNat, c.valid, (Char.ofNat_toNat c).symm⟩
  have hvalid : n < 0xD800 ∨ (0xDFFF < n ∧ n < 0x110000) := hn
  rcases Nat.lt_or_ge n 0x80 with h1 | h1
  · refine ⟨_, _, encode_one h1, .inl ?_⟩
    rw [UInt8.toNat_ofNat']
    omega
  rcases Nat.lt_or_ge n 0x800 with h2 | h2
  · refine ⟨_, _, encode_two h1 h2, .inr ?_⟩
    rw [UInt8.toNat_ofNat']
    omega
  rcases Nat.lt_or_ge n 0x10000 with h3 | h3
  · refine ⟨_, _, encode_three h2 h3 (by omega), .inr ?_⟩
    rw [UInt8.toNat_ofNat']
    omega
  · refine ⟨_, _, encode_four h3 (by omega), .inr ?_⟩
    rw [UInt8.toNat_ofNat']
    omega

/-- A character that is unfinished breaks off before a byte that continues none. -/
theorem Reader.Sound.feed_first {r : Reader} (h : r.Sound) {b : UInt8}
    (hb : b.toNat < 0x80 ∨ 0xBF < b.toNat) :
    r.feed b = (Reader.mk r.finish.reverse none).feed b := by
  obtain ⟨found, unfinished⟩ := r
  cases unfinished with
  | none => simp [Reader.feed, Reader.finish]
  | some p =>
    obtain ⟨hlow, hup⟩ := (h p rfl).bounds
    have hout : ¬ (p.lower ≤ b ∧ b ≤ p.upper) := by
      rw [UInt8.le_iff_toNat_le, UInt8.le_iff_toNat_le]
      omega
    simp [Reader.feed, Reader.finish, hout]

/-- **A character is a segment of its own, whatever stands around it.** -/
theorem segments_append_char (u : Bytes) (c : Char) (s : Bytes) :
    segments (u ++ (String.utf8EncodeChar c ++ s)) = segments u ++ .scalar c :: segments s := by
  obtain ⟨b, e, he, hb⟩ := exists_first_byte c
  have hsound : (u.foldl Reader.feed {}).Sound := (Reader.Sound.feedAll (r := {}) nofun u).1
  have hchar : (String.utf8EncodeChar c).foldl Reader.feed (u.foldl Reader.feed {}) =
      ⟨.scalar c :: (u.foldl Reader.feed {}).finish.reverse, none⟩ := by
    rw [← Reader.feed_encode, he, List.foldl_cons, List.foldl_cons, hsound.feed_first hb]
  have honto := Reader.foldl_onto s {} (.scalar c :: (u.foldl Reader.feed {}).finish.reverse)
  rw [Reader.onto, List.nil_append] at honto
  unfold segments
  rw [List.foldl_append, List.foldl_append, hchar, honto, Reader.finish_onto]
  simp

theorem exists_ascii_char {b : UInt8} (hb : b < 0x80) : ∃ c, String.utf8EncodeChar c = [b] := by
  have hlt : b.toNat < 0x80 := UInt8.lt_iff_toNat_lt.1 hb
  refine ⟨Char.ofNat b.toNat, ?_⟩
  rw [encode_one hlt, UInt8.ofNat_toNat]

/-- An ASCII byte is a character of its own, whatever stands around it. -/
theorem segments_append_ascii {b : UInt8} (hb : b < 0x80) (u s : Bytes) :
    ∃ c, String.utf8EncodeChar c = [b] ∧
      segments (u ++ b :: s) = segments u ++ .scalar c :: segments s := by
  obtain ⟨c, hc⟩ := exists_ascii_char hb
  have hsegs := segments_append_char u c s
  rw [hc, List.singleton_append] at hsegs
  exact ⟨c, hc, hsegs⟩

/-! ## Replacing -/

theorem replaceInvalid_eq (s : Bytes) :
    replaceInvalid s = (segments s).flatMap fun x => String.utf8EncodeChar x.char := by
  rw [replaceInvalid, lossyChars, encode, List.flatMap_map]

/-- **An ASCII byte is kept, and what stands before and after it is replaced on its own.** -/
theorem replaceInvalid_append_ascii {b : UInt8} (hb : b < 0x80) (u s : Bytes) :
    replaceInvalid (u ++ b :: s) = replaceInvalid u ++ b :: replaceInvalid s := by
  obtain ⟨c, hc, hs⟩ := segments_append_ascii hb u s
  rw [replaceInvalid_eq, hs, List.flatMap_append, List.flatMap_cons, Segment.char, hc,
    ← replaceInvalid_eq, ← replaceInvalid_eq, List.singleton_append]

theorem replaceInvalid_cons_ascii {b : UInt8} (hb : b < 0x80) (s : Bytes) :
    replaceInvalid (b :: s) = b :: replaceInvalid s :=
  replaceInvalid_append_ascii hb [] s

/-- Bytes that are not ASCII are not replaced by any that are. -/
theorem le_of_mem_replaceInvalid {u : Bytes} (hu : ∀ b ∈ u, 0x80 ≤ b) :
    ∀ b ∈ replaceInvalid u, 0x80 ≤ b := by
  have hreplacement : ∀ b ∈ String.utf8EncodeChar replacement, 0x80 ≤ b := by decide +kernel
  intro b hb
  rw [replaceInvalid_eq] at hb
  obtain ⟨x, hx, hb⟩ := List.mem_flatMap.1 hb
  cases x with
  | scalar c =>
    have hmem : b ∈ (segments u).flatMap Segment.bytes := List.mem_flatMap.2 ⟨_, hx, hb⟩
    rw [segments_bytes] at hmem
    exact hu b hmem
  | invalid bytes => exact hreplacement b hb

theorem isValid_replaceInvalid (s : Bytes) : isValid (replaceInvalid s) :=
  isValid_iff.2 ⟨lossyChars s, rfl⟩

/-- After replacing, nothing is left to be replaced. -/
theorem replaceInvalid_replaceInvalid (s : Bytes) :
    replaceInvalid (replaceInvalid s) = replaceInvalid s :=
  replaceInvalid_of_isValid (isValid_replaceInvalid s)

end Utf8

/-! ## Contents of strings -/

/-- Bytes that are not ASCII may stand in a string. -/
theorem IsContent.of_not_ascii {u : Bytes} (hu : ∀ b ∈ u, 0x80 ≤ b) : IsContent u := by
  have hplain : ∀ b : UInt8, 0x80 ≤ b → 0x20 ≤ b ∧ b ≠ Byte.quote ∧ b ≠ Byte.backslash := by
    decide +kernel
  exact .of_forall fun b hb => hplain b (hu b hb)

/-- The bytes that are not ASCII are collected in front until an ASCII byte splits them off. -/
theorem IsContent.replaceInvalid_append {c u : Bytes} (hc : IsContent c) (hu : ∀ b ∈ u, 0x80 ≤ b) :
    IsContent (Utf8.replaceInvalid (u ++ c)) := by
  have hfront : ∀ {u : Bytes}, (∀ b ∈ u, 0x80 ≤ b) → IsContent (Utf8.replaceInvalid u) :=
    fun h => .of_not_ascii (Utf8.le_of_mem_replaceInvalid h)
  have hescape : Byte.backslash < 0x80 := by decide
  have hshort : ∀ b, Scan.isShortEscape b → b < 0x80 := by decide +kernel
  have hhex : ∀ b, Byte.isHexDigit b → b < 0x80 := by decide +kernel
  induction hc generalizing u with
  | nil =>
    rw [List.append_nil]
    exact hfront hu
  | @plain b s hle hq hb _ ih =>
    by_cases hascii : b < 0x80
    · rw [Utf8.replaceInvalid_append_ascii hascii]
      exact (hfront hu).append (.plain hle hq hb (ih (u := []) nofun))
    · rw [← List.singleton_append, ← List.append_assoc]
      refine ih ?_
      intro d hd
      rcases List.mem_append.1 hd with hd | hd
      · exact hu d hd
      · rw [List.mem_singleton.1 hd]
        exact UInt8.not_lt.1 hascii
  | @short b s he _ ih =>
    rw [Utf8.replaceInvalid_append_ascii hescape, Utf8.replaceInvalid_cons_ascii (hshort b he)]
    exact (hfront hu).append (.short he (ih (u := []) nofun))
  | @unit h₁ h₂ h₃ h₄ s hx₁ hx₂ hx₃ hx₄ _ ih =>
    have hu' : (0x75 : UInt8) < 0x80 := by decide
    rw [Utf8.replaceInvalid_append_ascii hescape, Utf8.replaceInvalid_cons_ascii hu',
      Utf8.replaceInvalid_cons_ascii (hhex h₁ hx₁), Utf8.replaceInvalid_cons_ascii (hhex h₂ hx₂),
      Utf8.replaceInvalid_cons_ascii (hhex h₃ hx₃), Utf8.replaceInvalid_cons_ascii (hhex h₄ hx₄)]
    exact (hfront hu).append (.unit hx₁ hx₂ hx₃ hx₄ (ih (u := []) nofun))

/-- **What may stand between two quotes still may when its bytes that are not UTF-8 are
replaced.** -/
theorem IsContent.replaceInvalid {c : Bytes} (hc : IsContent c) :
    IsContent (Utf8.replaceInvalid c) :=
  hc.replaceInvalid_append (u := []) nofun

end FlatJson
