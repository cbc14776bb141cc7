import FlatJson.Proofs.Escapes
import FlatJson.Proofs.Replacing
import Mathlib.Data.List.TakeWhile
import Mathlib.Order.Bounds.Basic

/-!
# What the content of a string denotes

Escapes are described here without the walk that decoding makes: what each of them looks like, what
it stands for, and which two belong together.

* `HexUnit` — four hexadecimal digits and the code unit that they write down.
* `Unescapes` — content, and the same content with each escape replaced.
* `Utf8.validLength_isGreatest` — where bytes stop being UTF-8.
* `Unescaping.run_of_unescapes`, `Unescaping.unescapes_of_run` — the walk follows the description.
* `Unescapes.isText_iff` — replacing escapes keeps UTF-8 intact, and makes none.
* `RawText.decoded_determined` — all cases together.
* `RawText.denotes_as_decoded` — a comparison that does not decode, and one that does.
-/

namespace FlatJson

/-! ## Bytes that are UTF-8 -/

namespace Utf8

/-- Bytes that are the UTF-8 of some text. -/
def IsText (s : Bytes) : Prop :=
  ∃ text, s = encode text

theorem segments_encode_append (text : List Char) (s : Bytes) :
    segments (encode text ++ s) = text.map .scalar ++ segments s := by
  have hfeed : (encode text).foldl Reader.feed {} = ⟨(text.map .scalar).reverse, none⟩ := by
    have h := Reader.feed_encodeAll [] text
    rwa [List.append_nil] at h
  have honto := Reader.foldl_onto s {} (text.map .scalar).reverse
  rw [Reader.onto, List.nil_append] at honto
  unfold segments
  rw [List.foldl_append, hfeed, honto, Reader.finish_onto, List.reverse_reverse]

/-- UTF-8 can be cut before and after a character, and put together there. -/
theorem isValid_append_char (u : Bytes) (c : Char) (s : Bytes) :
    isValid (u ++ (String.utf8EncodeChar c ++ s)) ↔ isValid u ∧ isValid s := by
  unfold isValid
  rw [segments_append_char, List.all_append, List.all_cons, Segment.isScalar, Bool.true_and,
    Bool.and_eq_true]

theorem isValid_append_ascii {b : UInt8} (hb : b < 0x80) (u s : Bytes) :
    isValid (u ++ b :: s) ↔ isValid u ∧ isValid s := by
  obtain ⟨c, hc⟩ := exists_ascii_char hb
  have hcut := isValid_append_char u c s
  rwa [hc, List.singleton_append] at hcut

theorem isValid_cons_ascii {b : UInt8} (hb : b < 0x80) (s : Bytes) :
    isValid (b :: s) ↔ isValid s := by
  have h := isValid_append_ascii hb [] s
  have hnil : isValid [] := rfl
  rw [List.nil_append] at h
  rw [h]
  exact and_iff_right hnil

theorem isValid_ascii_append {e : Bytes} (he : ∀ b ∈ e, b < 0x80) (s : Bytes) :
    isValid (e ++ s) ↔ isValid s := by
  induction e with
  | nil => rfl
  | cons b e ih =>
    rw [List.cons_append, isValid_cons_ascii (he b List.mem_cons_self)]
    exact ih fun c hc => he c (List.mem_cons_of_mem b hc)

/-- The characters that stand before the first offence take up the valid length. -/
theorem exists_leading (s : Bytes) :
    ∃ text rest, segments s = text.map .scalar ++ rest ∧
      rest.takeWhile Segment.isScalar = [] ∧ validLength s = (encode text).length := by
  have hfold : ∀ (segs : List Segment) (n : Nat),
      segs.foldl (fun n x => n + x.bytes.length) n = n + (segs.flatMap Segment.bytes).length := by
    intro segs
    induction segs with
    | nil =>
      intro n
      rfl
    | cons x segs ih =>
      intro n
      rw [List.foldl_cons, ih, List.flatMap_cons, List.length_append, Nat.add_assoc]
  obtain ⟨text, htext⟩ :
      ∃ text : List Char, (segments s).takeWhile Segment.isScalar = text.map .scalar :=
    ⟨_, segments_eq_of_all List.all_takeWhile⟩
  refine ⟨text, (segments s).dropWhile Segment.isScalar, ?_, ?_, ?_⟩
  · rw [← htext, List.takeWhile_append_dropWhile]
  · rw [List.takeWhile_eq_nil_iff]
    intro h
    exact List.dropWhile_get_zero_not _ _ h
  · rw [validLength, hfold, Nat.zero_add, htext, flatMap_bytes_scalar]

/-- **The valid length is that of the longest prefix that is UTF-8.** -/
theorem validLength_isGreatest (s : Bytes) :
    IsGreatest {n | n ≤ s.length ∧ IsText (s.take n)} (validLength s) := by
  obtain ⟨text, rest, hsegs, hrest, hlength⟩ := exists_leading s
  have hs : s = encode text ++ rest.flatMap Segment.bytes := by
    rw [← segments_bytes s, hsegs, List.flatMap_append, flatMap_bytes_scalar]
  constructor
  · constructor
    · rw [hlength, hs, List.length_append]
      omega
    · rw [hlength, hs, List.take_left]
      exact ⟨text, rfl⟩
  · rintro n ⟨hn, prior, hprior⟩
    -- The characters of a shorter prefix are among those before the first offence.
    have hcut : text.map .scalar ++ rest = prior.map .scalar ++ segments (s.drop n) := by
      rw [← hsegs, ← segments_encode_append, ← hprior, List.take_append_drop]
    have hscalar : ∀ text : List Char, ∀ x ∈ text.map Segment.scalar, x.isScalar := by
      intro text x hx
      obtain ⟨c, -, rfl⟩ := List.mem_map.1 hx
      rfl
    have htake := congrArg (List.takeWhile Segment.isScalar) hcut
    rw [List.takeWhile_append_of_pos (hscalar text), hrest, List.append_nil,
      List.takeWhile_append_of_pos (hscalar prior)] at htake
    have hbytes := congrArg (fun segs => (List.flatMap Segment.bytes segs).length) htake
    simp only [List.flatMap_append, flatMap_bytes_scalar, List.length_append] at hbytes
    have hle : n = (encode prior).length := by
      rw [← hprior, List.length_take]
      omega
    omega

end Utf8

/-! ## Escapes as they are written -/

/-- A hexadecimal digit of either case, and what it counts for. -/
inductive HexDigit : UInt8 → Nat → Prop
  | decimal {n : Nat} : n < 10 → HexDigit (UInt8.ofNat (0x30 + n)) n
  | lower {n : Nat} : n < 6 → HexDigit (UInt8.ofNat (0x61 + n)) (10 + n)
  | upper {n : Nat} : n < 6 → HexDigit (UInt8.ofNat (0x41 + n)) (10 + n)

/-- Four hexadecimal digits, and the code unit that they write down. -/
inductive HexUnit : Bytes → Nat → Prop
  | digits {a b c d : UInt8} {i j k l : Nat} :
      HexDigit a i → HexDigit b j → HexDigit c k → HexDigit d l →
      HexUnit [a, b, c, d] (((i * 16 + j) * 16 + k) * 16 + l)

/-- The letters of the short escapes, and the bytes that they stand for. -/
def shortEscapes : List (UInt8 × UInt8) :=
  [(0x22, 0x22), (0x5C, 0x5C), (0x2F, 0x2F), (0x62, 0x08), (0x66, 0x0C), (0x6E, 0x0A),
    (0x72, 0x0D), (0x74, 0x09)]

/-- A numeric escape with the given digits. -/
def numericEscape (digits : Bytes) : Bytes :=
  Byte.backslash :: 0x75 :: digits

/-- The character that a pair of surrogates stands for, given how far each is from the first one of
its kind. -/
def pairedChar (m n : Nat) : Char :=
  Char.ofNat (0x10000 + m * 0x400 + n)

/-- Content, and the same content with each escape replaced by what it stands for.  A surrogate is
only ever one half of a pair whose escapes stand next to each other. -/
inductive Unescapes : Bytes → Bytes → Prop
  | nil : Unescapes [] []
  | plain {b : UInt8} {s t : Bytes} :
      b ≠ Byte.backslash → Unescapes s t → Unescapes (b :: s) (b :: t)
  | short {letter b : UInt8} {s t : Bytes} :
      (letter, b) ∈ shortEscapes → Unescapes s t →
      Unescapes (Byte.backslash :: letter :: s) (b :: t)
  | unit {digits s t : Bytes} {n : Nat} :
      HexUnit digits n → n < 0xD800 ∨ 0xDFFF < n → Unescapes s t →
      Unescapes (numericEscape digits ++ s) (String.utf8EncodeChar (Char.ofNat n) ++ t)
  | pair {high low s t : Bytes} {m n : Nat} :
      HexUnit high (0xD800 + m) → m < 0x400 → HexUnit low (0xDC00 + n) → n < 0x400 →
      Unescapes s t →
      Unescapes (numericEscape high ++ (numericEscape low ++ s))
        (String.utf8EncodeChar (pairedChar m n) ++ t)

theorem hexValue_eq_some_iff {b v : UInt8} :
    Byte.hexValue b = some v ↔ HexDigit b v.toNat := by
  constructor
  · intro h
    have hall : ∀ b, (Byte.hexValue b).all fun v =>
        (v.toNat < 10 ∧ b = UInt8.ofNat (0x30 + v.toNat)) ∨
          (10 ≤ v.toNat ∧ v.toNat < 16 ∧ (b = UInt8.ofNat (0x61 + (v.toNat - 10)) ∨
            b = UInt8.ofNat (0x41 + (v.toNat - 10)))) := by
      decide +kernel
    have hdigit := hall b
    rw [h, Option.all_some, decide_eq_true_iff] at hdigit
    rcases hdigit with ⟨hlt, hb⟩ | ⟨hle, hlt, hb⟩
    · rw [hb]
      exact .decimal hlt
    · obtain ⟨n, hn⟩ := Nat.exists_eq_add_of_le hle
      rw [hn, Nat.add_sub_cancel_left] at hb
      rw [hn]
      rcases hb with rfl | rfl
      · exact .lower (by omega)
      · exact .upper (by omega)
  · intro h
    have hdecimal : ∀ n < 10, Byte.hexValue (UInt8.ofNat (0x30 + n)) = some (UInt8.ofNat n) := by
      decide +kernel
    have hletter : ∀ n < 6,
        Byte.hexValue (UInt8.ofNat (0x61 + n)) = some (UInt8.ofNat (10 + n)) ∧
          Byte.hexValue (UInt8.ofNat (0x41 + n)) = some (UInt8.ofNat (10 + n)) := by
      decide +kernel
    generalize hn : v.toNat = n at h
    obtain rfl : v = UInt8.ofNat n := by rw [← hn, UInt8.ofNat_toNat]
    cases h with
    | decimal h => exact hdecimal _ h
    | lower h => exact (hletter _ h).1
    | upper h => exact (hletter _ h).2

theorem HexDigit.lt {b : UInt8} {n : Nat} (h : HexDigit b n) : n < 16 := by
  cases h <;> omega

/-- The digits of a code unit are read one after the other, and nothing overflows. -/
theorem toNat_unit {a b c d : UInt8} (ha : a.toNat < 16) (hb : b.toNat < 16) (hc : c.toNat < 16)
    (hd : d.toNat < 16) :
    (((a.toUInt16 * 16 + b.toUInt16) * 16 + c.toUInt16) * 16 + d.toUInt16).toNat =
      ((a.toNat * 16 + b.toNat) * 16 + c.toNat) * 16 + d.toNat := by
  simp only [UInt16.toNat_add, UInt16.toNat_mul, UInt8.toNat_toUInt16, UInt16.reduceToNat]
  omega

theorem unitOfHex_eq_some_iff {a b c d : UInt8} {code : UInt16} :
    unitOfHex a b c d = some code ↔ HexUnit [a, b, c, d] code.toNat := by
  constructor
  · intro h
    simp only [unitOfHex, Option.bind_eq_bind, Option.bind_eq_some_iff, Option.pure_def,
      Option.some.injEq] at h
    obtain ⟨i, hi, j, hj, k, hk, l, hl, rfl⟩ := h
    rw [hexValue_eq_some_iff] at hi hj hk hl
    rw [toNat_unit hi.lt hj.lt hk.lt hl.lt]
    exact .digits hi hj hk hl
  · intro h
    generalize hn : code.toNat = n at h
    cases h with
    | @digits _ _ _ _ i j k l hi hj hk hl =>
      have hvalue : ∀ {b : UInt8} {n : Nat}, HexDigit b n →
          Byte.hexValue b = some (UInt8.ofNat n) ∧ (UInt8.ofNat n).toNat = n := by
        intro b n h
        have htoNat : (UInt8.ofNat n).toNat = n :=
          UInt8.toNat_ofNat_of_lt' (Nat.lt_trans h.lt (by decide))
        refine ⟨hexValue_eq_some_iff.2 ?_, htoNat⟩
        rwa [htoNat]
      obtain ⟨hi', hin⟩ := hvalue hi
      obtain ⟨hj', hjn⟩ := hvalue hj
      obtain ⟨hk', hkn⟩ := hvalue hk
      obtain ⟨hl', hln⟩ := hvalue hl
      unfold unitOfHex
      rw [hi', hj', hk', hl']
      refine congrArg some (UInt16.toNat_inj.1 ?_)
      have hi16 := hi.lt
      have hj16 := hj.lt
      have hk16 := hk.lt
      have hl16 := hl.lt
      rw [toNat_unit (by omega) (by omega) (by omega) (by omega), hin, hjn, hkn, hln, hn]

theorem shortEscape_eq_some_iff {letter b : UInt8} :
    shortEscape letter = some b ↔ (letter, b) ∈ shortEscapes := by
  have hthere : ∀ letter, (shortEscape letter).all fun b => (letter, b) ∈ shortEscapes := by
    decide +kernel
  have hback : ∀ e ∈ shortEscapes, shortEscape e.1 = some e.2 := by simp [shortEscapes, shortEscape]
  constructor
  · intro h
    have hmem := hthere letter
    rwa [h, Option.all_some, decide_eq_true_iff] at hmem
  · exact hback (letter, b)

/-! ## The walk over the escapes -/

namespace Utf16

theorem isHigh_iff {unit : UInt16} : isHigh unit ↔ 0xD800 ≤ unit.toNat ∧ unit.toNat < 0xDC00 := by
  unfold isHigh
  rw [Bool.and_eq_true, decide_eq_true_iff, decide_eq_true_iff, UInt16.le_iff_toNat_le,
    UInt16.le_iff_toNat_le]
  simp only [UInt16.reduceToNat]
  omega

theorem isLow_iff {unit : UInt16} : isLow unit ↔ 0xDC00 ≤ unit.toNat ∧ unit.toNat < 0xE000 := by
  unfold isLow
  rw [Bool.and_eq_true, decide_eq_true_iff, decide_eq_true_iff, UInt16.le_iff_toNat_le,
    UInt16.le_iff_toNat_le]
  simp only [UInt16.reduceToNat]
  omega

theorem combine_eq {high low : UInt16} {m n : Nat} (hm : high.toNat = 0xD800 + m)
    (hn : low.toNat = 0xDC00 + n) : Char.ofNat (combine high low) = pairedChar m n := by
  unfold combine pairedChar
  refine congrArg Char.ofNat ?_
  rw [hm, hn]
  omega

end Utf16

namespace RawText

namespace Unescaping

variable {u u' : Unescaping} {code : UInt16}

/-- The unescaping after a numeric escape that completed a character. -/
def character (u : Unescaping) (c : Char) : Unescaping :=
  ⟨u.pos + 6, {}, u.heldAt, (String.utf8EncodeChar c).reverse ++ u.out⟩

/-- The unescaping after a numeric escape for a high surrogate. -/
def hold (u : Unescaping) (high : UInt16) : Unescaping :=
  ⟨u.pos + 6, ⟨some high⟩, u.pos, u.out⟩

theorem settle_of_free (hu : u.units.held = none) : u.settle = .ok () := by
  unfold settle Utf16.Pairing.finish
  rw [hu]

theorem settle_of_held {high : UInt16} (hu : u.units.held = some high) :
    u.settle = .error (.loneSurrogate high.toNat u.heldAt) := by
  unfold settle Utf16.Pairing.finish
  rw [hu]

/-- What a numeric escape does that is not a lone surrogate. -/
theorem unit_eq_ok_iff :
    u.unit code = .ok u' ↔
      (u.units.held = none ∧ Utf16.isHigh code ∧ u' = u.hold code) ∨
      (u.units.held = none ∧ ¬ Utf16.isHigh code ∧ ¬ Utf16.isLow code ∧
        u' = u.character (Char.ofNat code.toNat)) ∨
      ∃ high, u.units.held = some high ∧ Utf16.isLow code ∧
        u' = u.character (Char.ofNat (Utf16.combine high code)) := by
  unfold Unescaping.unit Utf16.Pairing.feed
  cases hheld : u.units.held with
  | none =>
    by_cases hhigh : Utf16.isHigh code
    · simp only [hhigh, if_true, Except.ok.injEq, not_true, true_and, false_and,
        reduceCtorEq, exists_false, or_false]
      exact eq_comm
    · by_cases hlow : Utf16.isLow code
      · simp only [hhigh, hlow, if_true, reduceCtorEq, not_true, false_and, and_false, or_false,
          exists_false, Bool.false_eq_true, if_false]
      · simp only [hhigh, hlow, Except.ok.injEq, not_false_eq_true, true_and, false_and, false_or,
          and_false, reduceCtorEq, exists_false, or_false, Bool.false_eq_true, if_false]
        exact eq_comm
  | some high =>
    by_cases hlow : Utf16.isLow code
    · simp only [hlow, if_true, Except.ok.injEq, reduceCtorEq, false_and, false_or, true_and,
        Option.some.injEq, exists_eq_left']
      exact eq_comm
    · simp only [hlow, reduceCtorEq, false_and, and_false, false_or, exists_false,
        Bool.false_eq_true, if_false]

theorem run_numeric {digits : Bytes} (h : HexUnit digits code.toNat) (later : Bytes) :
    run u (numericEscape digits ++ later) = (u.unit code).bind fun u => run u later := by
  generalize hn : code.toNat = n at h
  cases h with
  | digits hi hj hk hl =>
    refine run_unit ?_ later
    rw [unitOfHex_eq_some_iff, hn]
    exact .digits hi hj hk hl

theorem exists_code {digits : Bytes} {n : Nat} (h : HexUnit digits n) :
    ∃ code : UInt16, code.toNat = n := by
  cases h with
  | digits hi hj hk hl =>
    have hi' := hi.lt
    have hj' := hj.lt
    have hk' := hk.lt
    have hl' := hl.lt
    refine ⟨UInt16.ofNat _, UInt16.toNat_ofNat_of_lt' ?_⟩
    show _ < 2 ^ 16
    omega

/-- **Content is unescaped as it is described**, whatever has been unescaped before it. -/
theorem run_of_unescapes {s t : Bytes} (h : Unescapes s t) (hu : u.units.held = none) :
    run u s = .ok (u.out.reverse ++ t) := by
  induction h generalizing u with
  | nil =>
    rw [run_nil, settle_of_free hu, List.append_nil]
    rfl
  | @plain b s t hb _ ih =>
    rw [run_plain hb, settle_of_free hu]
    refine (ih (u := u.byte b 1) hu).trans ?_
    simp [byte]
  | @short letter b s t hb _ ih =>
    rw [run_short (shortEscape_eq_some_iff.2 hb), settle_of_free hu]
    refine (ih (u := u.byte b 2) hu).trans ?_
    simp [byte]
  | @unit digits s t n hn hscalar _ ih =>
    obtain ⟨code, rfl⟩ := exists_code hn
    have hhigh : ¬ Utf16.isHigh code := by
      rw [Utf16.isHigh_iff]
      omega
    have hlow : ¬ Utf16.isLow code := by
      rw [Utf16.isLow_iff]
      omega
    rw [run_numeric hn, unit_eq_ok_iff.2 (.inr (.inl ⟨hu, hhigh, hlow, rfl⟩))]
    refine (ih rfl).trans ?_
    simp [character]
  | @pair high low s t m n hm hm' hn hn' _ ih =>
    obtain ⟨code, hcode⟩ := exists_code hm
    obtain ⟨code', hcode'⟩ := exists_code hn
    have hhigh : Utf16.isHigh code := by
      rw [Utf16.isHigh_iff]
      omega
    have hlow : Utf16.isLow code' := by
      rw [Utf16.isLow_iff]
      omega
    rw [← hcode] at hm
    rw [← hcode'] at hn
    rw [run_numeric hm, unit_eq_ok_iff.2 (.inl ⟨hu, hhigh, rfl⟩)]
    show run (u.hold code) _ = _
    rw [run_numeric hn, unit_eq_ok_iff.2 (.inr (.inr ⟨code, rfl, hlow, rfl⟩)),
      Utf16.combine_eq hcode hcode']
    refine (ih rfl).trans ?_
    simp [character, hold]

/-- The bytes of the escape whose surrogate is still held. -/
inductive Holds (u : Unescaping) : Bytes → Prop
  | free : u.units.held = none → Holds u []
  | high {code : UInt16} {digits : Bytes} :
      u.units.held = some code → Utf16.isHigh code → HexUnit digits code.toNat →
      Holds u (numericEscape digits)

theorem Holds.of_settle {front : Bytes} (h : u.Holds front) (hs : u.settle = .ok ()) :
    front = [] ∧ u.units.held = none := by
  cases h with
  | free hu => exact ⟨rfl, hu⟩
  | high hu =>
    rw [settle_of_held hu] at hs
    cases hs

/-- **Whatever is unescaped fits the description.**  A surrogate that is held goes with the escape
after it, so the escape that it came from is put back in front. -/
theorem unescapes_of_run {s out front : Bytes} (h : run u s = .ok out) (hu : u.Holds front) :
    ∃ t, out = u.out.reverse ++ t ∧ Unescapes (front ++ s) t := by
  -- The cases in which `run` goes on are 5, 10 and 11, as for the content of a string.
  fun_induction run u s generalizing front with
  | case1 u hs =>
    obtain ⟨rfl, -⟩ := hu.of_settle hs
    cases h
    exact ⟨[], (List.append_nil _).symm, .nil⟩
  | case5 u h₁ h₂ h₃ h₄ later code hcode u' hunit ih =>
    have hdigits := unitOfHex_eq_some_iff.1 hcode
    rcases unit_eq_ok_iff.1 hunit with ⟨hfree, hhigh, rfl⟩ | ⟨hfree, hhigh, hlow, rfl⟩ |
      ⟨high, hheld, hlow, rfl⟩
    · obtain ⟨t, hout, ht⟩ := ih h (.high rfl hhigh hdigits)
      cases hu with
      | free => exact ⟨t, hout, ht⟩
      | high hheld =>
        rw [hfree] at hheld
        cases hheld
    · obtain ⟨t, hout, ht⟩ := ih h (.free rfl)
      cases hu with
      | free =>
        rw [Utf16.isHigh_iff] at hhigh
        rw [Utf16.isLow_iff] at hlow
        refine ⟨_, ?_, .unit hdigits (by omega) ht⟩
        rw [hout]
        simp [character]
      | high hheld =>
        rw [hfree] at hheld
        cases hheld
    · obtain ⟨t, hout, ht⟩ := ih h (.free rfl)
      cases hu with
      | free hfree =>
        rw [hfree] at hheld
        cases hheld
      | @high code' digits hheld' hhigh' hdigits' =>
        obtain rfl : high = code' := Option.some.inj (hheld.symm.trans hheld')
        rw [Utf16.isHigh_iff] at hhigh'
        rw [Utf16.isLow_iff] at hlow
        obtain ⟨m, hm⟩ := Nat.exists_eq_add_of_le hhigh'.1
        obtain ⟨n, hn⟩ := Nat.exists_eq_add_of_le hlow.1
        rw [hm] at hdigits'
        rw [hn] at hdigits
        rw [Utf16.combine_eq hm hn] at hout
        refine ⟨_, ?_, .pair hdigits' (by omega) hdigits (by omega) ht⟩
        rw [hout]
        simp [character]
  | case10 u letter more hletter b hb hs ih =>
    obtain ⟨rfl, hfree⟩ := hu.of_settle hs
    obtain ⟨t, hout, ht⟩ := ih h (.free hfree)
    refine ⟨b :: t, ?_, .short (shortEscape_eq_some_iff.1 hb) ht⟩
    rw [hout]
    simp [byte]
  | case11 u b rest hb hs ih =>
    obtain ⟨rfl, hfree⟩ := hu.of_settle hs
    obtain ⟨t, hout, ht⟩ := ih h (.free hfree)
    refine ⟨b :: t, ?_, .plain hb ht⟩
    rw [hout]
    simp [byte]
  | _ => cases h

/-- The walk over the escapes does not look at how the other bytes are encoded. -/
theorem run_ne_invalidUtf8 {s : Bytes} {n : Nat} : run u s ≠ .error (.invalidUtf8 n) := by
  have hlone : ∀ {e : StringError}, e.IsSurrogate → e ≠ .invalidUtf8 n := by
    rintro e ⟨code, offset, rfl⟩
    exact nofun
  intro h
  -- Cases 2, 8 and 12 end at a surrogate that is held, and case 6 at the unit that comes next.
  fun_induction run u s with
  | case5 u h₁ h₂ h₃ h₄ later code hcode u' hunit ih => exact ih h
  | case10 u letter more hletter b hb hs ih => exact ih h
  | case11 u b rest hb hs ih => exact ih h
  | case2 u e hs | case8 u letter more hletter e hs | case12 u b rest hb e hs =>
    cases h
    exact hlone (settle_error ‹_›) rfl
  | case6 u h₁ h₂ h₃ h₄ later code hcode e hunit =>
    cases h
    exact hlone (unit_error hunit) rfl
  | _ => cases h

end Unescaping

theorem unescape_eq_ok_iff {b out : Bytes} : unescape ⟨b⟩ = .ok out ↔ Unescapes b out := by
  constructor
  · intro h
    obtain ⟨t, hout, ht⟩ := Unescaping.unescapes_of_run h (.free rfl)
    rw [hout]
    exact ht
  · intro h
    exact Unescaping.run_of_unescapes h rfl

end RawText

/-! ## Replacing escapes keeps UTF-8 intact -/

theorem HexUnit.ascii {digits : Bytes} {n : Nat} (h : HexUnit digits n) :
    ∀ b ∈ numericEscape digits, b < 0x80 := by
  have hdigit : ∀ {b n}, HexDigit b n → b < 0x80 := by
    intro b n h
    cases h with
    | @decimal n h => exact (by decide : ∀ n < 10, UInt8.ofNat (0x30 + n) < 0x80) n h
    | @lower n h => exact (by decide : ∀ n < 6, UInt8.ofNat (0x61 + n) < 0x80) n h
    | @upper n h => exact (by decide : ∀ n < 6, UInt8.ofNat (0x41 + n) < 0x80) n h
  cases h with
  | digits hi hj hk hl =>
    simp only [numericEscape, List.mem_cons, List.not_mem_nil, or_false]
    rintro b (rfl | rfl | rfl | rfl | rfl | rfl)
    · decide
    · decide
    · exact hdigit hi
    · exact hdigit hj
    · exact hdigit hk
    · exact hdigit hl

/-- A numeric escape cuts UTF-8 in two. -/
theorem HexUnit.isValid_append_iff {digits : Bytes} {n : Nat} (h : HexUnit digits n)
    (u s : Bytes) :
    Utf8.isValid (u ++ (numericEscape digits ++ s)) ↔ Utf8.isValid u ∧ Utf8.isValid s := by
  have hascii := h.ascii
  have hlater : ∀ b ∈ 0x75 :: digits, b < 0x80 := fun b hb => hascii b (List.mem_cons_of_mem _ hb)
  rw [← Utf8.isValid_ascii_append hlater s]
  exact Utf8.isValid_append_ascii (hascii Byte.backslash List.mem_cons_self) u _

/-- The bytes before are kept with those that stand for themselves, until an escape ends a
character. -/
theorem Unescapes.isValid_append_iff {s t : Bytes} (h : Unescapes s t) (u : Bytes) :
    Utf8.isValid (u ++ s) ↔ Utf8.isValid (u ++ t) := by
  have hescape : Byte.backslash < 0x80 := by decide
  have hshort : ∀ e ∈ shortEscapes, e.1 < 0x80 ∧ e.2 < 0x80 := by simp [shortEscapes]
  induction h generalizing u with
  | nil => rfl
  | @plain b s t _ _ ih =>
    have hone : ∀ s, u ++ b :: s = (u ++ [b]) ++ s := by simp
    rw [hone s, hone t]
    exact ih (u ++ [b])
  | short hb _ ih =>
    rw [Utf8.isValid_append_ascii hescape, Utf8.isValid_append_ascii (hshort _ hb).2,
      Utf8.isValid_cons_ascii (hshort _ hb).1]
    exact and_congr_right' (ih [])
  | unit hn _ _ ih =>
    rw [hn.isValid_append_iff, Utf8.isValid_append_char]
    exact and_congr_right' (ih [])
  | pair hm _ hn _ _ ih =>
    rw [hm.isValid_append_iff, Utf8.isValid_append_char]
    exact and_congr_right' ((hn.isValid_append_iff [] _).trans
      ((and_iff_right rfl).trans (ih [])))

/-- Content is UTF-8 just when it is so with its escapes replaced. -/
theorem Unescapes.isText_iff {s t : Bytes} (h : Unescapes s t) :
    Utf8.IsText s ↔ Utf8.IsText t :=
  Utf8.isValid_iff.symm.trans ((h.isValid_append_iff []).trans Utf8.isValid_iff)

/-- **Content that is UTF-8 is still UTF-8 when its escapes are replaced.** -/
theorem Unescapes.isText {s t : Bytes} (h : Unescapes s t) (hs : Utf8.IsText s) :
    Utf8.IsText t :=
  h.isText_iff.1 hs

/-! ## Decoding -/

namespace RawText

theorem exists_textOf_iff {b : Bytes} : (∃ text, textOf b = .ok text) ↔ Utf8.IsText b := by
  simp only [textOf_eq_ok_iff]
  rfl

/-- Bytes that are not UTF-8 are reported where they stop being so. -/
theorem textOf_eq_error_iff {b : Bytes} {e : StringError} :
    textOf b = .error e ↔ ¬ Utf8.IsText b ∧ e = .invalidUtf8 (Utf8.validLength b) := by
  rw [← exists_textOf_iff]
  unfold textOf
  cases Utf8.chars? b with
  | some text => simp
  | none => simp [eq_comm]

theorem hasEscapes_iff {b : Bytes} : hasEscapes ⟨b⟩ ↔ Byte.backslash ∈ b :=
  List.contains_iff_mem

/-- Without escapes there is nothing to replace. -/
theorem unescapes_self_iff {b out : Bytes} (hb : Byte.backslash ∉ b) :
    Unescapes b out ↔ out = b := by
  have hself : Unescapes b b := by
    induction b with
    | nil => exact .nil
    | cons c b ih =>
      rw [List.mem_cons, not_or] at hb
      exact .plain (Ne.symm hb.1) (ih hb.2)
  constructor
  · intro h
    have hout := (unescape_eq_ok_iff.2 h).symm.trans (unescape_eq_ok_iff.2 hself)
    exact Except.ok.inj hout
  · rintro rfl
    exact hself

theorem bind_eq_ok_iff {α β : Type} {x : Except StringError α} {f : α → Except StringError β}
    {c : β} : x.bind f = .ok c ↔ ∃ a, x = .ok a ∧ f a = .ok c := by
  cases x <;> simp [Except.bind]

theorem map_eq_ok_iff {α β : Type} {x : Except StringError α} {f : α → β} {c : β} :
    x.map f = .ok c ↔ ∃ a, x = .ok a ∧ f a = c := by
  cases x <;> simp [Except.map]

/-- **The content of a string denotes a text just when it is UTF-8 and its escapes are well
formed.** -/
theorem decoded_eq_ok_iff {b : Bytes} {d : Decoded} :
    decoded ⟨b⟩ = .ok d ↔ Utf8.IsText b ∧ Unescapes b (Utf8.encode d.text) ∧
      (d.borrowed ↔ Byte.backslash ∉ b) := by
  by_cases hescapes : hasEscapes ⟨b⟩
  · have hb : Byte.backslash ∈ b := hasEscapes_iff.1 hescapes
    rw [decoded_of_escapes hescapes, bind_eq_ok_iff]
    simp only [bind_eq_ok_iff, map_eq_ok_iff, textOf_eq_ok_iff, unescape_eq_ok_iff]
    constructor
    · rintro ⟨raw, hraw, out, hout, text, rfl, rfl⟩
      exact ⟨⟨raw, hraw⟩, hout, by simp [hb]⟩
    · rintro ⟨⟨raw, hraw⟩, hout, hborrowed⟩
      have hfalse : d.borrowed = false := by simpa [hb] using hborrowed
      refine ⟨raw, hraw, _, hout, d.text, rfl, ?_⟩
      rw [← hfalse]
  · have hb : Byte.backslash ∉ b := fun h => hescapes (hasEscapes_iff.2 h)
    rw [decoded_of_no_escapes hescapes, map_eq_ok_iff, unescapes_self_iff hb]
    simp only [textOf_eq_ok_iff]
    constructor
    · rintro ⟨text, rfl, rfl⟩
      exact ⟨⟨text, rfl⟩, rfl, by simp [hb]⟩
    · rintro ⟨-, hout, hborrowed⟩
      have htrue : d.borrowed = true := by simpa [hb] using hborrowed
      refine ⟨d.text, hout.symm, ?_⟩
      rw [← htrue]

/-- The content of a string denotes something just when it is UTF-8 and its escapes are well
formed: what the escapes leave is always UTF-8. -/
theorem exists_decoded_iff {b : Bytes} :
    (∃ d, decoded ⟨b⟩ = .ok d) ↔ Utf8.IsText b ∧ ∃ out, Unescapes b out := by
  simp only [decoded_eq_ok_iff]
  constructor
  · rintro ⟨d, hb, hout, -⟩
    exact ⟨hb, _, hout⟩
  · rintro ⟨hb, out, hout⟩
    obtain ⟨text, rfl⟩ := hout.isText hb
    exact ⟨⟨text, decide (Byte.backslash ∉ b)⟩, hb, hout, decide_eq_true_iff⟩

/-- **Bytes that are not UTF-8 are reported where the longest prefix that is ends, and nothing else
is reported so.** -/
theorem decoded_eq_invalidUtf8_iff {b : Bytes} {n : Nat} :
    decoded ⟨b⟩ = .error (.invalidUtf8 n) ↔
      ¬ Utf8.IsText b ∧ IsGreatest {m | m ≤ b.length ∧ Utf8.IsText (b.take m)} n := by
  have hn : IsGreatest {m | m ≤ b.length ∧ Utf8.IsText (b.take m)} n ↔ n = Utf8.validLength b := by
    constructor
    · intro h
      exact h.unique (Utf8.validLength_isGreatest b)
    · rintro rfl
      exact Utf8.validLength_isGreatest b
  have htext : textOf b = .error (.invalidUtf8 n) ↔
      ¬ Utf8.IsText b ∧ n = Utf8.validLength b := by
    rw [textOf_eq_error_iff, StringError.invalidUtf8.injEq]
  rw [hn, ← htext]
  by_cases hescapes : hasEscapes ⟨b⟩
  · rw [decoded_of_escapes hescapes]
    cases hraw : textOf b with
    | error e => simp only [Except.bind, Except.error.injEq]
    | ok raw =>
      refine iff_of_false ?_ nofun
      have hb : Utf8.IsText b := exists_textOf_iff.1 ⟨raw, hraw⟩
      cases hrun : unescape ⟨b⟩ with
      | error e =>
        intro h
        cases h
        exact Unescaping.run_ne_invalidUtf8 hrun
      | ok out =>
        obtain ⟨text, hout⟩ := exists_textOf_iff.2 ((unescape_eq_ok_iff.1 hrun).isText hb)
        simp only [Except.bind, hout]
        exact nofun
  · rw [decoded_of_no_escapes hescapes]
    cases textOf b <;> simp [Except.map]

/-- **What the content of a string denotes.**  It denotes a text just when it is UTF-8, each
backslash begins a well-formed escape, and each surrogate stands next to its partner.  The text is
the content with the escapes replaced, and is borrowed when there are none.  Content that is not
UTF-8 is reported as such, with the length of its longest prefix that is; what replacing the
escapes leaves is never reported so. -/
theorem decoded_determined (b : Bytes) :
    (∀ d, decoded ⟨b⟩ = .ok d ↔ Utf8.IsText b ∧ Unescapes b (Utf8.encode d.text) ∧
      (d.borrowed ↔ Byte.backslash ∉ b)) ∧
    ((∃ d, decoded ⟨b⟩ = .ok d) ↔ Utf8.IsText b ∧ ∃ out, Unescapes b out) ∧
    (∀ n, decoded ⟨b⟩ = .error (.invalidUtf8 n) ↔
      ¬ Utf8.IsText b ∧ IsGreatest {m | m ≤ b.length ∧ Utf8.IsText (b.take m)} n) ∧
    (Utf8.IsText b → ∀ out, unescape ⟨b⟩ = .ok out → ∃ text, textOf out = .ok text) := by
  refine ⟨fun _ => decoded_eq_ok_iff, exists_decoded_iff, fun _ => decoded_eq_invalidUtf8_iff, ?_⟩
  intro hb out hout
  exact exists_textOf_iff.2 ((unescape_eq_ok_iff.1 hout).isText hb)

/-- The content `\ud83d\uDE00`, and the letter `a` before three bytes that are a surrogate. -/
theorem decoded_determined_pair :
    decoded ⟨[0x5C, 0x75, 0x64, 0x38, 0x33, 0x64, 0x5C, 0x75, 0x44, 0x45, 0x30, 0x30]⟩ =
      .ok ⟨[Char.ofNat 0x1F600], false⟩ ∧
    Unescapes [0x5C, 0x75, 0x64, 0x38, 0x33, 0x64, 0x5C, 0x75, 0x44, 0x45, 0x30, 0x30]
      [0xF0, 0x9F, 0x98, 0x80] ∧
    decoded ⟨[0x61, 0xED, 0xA0, 0x80]⟩ = .error (.invalidUtf8 1) ∧
    ¬ Utf8.IsText [0x61, 0xED, 0xA0, 0x80] := by
  have hpair : decoded ⟨[0x5C, 0x75, 0x64, 0x38, 0x33, 0x64, 0x5C, 0x75, 0x44, 0x45, 0x30, 0x30]⟩ =
      .ok ⟨[Char.ofNat 0x1F600], false⟩ := by rfl
  have hinvalid : decoded ⟨[0x61, 0xED, 0xA0, 0x80]⟩ = .error (.invalidUtf8 1) := by rfl
  obtain ⟨hok, -, -, -⟩ := decoded_determined
    [0x5C, 0x75, 0x64, 0x38, 0x33, 0x64, 0x5C, 0x75, 0x44, 0x45, 0x30, 0x30]
  obtain ⟨-, -, herror, -⟩ := decoded_determined [0x61, 0xED, 0xA0, 0x80]
  obtain ⟨-, hunescapes, -⟩ := (hok _).1 hpair
  exact ⟨hpair, hunescapes, hinvalid, ((herror 1).1 hinvalid).1⟩

/-! ## Comparing -/

/-- The content of a string decodes to a text just when its escapes stand for that text.  That the
content itself is UTF-8 follows, so that it need not be looked at first. -/
theorem decode_eq_ok_iff {s : RawText} {text : List Char} :
    s.decode = .ok text ↔ Unescapes s.bytes (Utf8.encode text) := by
  rw [decode, map_eq_ok_iff]
  constructor
  · rintro ⟨d, hd, rfl⟩
    exact (decoded_eq_ok_iff.1 hd).2.1
  · intro h
    have hbytes : Utf8.IsText s.bytes := h.isText_iff.2 ⟨text, rfl⟩
    refine ⟨⟨text, decide (Byte.backslash ∉ s.bytes)⟩, decoded_eq_ok_iff.2 ?_, rfl⟩
    exact ⟨hbytes, h, decide_eq_true_iff⟩

/-- **The content of a string is compared as if it had been decoded.**  It denotes a text just when
it decodes to it, and that is when the content with its escapes replaced is the text in UTF-8: bytes
without escapes can be compared as they stand, and nothing that cannot be decoded equals a text. -/
theorem denotes_as_decoded (s : RawText) (text : String) :
    (s.denotes text ↔ s.decode = .ok text.toList) ∧
    (s.denotes text ↔ Unescapes s.bytes (Utf8.encode text.toList)) :=
  ⟨s.denotes_iff text, (s.denotes_iff text).trans decode_eq_ok_iff⟩

/-- The content `\u0069d` denotes `id`, and nothing denotes U+FFFD that is not UTF-8. -/
example : RawText.denotes ⟨[0x5C, 0x75, 0x30, 0x30, 0x36, 0x39, 0x64]⟩ "id" ∧
    ¬ RawText.denotes ⟨[0xFF]⟩ (String.singleton Utf8.replacement) := by
  decide +kernel

end RawText

end FlatJson
