import FlatJson.Proofs.Lockstep
import Mathlib.Algebra.Ring.Int.Defs
import Mathlib.Data.Nat.Digits.Defs

/-!
# Numbers read as integers

A number is read as an integer digit by digit, and given up at the first digit that leads out of the
range.  Digits only ever lead further away from zero, so that happens just when the whole integer is
outside; and whatever stands behind the digits of an integer is no digit.

* `decimalValue` — the number that digits stand for, each by its place.
* `NumberParts` — the parts of a number, and the integer that its sign and its whole digits denote.
* `IntegerFormat.Holds` — an integer is in the range.
* `IntegerFormat.readDigits_eq_ok_iff` — digits that go on from a number inside the range.
* `IntegerFormat.read_eq_ok_iff` — the numbers of the grammar that a range can read.

`Tokenizer.integer_of_number` says this of the numbers in any text, for the two ranges of 64 bits.
-/

namespace FlatJson

/-! ## What digits stand for -/

/-- The number that decimal digits stand for, the last of them counting once. -/
def decimalValue (s : Bytes) : Nat :=
  Nat.ofDigits 10 (s.map fun b => b.toNat - 0x30).reverse

/-- The first of some digits counts by the number of those after it. -/
theorem decimalValue_cons (b : UInt8) (s : Bytes) :
    decimalValue (b :: s) = (b.toNat - 0x30) * 10 ^ s.length + decimalValue s := by
  rw [decimalValue, List.map_cons, Nat.ofDigits_reverse_cons, List.length_map, decimalValue,
    Nat.add_comm, Nat.mul_comm]

example : decimalValue [0x39, 0x30, 0x37] = 907 := by decide

/-- An integer by its sign and its distance from zero. -/
def signedValue (negative : Bool) (n : Nat) : Int :=
  if negative then -n else n

/-! ## The parts of a number -/

/-- A number taken apart. -/
structure NumberParts where
  /-- Whether a minus sign stands in front. -/
  negative : Bool
  whole : Bytes
  /-- The point and the digits after it, if there are any. -/
  fraction : Bytes
  /-- The letter of the exponent and what follows it, if there is one. -/
  exponent : Bytes
  isWhole : IsWhole whole
  isFraction : IsFraction fraction
  isExponent : IsExponent exponent

namespace NumberParts

def sign (p : NumberParts) : Bytes :=
  if p.negative then [0x2D] else []

def text (p : NumberParts) : Bytes :=
  p.sign ++ p.whole ++ p.fraction ++ p.exponent

/-- The integer that is denoted if there is neither a fraction nor an exponent. -/
def integer (p : NumberParts) : Int :=
  signedValue p.negative (decimalValue p.whole)

end NumberParts

/-- The numbers of the grammar are those that can be taken apart. -/
theorem isNumber_iff {s : Bytes} : IsNumber s ↔ ∃ p : NumberParts, p.text = s := by
  constructor
  · rintro ⟨hsign, hwhole, hfraction, hexponent⟩
    rcases List.mem_pair.1 hsign with rfl | rfl
    · exact ⟨⟨false, _, _, _, hwhole, hfraction, hexponent⟩, rfl⟩
    · exact ⟨⟨true, _, _, _, hwhole, hfraction, hexponent⟩, rfl⟩
  · rintro ⟨p, rfl⟩
    have hsign : p.sign ∈ [[], [0x2D]] := by
      unfold NumberParts.sign
      split <;> simp
    exact .mk hsign p.isWhole p.isFraction p.isExponent

/-- A fraction starts with a point, an exponent with a letter. -/
theorem NumberParts.head_after_whole (p : NumberParts) :
    p.fraction ++ p.exponent = [] ∨
      ∃ b s, p.fraction ++ p.exponent = b :: s ∧ (b = 0x2E ∨ Scan.isExponentLetter b) := by
  obtain ⟨negative, whole, fraction, exponent, hwhole, hfraction, hexponent⟩ := p
  cases hfraction with
  | present hne hs => exact .inr ⟨_, _, rfl, .inl rfl⟩
  | absent =>
    cases hexponent with
    | absent => exact .inl rfl
    | present hb hsign hne hs => exact .inr ⟨_, _, rfl, .inr hb⟩

/-- What stands behind the whole digits is not all digits, unless it is nothing. -/
theorem NumberParts.allDigits_iff (p : NumberParts) :
    AllDigits (p.whole ++ (p.fraction ++ p.exponent)) ↔ p.fraction = [] ∧ p.exponent = [] := by
  have hletter : ∀ b, Scan.isExponentLetter b → ¬ Byte.isDigit b := by decide +kernel
  rw [← List.append_eq_nil_iff]
  constructor
  · intro h
    rcases p.head_after_whole with hnil | ⟨b, s, hcons, hb⟩
    · exact hnil
    · have hdigit : Byte.isDigit b := h b (by simp [hcons])
      rcases hb with rfl | hb
      · exact absurd hdigit (by decide)
      · exact absurd hdigit (hletter b hb)
  · intro h
    rw [h, List.append_nil]
    exact p.isWhole.allDigits

/-- **A number is an integer just when it has neither a fraction nor an exponent.** -/
theorem RawNumber.isInteger_iff (p : NumberParts) :
    RawNumber.isInteger ⟨p.text⟩ ↔ p.fraction = [] ∧ p.exponent = [] := by
  have hdigit : ∀ b, Byte.isDigit b → ¬ (b = 0x2E ∨ b = 0x65 ∨ b = 0x45) := by decide +kernel
  have hletter : ∀ b, Scan.isExponentLetter b → b = 0x65 ∨ b = 0x45 := by decide +kernel
  have hall : RawNumber.isInteger ⟨p.text⟩ ↔ ∀ b ∈ p.text, ¬ (b = 0x2E ∨ b = 0x65 ∨ b = 0x45) := by
    simp [RawNumber.isInteger, and_assoc]
  rw [hall, ← List.append_eq_nil_iff]
  constructor
  · intro h
    rcases p.head_after_whole with hnil | ⟨b, s, hcons, hb⟩
    · exact hnil
    · have hmem : b ∈ p.text := by
        rw [NumberParts.text, List.append_assoc, hcons]
        simp
      exact absurd (hb.imp_right (hletter b)) (h b hmem)
  · intro h b hb
    rw [NumberParts.text, List.append_assoc, h, List.append_nil, List.mem_append] at hb
    rcases hb with hb | hb
    · have hsign : b = 0x2D := by
        unfold NumberParts.sign at hb
        split at hb <;> simp_all
      rw [hsign]
      decide
    · exact hdigit b (p.isWhole.allDigits b hb)

/-! ## Reading digits -/

namespace IntegerFormat

variable {f : IntegerFormat} {negative : Bool} {m n : Nat} {v : Int}

/-- Whether the integer is in the range. -/
def Holds (f : IntegerFormat) (v : Int) : Prop :=
  f.smallest ≤ v ∧ v ≤ f.largest

instance (f : IntegerFormat) (v : Int) : Decidable (f.Holds v) :=
  inferInstanceAs (Decidable (_ ∧ _))

/-- Zero is in every range. -/
theorem holds_zero (f : IntegerFormat) : f.Holds 0 := by
  have hpow : ∀ n, 0 < Nat.pow 2 n := fun n => Nat.pow_pos (by decide)
  have hsigned := hpow (f.bits - 1)
  have hunsigned := hpow f.bits
  constructor
  · unfold smallest
    split <;> omega
  · unfold largest
    split <;> omega

/-- What is nearer to zero than an integer of the range is in the range. -/
theorem Holds.of_le (h : f.Holds (signedValue negative n)) (hmn : m ≤ n) :
    f.Holds (signedValue negative m) := by
  obtain ⟨hsmall, hlarge⟩ := h
  obtain ⟨hzero, hzero'⟩ := f.holds_zero
  cases negative with
  | true =>
    have hdown : f.smallest ≤ -(n : Int) := hsmall
    exact ⟨show f.smallest ≤ -(m : Int) by omega, show -(m : Int) ≤ f.largest by omega⟩
  | false =>
    have hup : (n : Int) ≤ f.largest := hlarge
    exact ⟨show f.smallest ≤ (m : Int) by omega, show (m : Int) ≤ f.largest by omega⟩

/-- One digit more: it must be a digit, and lead to an integer of the range. -/
theorem readDigits_cons (f : IntegerFormat) (negative : Bool) (n : Nat) (b : UInt8) (s : Bytes) :
    (∃ e, f.readDigits negative (signedValue negative n) (b :: s) = .error e ∧
      ¬ (Byte.isDigit b ∧ f.Holds (signedValue negative (n * 10 + (b.toNat - 0x30))))) ∨
    (Byte.isDigit b ∧ f.Holds (signedValue negative (n * 10 + (b.toNat - 0x30))) ∧
      f.readDigits negative (signedValue negative n) (b :: s) =
        f.readDigits negative (signedValue negative (n * 10 + (b.toNat - 0x30))) s) := by
  have hle : ∀ b, Byte.isDigit b → 0x30 ≤ b.toNat := by decide +kernel
  by_cases hb : Byte.isDigit b
  · have hb0 := hle b hb
    have hnext : (if negative then signedValue negative n * 10 - ((b.toNat : Int) - 0x30)
        else signedValue negative n * 10 + ((b.toNat : Int) - 0x30)) =
          signedValue negative (n * 10 + (b.toNat - 0x30)) := by
      unfold signedValue
      cases negative <;> simp <;> omega
    have hnot : ¬ (!Byte.isDigit b) = true := by simp [hb]
    rw [readDigits, if_neg hnot]
    simp only [hnext]
    by_cases hlarge : f.largest < signedValue negative (n * 10 + (b.toNat - 0x30))
    · rw [if_pos hlarge]
      exact .inl ⟨_, rfl, fun h => absurd h.2.2 (Int.not_le.2 hlarge)⟩
    · rw [if_neg hlarge]
      by_cases hsmall : signedValue negative (n * 10 + (b.toNat - 0x30)) < f.smallest
      · rw [if_pos hsmall]
        exact .inl ⟨_, rfl, fun h => absurd h.2.1 (Int.not_le.2 hsmall)⟩
      · rw [if_neg hsmall]
        exact .inr ⟨hb, ⟨Int.not_lt.1 hsmall, Int.not_lt.1 hlarge⟩, rfl⟩
  · refine .inl ⟨.invalidDigit, ?_, fun h => hb h.1⟩
    simp [readDigits, hb]

/-- **Digits are read just when all are digits and the integer they lead to is in the range.** -/
theorem readDigits_eq_ok_iff (s : Bytes) (h : f.Holds (signedValue negative n)) :
    f.readDigits negative (signedValue negative n) s = .ok v ↔
      AllDigits s ∧ v = signedValue negative (n * 10 ^ s.length + decimalValue s) ∧ f.Holds v := by
  induction s generalizing n with
  | nil =>
    have hnil : AllDigits [] := nofun
    have hvalue : n * 10 ^ ([] : Bytes).length + decimalValue [] = n := Nat.mul_one n
    rw [readDigits, hvalue, Except.ok.injEq]
    constructor
    · rintro rfl
      exact ⟨hnil, rfl, h⟩
    · rintro ⟨-, rfl, -⟩
      rfl
  | cons b s ih =>
    have hvalue : n * 10 ^ (b :: s).length + decimalValue (b :: s) =
        (n * 10 + (b.toNat - 0x30)) * 10 ^ s.length + decimalValue s := by
      rw [decimalValue_cons, List.length_cons, Nat.pow_succ', ← Nat.add_assoc, Nat.add_mul,
        Nat.mul_assoc]
    have hdigits : AllDigits (b :: s) ↔ Byte.isDigit b ∧ AllDigits s := List.forall_mem_cons
    rw [hvalue, hdigits]
    rcases f.readDigits_cons negative n b s with ⟨e, he, hout⟩ | ⟨hb, hholds, hrest⟩
    · rw [he]
      refine iff_of_false nofun ?_
      rintro ⟨⟨hb, -⟩, rfl, hv⟩
      -- The integer is at least as far from zero as the one that the first digit leads to.
      have hle : n * 10 + (b.toNat - 0x30) ≤
          (n * 10 + (b.toNat - 0x30)) * 10 ^ s.length + decimalValue s :=
        Nat.le_trans (Nat.le_mul_of_pos_right _ (Nat.pow_pos (by decide))) (Nat.le_add_right _ _)
      exact hout ⟨hb, hv.of_le hle⟩
    · rw [hrest, ih hholds, and_iff_right hb]

/-! ## Reading numbers -/

/-- A minus sign is read where the range has negative numbers. -/
theorem read_minus (f : IntegerFormat) {s : Bytes} (hs : s ≠ []) :
    f.read (0x2D :: s) = if f.signed then f.readDigits true 0 s else .error .invalidDigit := by
  have hne : s.isEmpty = false := by simpa using hs
  by_cases hsigned : f.signed
  · simp [read, hne, hsigned]
  · simp [read, hne, hsigned, readDigits, show Byte.isDigit 0x2D = false from rfl]

theorem read_digit (f : IntegerFormat) {b : UInt8} (hb : Byte.isDigit b) (s : Bytes) :
    f.read (b :: s) = f.readDigits false 0 (b :: s) := by
  have hnot : ∀ b, Byte.isDigit b → b ≠ 0x2B ∧ b ≠ 0x2D := by decide +kernel
  obtain ⟨hplus, hminus⟩ := hnot b hb
  simp [read, hplus, hminus]

/-- What stands behind the whole digits is read with them, and refused unless it is nothing. -/
theorem readDigits_parts (f : IntegerFormat) (negative : Bool) (p : NumberParts) :
    f.readDigits negative 0 (p.whole ++ (p.fraction ++ p.exponent)) = .ok v ↔
      (p.fraction = [] ∧ p.exponent = []) ∧
        v = signedValue negative (decimalValue p.whole) ∧ f.Holds v := by
  have hzero : signedValue negative 0 = 0 := by cases negative <;> rfl
  have hholds : f.Holds (signedValue negative 0) := by
    rw [hzero]
    exact f.holds_zero
  have hdigits := readDigits_eq_ok_iff (v := v) (p.whole ++ (p.fraction ++ p.exponent)) hholds
  rw [hzero, Nat.zero_mul, Nat.zero_add, p.allDigits_iff] at hdigits
  rw [hdigits]
  refine and_congr_right ?_
  rintro ⟨hfraction, hexponent⟩
  rw [hfraction, hexponent, List.append_nil, List.append_nil]

/-- **A number of the grammar is read just when it is an integer of the range**, and written without
a minus sign where the range has no negative numbers. -/
theorem read_eq_ok_iff (f : IntegerFormat) (p : NumberParts) :
    f.read p.text = .ok v ↔
      (p.fraction = [] ∧ p.exponent = []) ∧ (p.negative → f.signed) ∧ v = p.integer ∧ f.Holds v := by
  have hne : p.whole ≠ [] := p.isWhole.ne_nil
  cases hsign : p.negative with
  | true =>
    have htext : p.text = 0x2D :: (p.whole ++ (p.fraction ++ p.exponent)) := by
      simp [NumberParts.text, NumberParts.sign, hsign]
    rw [htext, f.read_minus (by simp [hne]), NumberParts.integer, hsign]
    by_cases hsigned : f.signed
    · rw [if_pos hsigned, f.readDigits_parts]
      simp [hsigned]
    · rw [if_neg hsigned]
      simp [hsigned]
  | false =>
    obtain ⟨b, s, hcons⟩ := List.exists_cons_of_ne_nil hne
    have hb : Byte.isDigit b := p.isWhole.allDigits b (by simp [hcons])
    have htext : p.text = p.whole ++ (p.fraction ++ p.exponent) := by
      simp [NumberParts.text, NumberParts.sign, hsign]
    have hfirst : f.read p.text = f.readDigits false 0 (p.whole ++ (p.fraction ++ p.exponent)) := by
      rw [htext, hcons]
      exact f.read_digit hb _
    rw [hfirst, f.readDigits_parts, NumberParts.integer, hsign]
    simp

theorem holds_int64 (v : Int) : int64.Holds v ↔ -2 ^ 63 ≤ v ∧ v < 2 ^ 63 := by
  have hsmallest : int64.smallest = -2 ^ 63 := by decide
  have hlargest : int64.largest = 2 ^ 63 - 1 := by decide
  rw [Holds, hsmallest, hlargest]
  omega

theorem holds_word64 (v : Int) : word64.Holds v ↔ 0 ≤ v ∧ v < 2 ^ 64 := by
  have hsmallest : word64.smallest = 0 := by decide
  have hlargest : word64.largest = 2 ^ 64 - 1 := by decide
  rw [Holds, hsmallest, hlargest]
  omega

end IntegerFormat

/-! ## Numbers of a text -/

namespace RawNumber

variable {p : NumberParts} {v : Int}

/-- A conversion gives what the range can read. -/
theorem toInteger_toOption_iff (f : IntegerFormat) :
    (toInteger ⟨p.text⟩ f).toOption = some v ↔
      isInteger ⟨p.text⟩ ∧ (p.negative → f.signed) ∧ v = p.integer ∧ f.Holds v := by
  rw [isInteger_iff, ← f.read_eq_ok_iff, toInteger]
  cases f.read p.text <;> simp [Except.toOption]

theorem toInt64_eq_some_iff :
    toInt64? ⟨p.text⟩ = some v ↔
      isInteger ⟨p.text⟩ ∧ v = p.integer ∧ -2 ^ 63 ≤ v ∧ v < 2 ^ 63 := by
  have hsigned : p.negative → IntegerFormat.int64.signed := fun _ => rfl
  rw [toInt64?, toInteger_toOption_iff, IntegerFormat.holds_int64, and_iff_right hsigned]

/-- A number with a minus sign is not read, zero included. -/
theorem toWord64_eq_some_iff :
    toWord64? ⟨p.text⟩ = some v ↔
      isInteger ⟨p.text⟩ ∧ p.negative = false ∧ v = p.integer ∧ v < 2 ^ 64 := by
  have hunsigned : (p.negative → IntegerFormat.word64.signed) ↔ p.negative = false := by
    simp [IntegerFormat.word64]
  rw [toWord64?, toInteger_toOption_iff, IntegerFormat.holds_word64, hunsigned]
  refine and_congr_right fun _ => and_congr_right fun hnegative => and_congr_right fun hv => ?_
  have hzero : 0 ≤ v := by
    rw [hv, NumberParts.integer, hnegative]
    exact Int.natCast_nonneg _
  exact and_iff_right hzero

end RawNumber

/-- **Numbers are converted exactly.**  Every number token of a text, accepted or not, has a text of
the grammar, and it is converted to an integer of 64 bits just when it is written as an integer and
the integer that it denotes is in the range; without a sign bit, just when it has no minus sign
either. -/
theorem Tokenizer.integer_of_number (t : Tokenizer) {text : Bytes} {tok : Token}
    (h : tok ∈ (t.parse text).1.tokens) (hk : tok.kind = .number) :
    ∃ p : NumberParts, ((t.parse text).1.window text).rawNumber? tok = some ⟨p.text⟩ ∧
      slice text tok.first tok.past = p.text ∧ IsNumber p.text ∧
      (RawNumber.isInteger ⟨p.text⟩ ↔ p.fraction = [] ∧ p.exponent = []) ∧
      (∀ v, RawNumber.toInt64? ⟨p.text⟩ = some v ↔
        RawNumber.isInteger ⟨p.text⟩ ∧ v = p.integer ∧ -2 ^ 63 ≤ v ∧ v < 2 ^ 63) ∧
      ∀ v, RawNumber.toWord64? ⟨p.text⟩ = some v ↔
        RawNumber.isInteger ⟨p.text⟩ ∧ p.negative = false ∧ v = p.integer ∧ v < 2 ^ 64 := by
  obtain ⟨l, hl⟩ := t.exists_shows h
  have hkind : l.kind = .number := hl.kind.symm.trans hk
  have hunquoted : ¬ l.isQuoted := by
    rw [Leaf.isQuoted, hkind]
    exact Bool.false_ne_true
  have hspelling : l.spelling = l.content := if_neg hunquoted
  have hnumber : IsNumber l.content := hl.isNumber hkind
  obtain ⟨p, hp⟩ := isNumber_iff.1 hnumber
  refine ⟨p, ?_, ?_, ?_, RawNumber.isInteger_iff p, fun v => RawNumber.toInt64_eq_some_iff,
    fun v => RawNumber.toWord64_eq_some_iff⟩
  · rw [hp]
    exact hl.rawNumber_eq hkind
  · rw [hp]
    exact hl.extent.trans hspelling
  · rw [hp]
    exact hnumber

/-- The text `[-9223372036854775808`, which breaks off after the least integer of 64 bits. -/
theorem Tokenizer.integer_of_number_least :
    (({} : Tokenizer).parse (0x5B :: Utf8.encode "-9223372036854775808".toList)).1.error ≠ none ∧
    ⟨.number, 1, 1, 20⟩ ∈
      (({} : Tokenizer).parse (0x5B :: Utf8.encode "-9223372036854775808".toList)).1.tokens ∧
    ∃ p : NumberParts, p.text = Utf8.encode "-9223372036854775808".toList ∧
      p.integer = -2 ^ 63 ∧ RawNumber.toInt64? ⟨p.text⟩ = some (-2 ^ 63) ∧
      RawNumber.toWord64? ⟨p.text⟩ = none := by
  have htoken : ⟨.number, 1, 1, 20⟩ ∈
      (({} : Tokenizer).parse (0x5B :: Utf8.encode "-9223372036854775808".toList)).1.tokens := by
    decide
  obtain ⟨p, -, hslice, -, -, hsigned, -⟩ := Tokenizer.integer_of_number {} htoken rfl
  have htext : p.text = Utf8.encode "-9223372036854775808".toList := hslice.symm
  have hread : RawNumber.toInt64? ⟨p.text⟩ = some (-2 ^ 63) := by
    rw [htext]
    decide
  have hunread : RawNumber.toWord64? ⟨p.text⟩ = none := by
    rw [htext]
    decide
  exact ⟨by decide, htoken, p, htext, ((hsigned _).1 hread).2.1.symm, hread, hunread⟩

end FlatJson
