import FlatJson.Proofs.Denotation

/-!
# Code units of a text

Units come one at a time, and a high surrogate is held until the next one.  What comes of all of
them can be said without that: units that are well formed are those of one text, which is what they
are decoded to, and in all others there is a first surrogate without its partner, which is the one
that is reported.

* `encode` — the units of a text.
* `Unpaired`, `WellFormed` — a surrogate without its partner beside it, and units without any.
* `Pairing.feedAll`, `Pairing.decode` — units one after the other, and then the end.
* `combine?`, `Pairing.feed?` — the same in 32-bit words, where a sum may overflow and a code need
  not be that of a character.
* `exists_cut` — units are those of a text up to the first surrogate without its partner.
* `Pairing.decode_ok_iff`, `Pairing.decode_error_iff` — which units are decoded, and which one is
  reported.
* `Pairing.Reachable`, `Pairing.Sound` — what units can leave behind, of which only a high
  surrogate is held.
* `combine?_eq`, `Pairing.feed?_eq` — in words nothing overflows, and no code lacks its character.

`Pairing.decode_units` puts these together.
-/

namespace FlatJson.Utf16

/-! ## Units of a text -/

/-- The units of a character: one, or a pair past U+FFFF. -/
def encodeChar (c : Char) : List UInt16 :=
  if c.toNat < 0x10000 then [UInt16.ofNat c.toNat]
  else
    [UInt16.ofNat (0xD800 + (c.toNat - 0x10000) / 0x400),
      UInt16.ofNat (0xDC00 + (c.toNat - 0x10000) % 0x400)]

def encode (text : List Char) : List UInt16 :=
  text.flatMap encodeChar

/-- Whether the unit at an index is a surrogate without its partner: a high one with no low one
right after it, or a low one with no high one right before it. -/
def Unpaired (units : List UInt16) (i : Nat) : Prop :=
  (units[i]?.any isHigh ∧ ¬ units[i + 1]?.any isLow) ∨
    (units[i]?.any isLow ∧ ∀ j, j + 1 = i → ¬ units[j]?.any isHigh)

def WellFormed (units : List UInt16) : Prop := ∀ i, ¬ Unpaired units i

namespace Pairing

/-- Takes units one after the other: the characters that they complete, and what is held then. -/
def feedAll (p : Pairing) : List UInt16 → Except UInt16 (List Char × Pairing)
  | [] => .ok ([], p)
  | unit :: later =>
    match p.feed unit with
    | .error code => .error code
    | .ok (c, p) => (feedAll p later).map fun (text, p) => (c.toList ++ text, p)

/-- All units of a text, one after the other, and then their end. -/
def decode (units : List UInt16) : Except UInt16 (List Char) :=
  match feedAll {} units with
  | .error code => .error code
  | .ok (text, p) => p.finish.map fun () => text

end Pairing

/-! ## In words -/

/-- A sum of 32-bit words, if it is one too. -/
def sum? (a b : UInt32) : Option UInt32 :=
  if a.toNat + b.toNat < UInt32.size then some (a + b) else none

/-- A difference of 32-bit words, if it is not below zero. -/
def difference? (a b : UInt32) : Option UInt32 :=
  if b ≤ a then some (a - b) else none

/-- The code of the character that a pair stands for, if no sum or difference is out of range. -/
def combine? (high low : UInt16) : Option UInt32 := do
  let upper ← difference? high.toUInt32 0xD800
  let lower ← difference? low.toUInt32 0xDC00
  sum? (← sum? 0x10000 (upper <<< 10)) lower

/-- The character of a code, if there is one. -/
def charOf? (code : UInt32) : Option Char :=
  if h : code.isValidChar then some ⟨code, h⟩ else none

/-- Takes one unit, if no sum or difference is out of range.  That there is no character to give
says that a high surrogate is held, or that a unit is the code of none; an error is an unpaired
surrogate, or the code of a pair that is that of no character. -/
def Pairing.feed? (p : Pairing) (unit : UInt16) : Option (Except UInt32 (Option Char) × Pairing) :=
  match p.held with
  | none =>
    if isHigh unit then some (.ok none, ⟨some unit⟩)
    else if isLow unit then some (.error unit.toUInt32, {})
    else some (.ok (charOf? unit.toUInt32), {})
  | some high =>
    if isLow unit then do
      let code ← combine? high unit
      match charOf? code with
      | some c => return (.ok (some c), {})
      | none => return (.error code, {})
    else some (.error high.toUInt32, {})

/-- The outcome of taking one unit, in words; nothing is held after an error. -/
def Pairing.inWords :
    Except UInt16 (Option Char × Pairing) → Except UInt32 (Option Char) × Pairing
  | .ok (c, p) => (.ok c, p)
  | .error code => (.error code.toUInt32, {})

/-! ## Characters and their units -/

variable {unit high low code : UInt16} {units later : List UInt16} {text : List Char} {i : Nat}

/-- A unit that is no surrogate is the one unit of its character. -/
theorem encodeChar_scalar (hhigh : ¬ isHigh unit) (hlow : ¬ isLow unit) :
    encodeChar (Char.ofNat unit.toNat) = [unit] := by
  rw [isHigh_iff] at hhigh
  rw [isLow_iff] at hlow
  have hlt := unit.toNat_lt
  have hcode : (Char.ofNat unit.toNat).toNat = unit.toNat := Utf8.val_ofNat (by omega)
  rw [encodeChar, hcode, if_pos hlt, UInt16.ofNat_toNat]

/-- A pair has the code of a character. -/
theorem toNat_ofNat_combine (hhigh : isHigh high) (hlow : isLow low) :
    (Char.ofNat (combine high low)).toNat = combine high low := by
  rw [isHigh_iff] at hhigh
  rw [isLow_iff] at hlow
  refine Utf8.val_ofNat ?_
  unfold combine
  omega

/-- A pair is the units of the character that it is combined to. -/
theorem encodeChar_pair (hhigh : isHigh high) (hlow : isLow low) :
    encodeChar (Char.ofNat (combine high low)) = [high, low] := by
  rw [encodeChar, toNat_ofNat_combine hhigh hlow]
  rw [isHigh_iff] at hhigh
  rw [isLow_iff] at hlow
  have hcombine : combine high low =
      0x10000 + (high.toNat - 0xD800) * 0x400 + (low.toNat - 0xDC00) := rfl
  have hupper : 0xD800 + (combine high low - 0x10000) / 0x400 = high.toNat := by omega
  have hlower : 0xDC00 + (combine high low - 0x10000) % 0x400 = low.toNat := by omega
  rw [if_neg (by omega), hupper, hlower, UInt16.ofNat_toNat, UInt16.ofNat_toNat]

theorem exists_unit {n : Nat} (h : n < 0x10000) : ∃ unit : UInt16, unit.toNat = n :=
  ⟨UInt16.ofNat n, UInt16.toNat_ofNat_of_lt' h⟩

/-- A character comes from one unit that is no surrogate, or from a pair. -/
theorem exists_units (c : Char) :
    (∃ unit, ¬ isHigh unit ∧ ¬ isLow unit ∧ c = Char.ofNat unit.toNat) ∨
      ∃ high low, isHigh high ∧ isLow low ∧ c = Char.ofNat (combine high low) := by
  have hvalid : c.toNat < 0xD800 ∨ (0xDFFF < c.toNat ∧ c.toNat < 0x110000) := c.valid
  by_cases hsmall : c.toNat < 0x10000
  · obtain ⟨unit, hunit⟩ := exists_unit hsmall
    refine .inl ⟨unit, ?_, ?_, ?_⟩
    · rw [isHigh_iff]
      omega
    · rw [isLow_iff]
      omega
    · rw [hunit, Char.ofNat_toNat]
  · obtain ⟨high, hhigh⟩ := exists_unit (n := 0xD800 + (c.toNat - 0x10000) / 0x400) (by omega)
    obtain ⟨low, hlow⟩ := exists_unit (n := 0xDC00 + (c.toNat - 0x10000) % 0x400) (by omega)
    have hcombine : combine high low = c.toNat := by
      unfold combine
      omega
    refine .inr ⟨high, low, ?_, ?_, ?_⟩
    · rw [isHigh_iff]
      omega
    · rw [isLow_iff]
      omega
    · rw [hcombine, Char.ofNat_toNat]

theorem encode_cons (c : Char) (text : List Char) :
    encode (c :: text) = encodeChar c ++ encode text :=
  List.flatMap_cons

/-! ## Surrogates without partners -/

theorem isLow_of_isHigh (h : isHigh unit) : ¬ isLow unit := by
  rw [isHigh_iff] at h
  rw [isLow_iff]
  omega

/-- What comes before a unit matters only if it is a high surrogate right before it. -/
theorem unpaired_cons (h : ¬ isHigh unit ∨ 0 < i) :
    Unpaired (unit :: units) (i + 1) ↔ Unpaired units i := by
  unfold Unpaired
  rw [List.getElem?_cons_succ, List.getElem?_cons_succ]
  refine or_congr_right (and_congr_right fun _ => ?_)
  cases i with
  | zero =>
    have hhigh : ¬ isHigh unit := h.resolve_right (Nat.lt_irrefl 0)
    constructor
    · intro _ j hj
      cases hj
    · intro _ j hj
      obtain rfl : j = 0 := Nat.succ.inj hj
      simpa using hhigh
  | succ i =>
    have hat : ∀ {P : Nat → Prop}, (∀ j, j + 1 = i + 1 → P j) ↔ P i :=
      ⟨fun h => h i rfl, fun h j hj => Nat.succ.inj hj ▸ h⟩
    have hat' : ∀ {P : Nat → Prop}, (∀ j, j + 1 = i + 1 + 1 → P j) ↔ P (i + 1) :=
      ⟨fun h => h _ rfl, fun h j hj => Nat.succ.inj hj ▸ h⟩
    rw [hat, hat', List.getElem?_cons_succ]

theorem not_unpaired_scalar (hhigh : ¬ isHigh unit) (hlow : ¬ isLow unit) :
    ¬ Unpaired (unit :: units) 0 := by
  simp [Unpaired, hhigh, hlow]

theorem not_unpaired_pair (hhigh : isHigh high) (hlow : isLow low) (hi : i < 2) :
    ¬ Unpaired (high :: low :: units) i := by
  have hnot := isLow_of_isHigh hhigh
  have hnot' : ¬ isHigh low := fun h => isLow_of_isHigh h hlow
  obtain rfl | rfl : i = 0 ∨ i = 1 := by omega
  · simp [Unpaired, hlow, hnot]
  · simp [Unpaired, hhigh, hnot']

theorem unpaired_encodeChar_append (c : Char) (later : List UInt16) (i : Nat) :
    Unpaired (encodeChar c ++ later) i ↔
      ∃ j, i = (encodeChar c).length + j ∧ Unpaired later j := by
  rcases exists_units c with ⟨unit, hhigh, hlow, hc⟩ | ⟨high, low, hhigh, hlow, hc⟩
  · rw [hc, encodeChar_scalar hhigh hlow, List.singleton_append, List.length_singleton]
    cases i with
    | zero =>
      refine iff_of_false (not_unpaired_scalar hhigh hlow) ?_
      rintro ⟨j, hj, -⟩
      omega
    | succ i =>
      rw [unpaired_cons (.inl hhigh), Nat.add_comm i]
      simp
  · rw [hc, encodeChar_pair hhigh hlow]
    show Unpaired (high :: low :: later) i ↔ ∃ j, i = 2 + j ∧ Unpaired later j
    by_cases hi : i < 2
    · refine iff_of_false (not_unpaired_pair hhigh hlow hi) ?_
      rintro ⟨j, hj, -⟩
      omega
    · have hnot : ¬ isHigh low := fun h => isLow_of_isHigh h hlow
      obtain ⟨i, rfl⟩ := Nat.exists_eq_add_of_le' (Nat.le_of_not_lt hi)
      rw [unpaired_cons (.inr i.succ_pos), unpaired_cons (.inl hnot), Nat.add_comm i]
      simp

/-- A surrogate without its partner is none of a text that stands before it. -/
theorem unpaired_encode_append (text : List Char) (later : List UInt16) (i : Nat) :
    Unpaired (encode text ++ later) i ↔
      ∃ j, i = (encode text).length + j ∧ Unpaired later j := by
  induction text generalizing i with
  | nil => simp [encode]
  | cons c text ih =>
    rw [encode_cons, List.append_assoc, unpaired_encodeChar_append, List.length_append]
    constructor
    · rintro ⟨j, rfl, hj⟩
      obtain ⟨k, rfl, hk⟩ := (ih j).1 hj
      exact ⟨k, (Nat.add_assoc _ _ _).symm, hk⟩
    · rintro ⟨k, rfl, hk⟩
      exact ⟨(encode text).length + k, Nat.add_assoc _ _ _, (ih _).2 ⟨k, rfl, hk⟩⟩

theorem wellFormed_encode (text : List Char) : WellFormed (encode text) := by
  intro i h
  rw [← List.append_nil (encode text), unpaired_encode_append] at h
  obtain ⟨j, -, hj⟩ := h
  simp [Unpaired] at hj

/-- The first surrogate without its partner is the one right after a text. -/
theorem isLeast_unpaired (text : List Char) (h : Unpaired (code :: later) 0) :
    IsLeast {i | Unpaired (encode text ++ code :: later) i} (encode text).length := by
  constructor
  · exact (unpaired_encode_append _ _ _).2 ⟨0, rfl, h⟩
  · intro i hi
    obtain ⟨j, rfl, -⟩ := (unpaired_encode_append _ _ _).1 hi
    exact Nat.le_add_right _ j

/-- A unit that no other stands before is without its partner if it is a low surrogate, or a high
one and no low one comes next. -/
theorem unpaired_zero :
    Unpaired (unit :: later) 0 ↔ (isHigh unit ∧ ¬ later.head?.any isLow) ∨ isLow unit := by
  simp [Unpaired, List.head?_eq_getElem?]

/-- More comes in front that is a character. -/
theorem cut_cons {c : Char} {front : List UInt16} (hfront : encodeChar c = front)
    (h : ∃ text tail, units = encode text ++ tail ∧
      (tail = [] ∨ ∃ code later, tail = code :: later ∧ Unpaired (code :: later) 0)) :
    ∃ text tail, front ++ units = encode text ++ tail ∧
      (tail = [] ∨ ∃ code later, tail = code :: later ∧ Unpaired (code :: later) 0) := by
  obtain ⟨text, tail, rfl, htail⟩ := h
  refine ⟨c :: text, tail, ?_, htail⟩
  rw [encode_cons, hfront, List.append_assoc]

/-- **Units are those of a text, up to their end or to a surrogate without its partner.** -/
theorem exists_cut (units : List UInt16) : ∃ text tail, units = encode text ++ tail ∧
    (tail = [] ∨ ∃ code later, tail = code :: later ∧ Unpaired (code :: later) 0) := by
  induction units using List.twoStepInduction with
  | nil => exact ⟨[], [], rfl, .inl rfl⟩
  | singleton unit =>
    by_cases hzero : Unpaired [unit] 0
    · exact ⟨[], [unit], rfl, .inr ⟨unit, [], rfl, hzero⟩⟩
    · rw [unpaired_zero, not_or] at hzero
      have hhigh : ¬ isHigh unit := by simpa using hzero.1
      exact cut_cons (encodeChar_scalar hhigh hzero.2) ⟨[], [], rfl, .inl rfl⟩
  | cons_cons unit next later ih ih' =>
    -- The first unit alone is a character, or the first two are; else the cut is here.
    by_cases hzero : Unpaired (unit :: next :: later) 0
    · exact ⟨[], _, rfl, .inr ⟨unit, _, rfl, hzero⟩⟩
    · rw [unpaired_zero, not_or] at hzero
      by_cases hhigh : isHigh unit
      · have hlow : isLow next := by simpa [hhigh] using hzero.1
        exact cut_cons (encodeChar_pair hhigh hlow) ih
      · exact cut_cons (encodeChar_scalar hhigh hzero.2) (ih' next)

/-! ## Feeding -/

namespace Pairing

variable {p : Pairing}

theorem feed_high (hhigh : isHigh unit) : ({} : Pairing).feed unit = .ok (none, ⟨some unit⟩) := by
  simp [feed, hhigh]

theorem feed_scalar (hhigh : ¬ isHigh unit) (hlow : ¬ isLow unit) :
    ({} : Pairing).feed unit = .ok (some (Char.ofNat unit.toNat), {}) := by
  simp [feed, hhigh, hlow]

theorem feed_low_of_held (hlow : isLow low) :
    (⟨some high⟩ : Pairing).feed low = .ok (some (Char.ofNat (combine high low)), {}) := by
  simp [feed, hlow]

/-- The units of a character are taken for it, and nothing is held after them. -/
theorem feedAll_encodeChar_append (c : Char) (later : List UInt16) :
    feedAll {} (encodeChar c ++ later) =
      (feedAll {} later).map fun (text, p) => (c :: text, p) := by
  rcases exists_units c with ⟨unit, hhigh, hlow, hc⟩ | ⟨high, low, hhigh, hlow, hc⟩
  · rw [hc, encodeChar_scalar hhigh hlow, List.singleton_append, feedAll, feed_scalar hhigh hlow]
    rfl
  · rw [hc, encodeChar_pair hhigh hlow, List.cons_append, List.singleton_append, feedAll,
      feed_high hhigh]
    dsimp only
    rw [feedAll, feed_low_of_held hlow]
    dsimp only
    cases feedAll {} later <;> rfl

theorem decode_encodeChar_append (c : Char) (later : List UInt16) :
    decode (encodeChar c ++ later) = (decode later).map (c :: ·) := by
  unfold decode
  rw [feedAll_encodeChar_append]
  cases feedAll {} later with
  | error code => rfl
  | ok r =>
    obtain ⟨text, p⟩ := r
    show p.finish.map _ = (p.finish.map _).map _
    cases p.finish <;> rfl

/-- **The units of a text are decoded to it**, whatever comes after them. -/
theorem decode_encode_append (text : List Char) (later : List UInt16) :
    decode (encode text ++ later) = (decode later).map (text ++ ·) := by
  induction text with
  | nil =>
    show decode later = _
    cases decode later <;> rfl
  | cons c text ih =>
    rw [encode_cons, List.append_assoc, decode_encodeChar_append, ih]
    cases decode later <;> rfl

theorem decode_encode (text : List Char) : decode (encode text) = .ok text := by
  have h := decode_encode_append text []
  rw [List.append_nil] at h
  rw [h]
  show Except.ok (text ++ []) = _
  rw [List.append_nil]

/-- **A surrogate without its partner is reported**, where no unit is before it. -/
theorem decode_of_unpaired (h : Unpaired (code :: later) 0) :
    decode (code :: later) = .error code := by
  unfold decode
  rw [feedAll]
  rcases unpaired_zero.1 h with ⟨hhigh, hnext⟩ | hlow
  · rw [feed_high hhigh]
    cases later with
    | nil => rfl
    | cons next later =>
      have hlow : ¬ isLow next := by simpa using hnext
      have hfeed : (⟨some code⟩ : Pairing).feed next = .error code := by simp [feed, hlow]
      dsimp only
      rw [feedAll, hfeed]
      rfl
  · have hhigh : ¬ isHigh code := fun hhigh => isLow_of_isHigh hhigh hlow
    have hfeed : ({} : Pairing).feed code = .error code := by simp [feed, hhigh, hlow]
    rw [hfeed]

/-- All units are decoded, or the first surrogate without its partner is reported. -/
theorem decode_cases (units : List UInt16) :
    (∃ text, units = encode text ∧ decode units = .ok text) ∨
      ∃ i code, IsLeast {i | Unpaired units i} i ∧ units[i]? = some code ∧
        decode units = .error code := by
  obtain ⟨text, tail, rfl, rfl | ⟨code, later, rfl, hcode⟩⟩ := exists_cut units
  · rw [List.append_nil]
    exact .inl ⟨text, rfl, decode_encode text⟩
  · refine .inr ⟨_, code, isLeast_unpaired text hcode, ?_, ?_⟩
    · rw [List.getElem?_append_right (Nat.le_refl _), Nat.sub_self]
      rfl
    · rw [decode_encode_append, decode_of_unpaired hcode]
      rfl

/-- **Units are decoded to a text exactly when they are the units of it.** -/
theorem decode_ok_iff : decode units = .ok text ↔ units = encode text := by
  constructor
  · intro htext
    rcases decode_cases units with ⟨_, rfl, hok⟩ | ⟨_, _, -, -, herror⟩
    · rw [htext] at hok
      cases hok
      rfl
    · rw [herror] at htext
      cases htext
  · rintro rfl
    exact decode_encode text

/-- **The units of some text are those in which no surrogate lacks its partner.** -/
theorem exists_decode_iff : (∃ text, decode units = .ok text) ↔ WellFormed units := by
  constructor
  · rintro ⟨text, htext⟩
    rw [decode_ok_iff.1 htext]
    exact wellFormed_encode text
  · intro hwell
    rcases decode_cases units with ⟨text, -, htext⟩ | ⟨i, _, hi, -, -⟩
    · exact ⟨text, htext⟩
    · exact absurd hi.1 (hwell i)

/-- **An error is the first surrogate without its partner.** -/
theorem decode_error_iff : decode units = .error code ↔
    ∃ i, IsLeast {i | Unpaired units i} i ∧ units[i]? = some code := by
  rcases decode_cases units with ⟨text, rfl, hok⟩ | ⟨i, _, hi, hat, herror⟩
  · rw [hok]
    refine iff_of_false (by simp) ?_
    rintro ⟨i, hi, -⟩
    exact wellFormed_encode text i hi.1
  · rw [herror, Except.error.injEq]
    constructor
    · rintro rfl
      exact ⟨i, hi, hat⟩
    · rintro ⟨j, hj, hat'⟩
      rw [hj.unique hi, hat] at hat'
      exact Option.some.inj hat'

end Pairing

/-! ## Nothing overflows -/

section

variable {a b : UInt32}

theorem exists_difference (h : b.toNat ≤ a.toNat) :
    ∃ d, difference? a b = some d ∧ d.toNat = a.toNat - b.toNat := by
  have hle : b ≤ a := UInt32.le_iff_toNat_le.2 h
  exact ⟨a - b, if_pos hle, UInt32.toNat_sub_of_le a b hle⟩

theorem exists_sum (h : a.toNat + b.toNat < UInt32.size) :
    ∃ d, sum? a b = some d ∧ d.toNat = a.toNat + b.toNat := by
  refine ⟨a + b, if_pos h, ?_⟩
  rw [UInt32.toNat_add]
  exact Nat.mod_eq_of_lt h

end

/-- **The code of a pair is in range at every step, and that of a character.** -/
theorem combine?_eq (hhigh : isHigh high) (hlow : isLow low) :
    ∃ c : Char, combine? high low = some c.val ∧ c.toNat = combine high low := by
  have hchar := toNat_ofNat_combine hhigh hlow
  rw [isHigh_iff] at hhigh
  rw [isLow_iff] at hlow
  have hcombine : combine high low =
      0x10000 + (high.toNat - 0xD800) * 0x400 + (low.toNat - 0xDC00) := rfl
  have hsize : UInt32.size = 0x100000000 := rfl
  obtain ⟨upper, hupper, hupper' : upper.toNat = high.toNat - 0xD800⟩ :=
    exists_difference (a := high.toUInt32) (b := 0xD800) hhigh.1
  obtain ⟨lower, hlower, hlower' : lower.toNat = low.toNat - 0xDC00⟩ :=
    exists_difference (a := low.toUInt32) (b := 0xDC00) hlow.1
  have hshift : (upper <<< 10).toNat = upper.toNat * 0x400 := by
    rw [UInt32.toNat_shiftLeft, Nat.shiftLeft_eq]
    exact Nat.mod_eq_of_lt (show upper.toNat * 0x400 < 0x100000000 by omega)
  -- No bit is lost in the shift, so that both sums stay below the size of a word.
  obtain ⟨shifted, hshifted, hshifted' : shifted.toNat = 0x10000 + (upper <<< 10).toNat⟩ :=
    exists_sum (a := 0x10000) (b := upper <<< 10)
      (show 0x10000 + (upper <<< 10).toNat < UInt32.size by omega)
  obtain ⟨code, hcode, hcode'⟩ := exists_sum (a := shifted) (b := lower) (by omega)
  have hval : code = (Char.ofNat (combine high low)).val := by
    rw [← UInt32.toNat_inj]
    exact (show code.toNat = combine high low by omega).trans hchar.symm
  refine ⟨Char.ofNat (combine high low), ?_, hchar⟩
  unfold combine?
  rw [hupper, hlower]
  show (sum? 0x10000 (upper <<< 10)).bind (fun shifted => sum? shifted lower) = _
  rw [hshifted, Option.bind_some, hcode, hval]

theorem charOf?_val (c : Char) : charOf? c.val = some c := dif_pos c.valid

theorem charOf?_scalar (hhigh : ¬ isHigh unit) (hlow : ¬ isLow unit) :
    charOf? unit.toUInt32 = some (Char.ofNat unit.toNat) := by
  rw [isHigh_iff] at hhigh
  rw [isLow_iff] at hlow
  have hlt := unit.toNat_lt
  have hcode : (Char.ofNat unit.toNat).val = unit.toUInt32 := by
    rw [← UInt32.toNat_inj, Utf8.val_ofNat (by omega), UInt16.toNat_toUInt32]
  rw [← hcode, charOf?_val]

namespace Pairing

variable {p q : Pairing}

/-- What units can leave behind, those taken after an error included. -/
inductive Reachable : Pairing → Prop
  | initial : Reachable {}
  | feed {p q : Pairing} {unit : UInt16} {result : Except UInt32 (Option Char)} :
    Reachable p → p.feed? unit = some (result, q) → Reachable q

/-- What is held is a high surrogate. -/
def Sound (p : Pairing) : Prop := ∀ high, p.held = some high → isHigh high

theorem sound_initial : ({} : Pairing).Sound := by
  intro high h
  cases h

/-- One unit is held only if it is a high surrogate. -/
theorem Sound.of_feed {c : Option Char} (h : p.feed unit = .ok (c, q)) : q.Sound := by
  unfold Pairing.feed at h
  intro high hq
  split at h
  · split at h
    · next hhigh =>
      cases h
      cases hq
      exact hhigh
    · split at h
      · cases h
      · cases h
        cases hq
  · split at h
    · cases h
      cases hq
    · cases h

/-- **In words every unit is taken as it is without them**: nothing overflows, and no character is
missing. -/
theorem feed?_eq (hp : p.Sound) (unit : UInt16) : p.feed? unit = some (inWords (p.feed unit)) := by
  unfold feed? Pairing.feed
  cases hheld : p.held with
  | none =>
    by_cases hhigh : isHigh unit
    · simp only [hhigh, if_true, inWords]
    · by_cases hlow : isLow unit
      · simp only [hhigh, hlow, if_true, if_false, Bool.false_eq_true, inWords]
      · simp only [hhigh, hlow, if_false, Bool.false_eq_true, inWords, charOf?_scalar hhigh hlow]
  | some high =>
    by_cases hlow : isLow unit
    · obtain ⟨c, hcode, hc⟩ := combine?_eq (hp high hheld) hlow
      have hchar : Char.ofNat (combine high unit) = c := by rw [← hc, Char.ofNat_toNat]
      simp only [hlow, if_true, hcode, hchar, Option.bind_eq_bind, Option.bind_some,
        Option.pure_def, charOf?_val, inWords]
    · simp only [hlow, if_false, Bool.false_eq_true, inWords]

theorem Sound.feed? {result : Except UInt32 (Option Char)} (hp : p.Sound)
    (h : p.feed? unit = some (result, q)) : q.Sound := by
  rw [feed?_eq hp, Option.some.injEq] at h
  cases hfeed : p.feed unit with
  | error code =>
    rw [hfeed] at h
    cases h
    exact sound_initial
  | ok r =>
    obtain ⟨c, q'⟩ := r
    rw [hfeed] at h
    cases h
    exact .of_feed hfeed

/-- Whatever was taken before, only a high surrogate is held. -/
theorem Reachable.sound (hp : p.Reachable) : p.Sound := by
  induction hp with
  | initial => exact sound_initial
  | feed _ h ih => exact ih.feed? h

/-- No character is given exactly where a high surrogate comes to be held. -/
theorem feed_eq_none_iff :
    p.feed unit = .ok (none, q) ↔ p.held = none ∧ isHigh unit ∧ q.held = some unit := by
  obtain ⟨held⟩ := p
  obtain ⟨next⟩ := q
  cases held with
  | none =>
    by_cases hhigh : isHigh unit
    · simp [feed, hhigh, eq_comm]
    · by_cases hlow : isLow unit <;> simp [feed, hhigh, hlow]
  | some high => by_cases hlow : isLow unit <;> simp [feed, hlow]

theorem inWords_eq_none_iff {r : Except UInt16 (Option Char × Pairing)} :
    inWords r = (.ok none, q) ↔ r = .ok (none, q) := by
  rcases r with code | ⟨c, q'⟩ <;> simp [inWords]

/-- In words too, that no character is given says that a high surrogate is held. -/
theorem feed?_eq_none_iff (hp : p.Sound) : p.feed? unit = some (.ok none, q) ↔
    p.held = none ∧ isHigh unit ∧ q.held = some unit := by
  rw [feed?_eq hp, Option.some.injEq, inWords_eq_none_iff, feed_eq_none_iff]

/-- **Units give a text exactly when they are well formed**, which is then the one that they are the
units of; else the first surrogate without its partner is reported.  In words no step goes out of
range, a pair has the code of a character, and no character comes of a unit exactly where it is a
high surrogate to hold. -/
theorem decode_units :
    (∀ units, (∃ text, decode units = .ok text) ↔ WellFormed units) ∧
    (∀ units text, decode units = .ok text ↔ units = encode text) ∧
    (∀ units code, decode units = .error code ↔
      ∃ i, IsLeast {i | Unpaired units i} i ∧ units[i]? = some code) ∧
    (∀ high low, isHigh high → isLow low →
      ∃ c : Char, combine? high low = some c.val ∧ c.toNat = combine high low) ∧
    ∀ p : Pairing, p.Reachable → ∀ unit, p.feed? unit = some (inWords (p.feed unit)) ∧
      ∀ q, p.feed? unit = some (.ok none, q) ↔
        p.held = none ∧ isHigh unit ∧ q.held = some unit := by
  refine ⟨fun _ => exists_decode_iff, fun _ _ => decode_ok_iff, fun _ _ => decode_error_iff,
    fun _ _ => combine?_eq, ?_⟩
  intro p hp unit
  exact ⟨feed?_eq hp.sound unit, fun _ => feed?_eq_none_iff hp.sound⟩

/-- A letter and a pair are a text; a high surrogate is held, and reported if a letter comes
next. -/
theorem decode_units_pair :
    WellFormed [0x41, 0xD83D, 0xDE00] ∧
    encode [Char.ofNat 0x41, Char.ofNat 0x1F600] = [0x41, 0xD83D, 0xDE00] ∧
    IsLeast {i | Unpaired [0x41, 0xD800, 0x42] i} 1 ∧
    (∃ c : Char, combine? 0xD83D 0xDE00 = some c.val) ∧
    ({} : Pairing).feed? 0xD800 = some (.ok none, ⟨some 0xD800⟩) := by
  obtain ⟨hwell, hencode, herror, hcombine, hfeed⟩ := decode_units
  refine ⟨(hwell _).1 ⟨[Char.ofNat 0x41, Char.ofNat 0x1F600], rfl⟩, ((hencode _ _).1 rfl).symm,
    ?_, ?_, ((hfeed {} .initial 0xD800).2 _).2 ⟨rfl, by decide, rfl⟩⟩
  · obtain ⟨i, hi, hat⟩ := (herror [0x41, 0xD800, 0x42] 0xD800).1 rfl
    have hone : i = 1 := by
      rcases i with _ | _ | _ | i
      · cases hat
      · rfl
      · cases hat
      · cases hat
    rwa [hone] at hi
  · obtain ⟨c, hc, -⟩ := hcombine 0xD83D 0xDE00 (by decide) (by decide)
    exact ⟨c, hc⟩

end Pairing

end FlatJson.Utf16
