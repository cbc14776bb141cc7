import FlatJson.Proofs.Grammar

/-!
# UTF-8 there and back

* `Partial.Begun` — what a first byte and continuation bytes lead to.
* `segments_bytes` — the segments of a byte string put together again are the byte string.
* `segments_encode` — the segments of an encoded text are its characters.
* `chars?_eq_some_iff` — reading a text and encoding it are inverse to each other.
-/

namespace FlatJson.Utf8

/-! ## Encodings by length -/

theorem val_ofNat {n : Nat} (h : n < 0xD800 ∨ (0xDFFF < n ∧ n < 0x110000)) :
    (Char.ofNat n).val.toNat = n := by
  have hv : n.isValidChar := h
  unfold Char.ofNat
  rw [dif_pos hv]
  show (UInt32.ofNatLT n _).toNat = n
  exact UInt32.toNat_ofNatLT

theorem encode_one {n : Nat} (h : n < 0x80) :
    String.utf8EncodeChar (Char.ofNat n) = [UInt8.ofNat n] := by
  unfold String.utf8EncodeChar
  rw [val_ofNat (by omega), if_pos (by omega)]

theorem encode_two {n : Nat} (hl : 0x80 ≤ n) (h : n < 0x800) :
    String.utf8EncodeChar (Char.ofNat n) =
      [UInt8.ofNat (n / 64 + 0xC0), UInt8.ofNat (n % 64 + 0x80)] := by
  unfold String.utf8EncodeChar
  rw [val_ofNat (by omega), if_neg (by omega), if_pos (by omega), Nat.mod_eq_of_lt (by omega)]

theorem encode_three {n : Nat} (hl : 0x800 ≤ n) (h : n < 0x10000)
    (hs : n < 0xD800 ∨ 0xDFFF < n) :
    String.utf8EncodeChar (Char.ofNat n) =
      [UInt8.ofNat (n / 4096 + 0xE0), UInt8.ofNat (n / 64 % 64 + 0x80),
        UInt8.ofNat (n % 64 + 0x80)] := by
  unfold String.utf8EncodeChar
  rw [val_ofNat (by omega), if_neg (by omega), if_neg (by omega), if_pos (by omega),
    Nat.mod_eq_of_lt (show n / 4096 < 16 by omega)]

theorem encode_four {n : Nat} (hl : 0x10000 ≤ n) (h : n < 0x110000) :
    String.utf8EncodeChar (Char.ofNat n) =
      [UInt8.ofNat (n / 262144 + 0xF0), UInt8.ofNat (n / 4096 % 64 + 0x80),
        UInt8.ofNat (n / 64 % 64 + 0x80), UInt8.ofNat (n % 64 + 0x80)] := by
  unfold String.utf8EncodeChar
  rw [val_ofNat (by omega), if_neg (by omega), if_neg (by omega), if_neg (by omega),
    Nat.mod_eq_of_lt (show n / 262144 < 8 by omega)]

/-! ## First bytes and continuations -/

/-- After the first of two bytes. -/
def firstOfTwo (c : Nat) : Partial := ⟨[UInt8.ofNat (c + 0xC0)], c, 1, 0x80, 0xBF⟩

def firstOfThree (c : Nat) : Partial :=
  ⟨[UInt8.ofNat (c + 0xE0)], c, 2, if c = 0 then 0xA0 else 0x80, if c = 13 then 0x9F else 0xBF⟩

def firstOfFour (c : Nat) : Partial :=
  ⟨[UInt8.ofNat (c + 0xF0)], c, 3, if c = 0 then 0x90 else 0x80, if c = 4 then 0x8F else 0xBF⟩

def Partial.more (p : Partial) (d : Nat) : Partial :=
  ⟨UInt8.ofNat (d + 0x80) :: p.read, p.code * 64 + d, p.missing - 1, 0x80, 0xBF⟩

theorem lead_one : ∀ n < 0x80, lead (UInt8.ofNat n) = .inl (.scalar (Char.ofNat n)) := by
  decide +kernel

theorem lead_two : ∀ c < 32, 2 ≤ c → lead (UInt8.ofNat (c + 0xC0)) = .inr (firstOfTwo c) := by
  decide +kernel

theorem lead_three : ∀ c < 16, lead (UInt8.ofNat (c + 0xE0)) = .inr (firstOfThree c) := by
  decide +kernel

theorem lead_four : ∀ c < 5, lead (UInt8.ofNat (c + 0xF0)) = .inr (firstOfFour c) := by
  decide +kernel

/-- What a first byte leads to. -/
theorem lead_cases : ∀ b : UInt8, (b.toNat < 0x80 ∧ b = UInt8.ofNat b.toNat) ∨
    lead b = .inl (.invalid [b]) ∨ (∃ c < 32, 2 ≤ c ∧ b = UInt8.ofNat (c + 0xC0)) ∨
    (∃ c < 16, b = UInt8.ofNat (c + 0xE0)) ∨ ∃ c < 5, b = UInt8.ofNat (c + 0xF0) := by
  decide +kernel

theorem toNat_continuation {d : Nat} (h : d < 64) : (UInt8.ofNat (d + 0x80)).toNat = d + 0x80 := by
  rw [UInt8.toNat_ofNat']
  exact Nat.mod_eq_of_lt (by omega)

theorem add_last {p : Partial} {d : Nat} (hm : p.missing = 1) (h : d < 64) :
    p.add (UInt8.ofNat (d + 0x80)) = .inl (.scalar (Char.ofNat (p.code * 64 + d))) := by
  unfold Partial.add
  rw [toNat_continuation h, if_pos (by omega), Nat.add_sub_cancel]

theorem add_more {p : Partial} {d : Nat} (hm : 1 < p.missing) (h : d < 64) :
    p.add (UInt8.ofNat (d + 0x80)) = .inr (p.more d) := by
  unfold Partial.add
  rw [toNat_continuation h, if_neg (by omega), Nat.add_sub_cancel]
  rfl

/-- A first byte and continuations that can still become a character. -/
inductive Partial.Begun : Partial → Prop
  | two {c : Nat} : 2 ≤ c → c < 32 → Partial.Begun (firstOfTwo c)
  | three {c : Nat} : c < 16 → Partial.Begun (firstOfThree c)
  | threeMore {c d : Nat} :
      c < 16 → d < 64 → (c = 0 → 32 ≤ d) → (c = 13 → d < 32) →
      Partial.Begun ((firstOfThree c).more d)
  | four {c : Nat} : c < 5 → Partial.Begun (firstOfFour c)
  | fourMore {c d : Nat} :
      c < 5 → d < 64 → (c = 0 → 16 ≤ d) → (c = 4 → d < 16) →
      Partial.Begun ((firstOfFour c).more d)
  | fourLast {c d e : Nat} :
      c < 5 → d < 64 → (c = 0 → 16 ≤ d) → (c = 4 → d < 16) → e < 64 →
      Partial.Begun (((firstOfFour c).more d).more e)

theorem exists_continuation {b : UInt8} (hl : 0x80 ≤ b.toNat) (hu : b.toNat ≤ 0xBF) :
    ∃ d < 64, b = UInt8.ofNat (d + 0x80) := by
  refine ⟨b.toNat - 0x80, by omega, ?_⟩
  rw [Nat.sub_add_cancel hl, UInt8.ofNat_toNat]

/-- Bounds that the second byte is held to. -/
theorem Partial.Begun.bounds {p : Partial} (h : p.Begun) :
    0x80 ≤ p.lower.toNat ∧ p.upper.toNat ≤ 0xBF := by
  cases h with
  | @three c =>
    constructor
    · show 0x80 ≤ (if c = 0 then (0xA0 : UInt8) else 0x80).toNat
      split <;> decide
    · show (if c = 13 then (0x9F : UInt8) else 0xBF).toNat ≤ 0xBF
      split <;> decide
  | @four c =>
    constructor
    · show 0x80 ≤ (if c = 0 then (0x90 : UInt8) else 0x80).toNat
      split <;> decide
    · show (if c = 4 then (0x8F : UInt8) else 0xBF).toNat ≤ 0xBF
      split <;> decide
  | _ =>
    have hlower : 0x80 ≤ (0x80 : UInt8).toNat := by decide
    have hupper : (0xBF : UInt8).toNat ≤ 0xBF := by decide
    exact ⟨hlower, hupper⟩

/-- A byte within the bounds completes a character or leads on. -/
theorem Partial.Begun.add {p : Partial} (h : p.Begun) {b : UInt8} (hl : p.lower ≤ b)
    (hu : b ≤ p.upper) :
    (∃ c, p.add b = .inl (.scalar c) ∧ String.utf8EncodeChar c = p.read.reverse ++ [b]) ∨
      ∃ q, p.add b = .inr q ∧ q.Begun ∧ q.read = b :: p.read := by
  rw [UInt8.le_iff_toNat_le] at hl hu
  obtain ⟨hlo, hup⟩ := h.bounds
  obtain ⟨d, hd, rfl⟩ := exists_continuation (Nat.le_trans hlo hl) (Nat.le_trans hu hup)
  rw [toNat_continuation hd] at hl hu
  cases h with
  | @two c h2 hc =>
    refine .inl ⟨_, add_last rfl hd, ?_⟩
    show String.utf8EncodeChar (Char.ofNat (c * 64 + d)) = _
    rw [encode_two (by omega) (by omega), show (c * 64 + d) / 64 = c by omega,
      show (c * 64 + d) % 64 = d by omega]
    rfl
  | @three c hc =>
    refine .inr ⟨_, add_more (by decide : 1 < 2) hd, .threeMore hc hd ?_ ?_, rfl⟩
    · intro h0
      have hlow : (0xA0 : UInt8).toNat ≤ d + 0x80 := by
        rw [firstOfThree, if_pos h0] at hl
        exact hl
      have h160 : (0xA0 : UInt8).toNat = 160 := by decide
      omega
    · intro h13
      have hupp : d + 0x80 ≤ (0x9F : UInt8).toNat := by
        rw [firstOfThree, if_pos h13] at hu
        exact hu
      have h159 : (0x9F : UInt8).toNat = 159 := by decide
      omega
  | @threeMore c e hc he h0 h13 =>
    refine .inl ⟨_, add_last rfl hd, ?_⟩
    show String.utf8EncodeChar (Char.ofNat ((c * 64 + e) * 64 + d)) = _
    rw [encode_three (by omega) (by omega) (by omega),
      show ((c * 64 + e) * 64 + d) / 4096 = c by omega,
      show ((c * 64 + e) * 64 + d) / 64 % 64 = e by omega,
      show ((c * 64 + e) * 64 + d) % 64 = d by omega]
    rfl
  | @four c hc =>
    refine .inr ⟨_, add_more (by decide : 1 < 3) hd, .fourMore hc hd ?_ ?_, rfl⟩
    · intro h0
      have hlow : (0x90 : UInt8).toNat ≤ d + 0x80 := by
        rw [firstOfFour, if_pos h0] at hl
        exact hl
      have h144 : (0x90 : UInt8).toNat = 144 := by decide
      omega
    · intro h4
      have hupp : d + 0x80 ≤ (0x8F : UInt8).toNat := by
        rw [firstOfFour, if_pos h4] at hu
        exact hu
      have h143 : (0x8F : UInt8).toNat = 143 := by decide
      omega
  | fourMore hc he h0 h4 =>
    exact .inr ⟨_, add_more (by decide : 1 < 2) hd, .fourLast hc he h0 h4 hd, rfl⟩
  | @fourLast c e f hc he h0 h4 hf =>
    refine .inl ⟨_, add_last rfl hd, ?_⟩
    show String.utf8EncodeChar (Char.ofNat (((c * 64 + e) * 64 + f) * 64 + d)) = _
    rw [encode_four (by omega) (by omega),
      show (((c * 64 + e) * 64 + f) * 64 + d) / 262144 = c by omega,
      show (((c * 64 + e) * 64 + f) * 64 + d) / 4096 % 64 = e by omega,
      show (((c * 64 + e) * 64 + f) * 64 + d) / 64 % 64 = f by omega,
      show (((c * 64 + e) * 64 + f) * 64 + d) % 64 = d by omega]
    rfl

/-- A first byte is a segment of its own or begins a character. -/
theorem lead_spec (b : UInt8) :
    (∃ s, lead b = .inl s ∧ s.bytes = [b]) ∨ ∃ p, lead b = .inr p ∧ p.Begun ∧ p.read = [b] := by
  rcases lead_cases b with ⟨hb, he⟩ | hb | ⟨c, hc, h2, rfl⟩ | ⟨c, hc, rfl⟩ | ⟨c, hc, rfl⟩
  · refine .inl ⟨.scalar (Char.ofNat b.toNat), ?_, ?_⟩
    · have h := lead_one b.toNat hb
      rwa [← he] at h
    · show String.utf8EncodeChar (Char.ofNat b.toNat) = [b]
      rw [encode_one hb, UInt8.ofNat_toNat]
  · exact .inl ⟨_, hb, rfl⟩
  · exact .inr ⟨_, lead_two c hc h2, .two h2 hc, rfl⟩
  · exact .inr ⟨_, lead_three c hc, .three hc, rfl⟩
  · exact .inr ⟨_, lead_four c hc, .four hc, rfl⟩

/-! ## From bytes to segments -/

/-- The bytes that a reader has taken. -/
def Reader.bytes (r : Reader) : Bytes :=
  r.found.reverse.flatMap Segment.bytes ++
    match r.unfinished with
    | none => []
    | some p => p.read.reverse

/-- What is unfinished can still become a character. -/
def Reader.Sound (r : Reader) : Prop := ∀ p, r.unfinished = some p → p.Begun

theorem Reader.take_lead (found : List Segment) (b : UInt8) :
    (Reader.take found (lead b)).Sound ∧
      (Reader.take found (lead b)).bytes = found.reverse.flatMap Segment.bytes ++ [b] := by
  rcases lead_spec b with ⟨s, hs, hb⟩ | ⟨p, hp, hbegun, hb⟩
  · rw [hs]
    exact ⟨nofun, by simp [Reader.take, Reader.bytes, hb]⟩
  · rw [hp]
    refine ⟨?_, by simp [Reader.take, Reader.bytes, hb]⟩
    intro q hq
    cases hq
    exact hbegun

theorem Reader.Sound.feed {r : Reader} (h : r.Sound) (b : UInt8) :
    (r.feed b).Sound ∧ (r.feed b).bytes = r.bytes ++ [b] := by
  obtain ⟨found, unfinished⟩ := r
  unfold Reader.feed
  cases unfinished with
  | none => simpa [Reader.bytes] using Reader.take_lead found b
  | some p =>
    have hp : p.Begun := h p rfl
    split
    · rename_i q hq
      cases hq
    · rename_i q hq
      cases hq
      split
      · rename_i hb
        rcases hp.add hb.1 hb.2 with ⟨c, hc, he⟩ | ⟨q, hq, hbegun, he⟩
        · rw [hc]
          refine ⟨?_, by simp [Reader.take, Reader.bytes, Segment.bytes, he]⟩
          intro q hq
          cases hq
        · rw [hq]
          refine ⟨?_, by simp [Reader.take, Reader.bytes, he]⟩
          intro q' hq'
          cases hq'
          exact hbegun
      · simpa [Reader.bytes, Segment.bytes] using
          Reader.take_lead (.invalid p.read.reverse :: found) b

theorem Reader.Sound.feedAll {r : Reader} (h : r.Sound) (s : Bytes) :
    (s.foldl Reader.feed r).Sound ∧ (s.foldl Reader.feed r).bytes = r.bytes ++ s := by
  induction s generalizing r with
  | nil => exact ⟨h, (List.append_nil _).symm⟩
  | cons b s ih =>
    obtain ⟨hs, hb⟩ := h.feed b
    obtain ⟨hs', hb'⟩ := ih hs
    exact ⟨hs', by rw [List.foldl_cons, hb', hb, List.append_assoc]; rfl⟩

theorem Reader.finish_bytes (r : Reader) : r.finish.flatMap Segment.bytes = r.bytes := by
  obtain ⟨found, unfinished⟩ := r
  cases unfinished <;> simp [Reader.finish, Reader.bytes, Segment.bytes]

/-- **No byte is lost or made up in the cut of a byte string into segments.** -/
theorem segments_bytes (s : Bytes) : (segments s).flatMap Segment.bytes = s := by
  have hsound : Reader.Sound {} := nofun
  unfold segments
  rw [Reader.finish_bytes, (hsound.feedAll s).2]
  rfl

/-! ## From texts to segments -/

theorem Reader.feed_continuation {found : List Segment} {p : Partial} {d : Nat} (hd : d < 64)
    (hl : p.lower.toNat ≤ d + 0x80) (hu : d + 0x80 ≤ p.upper.toNat) :
    (Reader.mk found (some p)).feed (UInt8.ofNat (d + 0x80)) =
      Reader.take found (p.add (UInt8.ofNat (d + 0x80))) := by
  have hb : p.lower ≤ UInt8.ofNat (d + 0x80) ∧ UInt8.ofNat (d + 0x80) ≤ p.upper := by
    rw [UInt8.le_iff_toNat_le, UInt8.le_iff_toNat_le, toNat_continuation hd]
    exact ⟨hl, hu⟩
  exact if_pos hb

theorem Reader.feed_more {found : List Segment} {p : Partial} {d : Nat} (hd : d < 64)
    (hl : p.lower.toNat ≤ d + 0x80) (hu : d + 0x80 ≤ p.upper.toNat) (hm : 1 < p.missing) :
    (Reader.mk found (some p)).feed (UInt8.ofNat (d + 0x80)) = ⟨found, some (p.more d)⟩ := by
  rw [Reader.feed_continuation hd hl hu, add_more hm hd]
  rfl

theorem Reader.feed_last {found : List Segment} {p : Partial} {d : Nat} (hd : d < 64)
    (hl : p.lower.toNat ≤ d + 0x80) (hu : d + 0x80 ≤ p.upper.toNat) (hm : p.missing = 1) :
    (Reader.mk found (some p)).feed (UInt8.ofNat (d + 0x80)) =
      ⟨.scalar (Char.ofNat (p.code * 64 + d)) :: found, none⟩ := by
  rw [Reader.feed_continuation hd hl hu, add_last hm hd]
  rfl

theorem continuation_bounds {d : Nat} (hd : d < 64) :
    (0x80 : UInt8).toNat ≤ d + 0x80 ∧ d + 0x80 ≤ (0xBF : UInt8).toNat := by
  have h128 : (0x80 : UInt8).toNat = 128 := by decide
  have h191 : (0xBF : UInt8).toNat = 191 := by decide
  omega

theorem Reader.feed_two (found : List Segment) {c d : Nat} (h2 : 2 ≤ c) (hc : c < 32)
    (hd : d < 64) :
    [UInt8.ofNat (c + 0xC0), UInt8.ofNat (d + 0x80)].foldl Reader.feed ⟨found, none⟩ =
      ⟨.scalar (Char.ofNat (c * 64 + d)) :: found, none⟩ := by
  have hfirst : (Reader.mk found none).feed (UInt8.ofNat (c + 0xC0)) =
      ⟨found, some (firstOfTwo c)⟩ := congrArg (Reader.take found) (lead_two c hc h2)
  have hbd := continuation_bounds hd
  have hlast : (Reader.mk found (some (firstOfTwo c))).feed (UInt8.ofNat (d + 0x80)) = _ :=
    Reader.feed_last hd hbd.1 hbd.2 rfl
  rw [List.foldl_cons, List.foldl_cons, List.foldl_nil, hfirst, hlast]
  rfl

theorem Reader.feed_three (found : List Segment) {c d e : Nat} (hc : c < 16) (hd : d < 64)
    (he : e < 64) (h0 : c = 0 → 32 ≤ d) (h13 : c = 13 → d < 32) :
    [UInt8.ofNat (c + 0xE0), UInt8.ofNat (d + 0x80), UInt8.ofNat (e + 0x80)].foldl Reader.feed
        ⟨found, none⟩ =
      ⟨.scalar (Char.ofNat ((c * 64 + d) * 64 + e)) :: found, none⟩ := by
  have hfirst : (Reader.mk found none).feed (UInt8.ofNat (c + 0xE0)) =
      ⟨found, some (firstOfThree c)⟩ := congrArg (Reader.take found) (lead_three c hc)
  have hbd := continuation_bounds hd
  have hlow : (firstOfThree c).lower.toNat ≤ d + 0x80 := by
    show (if c = 0 then (0xA0 : UInt8) else 0x80).toNat ≤ d + 0x80
    split
    · have hge := h0 ‹c = 0›
      show 160 ≤ d + 0x80
      omega
    · exact hbd.1
  have hupp : d + 0x80 ≤ (firstOfThree c).upper.toNat := by
    show d + 0x80 ≤ (if c = 13 then (0x9F : UInt8) else 0xBF).toNat
    split
    · have hlt := h13 ‹c = 13›
      show d + 0x80 ≤ 159
      omega
    · exact hbd.2
  have hmore : (Reader.mk found (some (firstOfThree c))).feed (UInt8.ofNat (d + 0x80)) = _ :=
    Reader.feed_more hd hlow hupp (by decide : 1 < 2)
  have hbe := continuation_bounds he
  have hlast :
      (Reader.mk found (some ((firstOfThree c).more d))).feed (UInt8.ofNat (e + 0x80)) = _ :=
    Reader.feed_last he hbe.1 hbe.2 rfl
  rw [List.foldl_cons, List.foldl_cons, List.foldl_cons, List.foldl_nil, hfirst, hmore, hlast]
  rfl

theorem Reader.feed_four (found : List Segment) {c d e f : Nat} (hc : c < 5) (hd : d < 64)
    (he : e < 64) (hf : f < 64) (h0 : c = 0 → 16 ≤ d) (h4 : c = 4 → d < 16) :
    [UInt8.ofNat (c + 0xF0), UInt8.ofNat (d + 0x80), UInt8.ofNat (e + 0x80),
        UInt8.ofNat (f + 0x80)].foldl Reader.feed ⟨found, none⟩ =
      ⟨.scalar (Char.ofNat (((c * 64 + d) * 64 + e) * 64 + f)) :: found, none⟩ := by
  have hfirst : (Reader.mk found none).feed (UInt8.ofNat (c + 0xF0)) =
      ⟨found, some (firstOfFour c)⟩ := congrArg (Reader.take found) (lead_four c hc)
  have hbd := continuation_bounds hd
  have hlow : (firstOfFour c).lower.toNat ≤ d + 0x80 := by
    show (if c = 0 then (0x90 : UInt8) else 0x80).toNat ≤ d + 0x80
    split
    · have hge := h0 ‹c = 0›
      show 144 ≤ d + 0x80
      omega
    · exact hbd.1
  have hupp : d + 0x80 ≤ (firstOfFour c).upper.toNat := by
    show d + 0x80 ≤ (if c = 4 then (0x8F : UInt8) else 0xBF).toNat
    split
    · have hlt := h4 ‹c = 4›
      show d + 0x80 ≤ 143
      omega
    · exact hbd.2
  have hmore : (Reader.mk found (some (firstOfFour c))).feed (UInt8.ofNat (d + 0x80)) = _ :=
    Reader.feed_more hd hlow hupp (by decide : 1 < 3)
  have hbe := continuation_bounds he
  have hmore' :
      (Reader.mk found (some ((firstOfFour c).more d))).feed (UInt8.ofNat (e + 0x80)) = _ :=
    Reader.feed_more he hbe.1 hbe.2 (by decide : 1 < 2)
  have hbf := continuation_bounds hf
  have hlast : (Reader.mk found (some (((firstOfFour c).more d).more e))).feed
      (UInt8.ofNat (f + 0x80)) = _ := Reader.feed_last hf hbf.1 hbf.2 rfl
  rw [List.foldl_cons, List.foldl_cons, List.foldl_cons, List.foldl_cons, List.foldl_nil, hfirst,
    hmore, hmore', hlast]
  rfl

/-- A character is read from its encoding. -/
theorem Reader.feed_encode (found : List Segment) (c : Char) :
    (String.utf8EncodeChar c).foldl Reader.feed ⟨found, none⟩ = ⟨.scalar c :: found, none⟩ := by
  obtain ⟨n, hn, rfl⟩ : ∃ n, n.isValidChar ∧ c = Char.ofNat n :=
    ⟨c.toNat, c.valid, (Char.ofNat_toNat c).symm⟩
  have hvalid : n < 0xD800 ∨ (0xDFFF < n ∧ n < 0x110000) := hn
  have hd : n % 64 < 64 := Nat.mod_lt _ (by decide)
  have he : n / 64 % 64 < 64 := Nat.mod_lt _ (by decide)
  rcases Nat.lt_or_ge n 0x80 with h1 | h1
  · rw [encode_one h1]
    exact congrArg (Reader.take found) (lead_one n h1)
  rcases Nat.lt_or_ge n 0x800 with h2 | h2
  · rw [encode_two h1 h2, Reader.feed_two found (by omega) (by omega) hd,
      show n / 64 * 64 + n % 64 = n by omega]
  rcases Nat.lt_or_ge n 0x10000 with h3 | h3
  · rw [encode_three h2 h3 (by omega),
      Reader.feed_three found (by omega) he hd (by omega) (by omega),
      show (n / 4096 * 64 + n / 64 % 64) * 64 + n % 64 = n by omega]
  · have hf : n / 4096 % 64 < 64 := Nat.mod_lt _ (by decide)
    rw [encode_four h3 (by omega),
      Reader.feed_four found (by omega) hf he hd (by omega) (by omega),
      show ((n / 262144 * 64 + n / 4096 % 64) * 64 + n / 64 % 64) * 64 + n % 64 = n by omega]

theorem Reader.feed_encodeAll (found : List Segment) (text : List Char) :
    (encode text).foldl Reader.feed ⟨found, none⟩ =
      ⟨(text.map .scalar).reverse ++ found, none⟩ := by
  induction text generalizing found with
  | nil => rfl
  | cons c text ih =>
    rw [encode, List.flatMap_cons, List.foldl_append, Reader.feed_encode]
    show (encode text).foldl Reader.feed _ = _
    rw [ih, List.map_cons, List.reverse_cons, List.append_assoc]
    rfl

/-- **The segments of an encoded text are its characters.** -/
theorem segments_encode (text : List Char) : segments (encode text) = text.map .scalar := by
  unfold segments
  rw [show ({} : Reader) = ⟨[], none⟩ from rfl, Reader.feed_encodeAll]
  simp [Reader.finish]

/-! ## Texts and byte strings -/

theorem map_char_scalar (text : List Char) : (text.map Segment.scalar).map Segment.char = text := by
  rw [List.map_map]
  exact List.map_id text

/-- Segments without an offence are the characters that they are read as. -/
theorem segments_eq_of_all {segs : List Segment} (h : segs.all Segment.isScalar) :
    segs = (segs.map Segment.char).map .scalar := by
  induction segs with
  | nil => rfl
  | cons s segs ih =>
    rw [List.all_cons, Bool.and_eq_true] at h
    cases s with
    | scalar c =>
      rw [List.map_cons, List.map_cons, ← ih h.2]
      rfl
    | invalid bytes => cases h.1

theorem flatMap_bytes_scalar (text : List Char) :
    (text.map Segment.scalar).flatMap Segment.bytes = encode text := by
  rw [List.flatMap_map]
  rfl

/-- **A byte string is read as a text just when it is the encoding of it.** -/
theorem chars?_eq_some_iff {s : Bytes} {text : List Char} :
    chars? s = some text ↔ s = encode text := by
  constructor
  · intro h
    unfold chars? at h
    dsimp only at h
    split at h
    · rename_i hall
      have hsegs := segments_eq_of_all hall
      rw [Option.some.inj h] at hsegs
      rw [← segments_bytes s, hsegs, flatMap_bytes_scalar]
    · cases h
  · rintro rfl
    have hall : ((text.map Segment.scalar).all Segment.isScalar) = true := by
      simp [Segment.isScalar]
    simp only [chars?, segments_encode, hall, if_true, map_char_scalar]

theorem isValid_iff {s : Bytes} : isValid s ↔ ∃ text, s = encode text := by
  constructor
  · intro h
    have hc : chars? s = some ((segments s).map Segment.char) := if_pos h
    exact ⟨_, chars?_eq_some_iff.1 hc⟩
  · rintro ⟨text, rfl⟩
    unfold isValid
    rw [segments_encode]
    simp [Segment.isScalar]

/-- Nothing is replaced in valid UTF-8. -/
theorem replaceInvalid_of_isValid {s : Bytes} (h : isValid s) : replaceInvalid s = s := by
  obtain ⟨text, rfl⟩ := isValid_iff.1 h
  unfold replaceInvalid lossyChars
  rw [segments_encode, map_char_scalar]

/-- Bytes below 0x80 are UTF-8. -/
theorem isValid_of_ascii {s : Bytes} (h : ∀ b ∈ s, b < 0x80) : isValid s := by
  refine isValid_iff.2 ⟨s.map fun b => Char.ofNat b.toNat, ?_⟩
  induction s with
  | nil => rfl
  | cons b s ih =>
    have hb : b.toNat < 0x80 := UInt8.lt_iff_toNat_lt.1 (h b List.mem_cons_self)
    rw [List.map_cons, encode, List.flatMap_cons, encode_one hb, UInt8.ofNat_toNat]
    exact congrArg (b :: ·) (ih fun c hc => h c (List.mem_cons_of_mem _ hc))

end FlatJson.Utf8
