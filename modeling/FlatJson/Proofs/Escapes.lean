import FlatJson.Proofs.Extents
import FlatJson.Proofs.Navigation

/-!
# Escapes, scanned and decoded

A string is gone over twice: the scan checks its escapes and finds its end, and only decoding says
what the escapes denote.  Both walks stop at the same places.

* `outsideEscapes` — the bytes of the content of a string that belong to no escape.
* `StringError.IsSurrogate` — the error of an escape that is well formed.

`Unescaping.run_error` says that content never has an escape which cannot be decoded,
`Unescaping.content_of_run` that whatever is decoded is content, and
`Tokenizer.scan_agrees_with_decode` what both mean for a tokenizer.
-/

namespace FlatJson

/-! ## Well-formed escapes -/

theorem isShortEscape_eq : ∀ b, Scan.isShortEscape b = (shortEscape b).isSome := by
  decide +kernel

/-- Four bytes denote a code unit just when they are hexadecimal digits. -/
theorem unitOfHex_isSome_iff (a b c d : UInt8) :
    (unitOfHex a b c d).isSome ↔
      Byte.isHexDigit a ∧ Byte.isHexDigit b ∧ Byte.isHexDigit c ∧ Byte.isHexDigit d := by
  unfold unitOfHex Byte.isHexDigit
  cases Byte.hexValue a <;> cases Byte.hexValue b <;> cases Byte.hexValue c <;>
    cases Byte.hexValue d <;> simp

/-- The bytes that belong to no escape.  A numeric escape is six bytes long and any other two, as
far as the content goes. -/
def outsideEscapes : Bytes → Bytes
  | [] => []
  | b :: rest =>
    if b = Byte.backslash then
      match rest with
      | [] => []
      | letter :: more =>
        if letter = 0x75 then
          match more with
          | _ :: _ :: _ :: _ :: later => outsideEscapes later
          | _ => []
        else outsideEscapes more
    else b :: outsideEscapes rest

theorem outsideEscapes_plain {b : UInt8} (hb : b ≠ Byte.backslash) (rest : Bytes) :
    outsideEscapes (b :: rest) = b :: outsideEscapes rest := by
  rw [outsideEscapes.eq_def]
  exact if_neg hb

theorem outsideEscapes_short {letter : UInt8} (h : letter ≠ 0x75) (more : Bytes) :
    outsideEscapes (Byte.backslash :: letter :: more) = outsideEscapes more := by
  rw [outsideEscapes.eq_def]
  exact if_neg h

theorem outsideEscapes_eq_self {s : Bytes} (h : Byte.backslash ∉ s) : outsideEscapes s = s := by
  induction s with
  | nil => rfl
  | cons b s ih =>
    rw [List.mem_cons, not_or] at h
    obtain ⟨hb, hs⟩ := h
    rw [outsideEscapes_plain (Ne.symm hb), ih hs]

/-- A surrogate without its partner, which only a well-formed escape can be. -/
def StringError.IsSurrogate (e : StringError) : Prop :=
  ∃ code offset, e = .loneSurrogate code offset

/-- An error of two steps one after the other is one of the first or of the second. -/
theorem error_of_bind {α β : Type} {P : StringError → Prop} {x : Except StringError α}
    {f : α → Except StringError β} {e : StringError} (h : x.bind f = .error e)
    (hx : ∀ {e}, x = .error e → P e) (hf : ∀ {a}, x = .ok a → f a = .error e → P e) : P e := by
  cases x with
  | ok a => exact hf rfl h
  | error e' =>
    cases h
    exact hx rfl

namespace RawText

namespace Unescaping

variable {u : Unescaping} {s : Bytes}

/-! ## Content is unescaped -/

theorem settle_error {e : StringError} (h : u.settle = .error e) : e.IsSurrogate := by
  unfold settle at h
  split at h
  · cases h
  · cases h
    exact ⟨_, _, rfl⟩

theorem unit_error {code : UInt16} {e : StringError} (h : u.unit code = .error e) :
    e.IsSurrogate := by
  unfold Unescaping.unit at h
  split at h
  · cases h
  · cases h
  · cases h
    exact ⟨_, _, rfl⟩

theorem run_nil : run u [] = u.settle.bind fun _ => .ok u.out.reverse := by
  rw [run]
  cases u.settle <;> rfl

theorem run_plain {b : UInt8} (hb : b ≠ Byte.backslash) (rest : Bytes) :
    run u (b :: rest) = u.settle.bind fun _ => run (u.byte b 1) rest := by
  rw [run.eq_def]
  simp only [if_neg hb]
  cases u.settle <;> rfl

theorem run_short {letter b : UInt8} (h : shortEscape letter = some b) (more : Bytes) :
    run u (Byte.backslash :: letter :: more) =
      u.settle.bind fun _ => run (u.byte b 2) more := by
  have hletter : letter ≠ 0x75 := by
    rintro rfl
    cases h
  rw [run.eq_def]
  simp only [if_true, if_neg hletter, h]
  cases u.settle <;> rfl

theorem run_unit {h₁ h₂ h₃ h₄ : UInt8} {code : UInt16} (h : unitOfHex h₁ h₂ h₃ h₄ = some code)
    (later : Bytes) :
    run u (Byte.backslash :: 0x75 :: h₁ :: h₂ :: h₃ :: h₄ :: later) =
      (u.unit code).bind fun u => run u later := by
  rw [run.eq_def]
  simp only [if_true, h]
  cases u.unit code <;> rfl

/-- **The only errors in the escapes of content are surrogates without partners**, whatever has
been unescaped before. -/
theorem run_error {e : StringError} (hs : IsContent s) (h : run u s = .error e) :
    e.IsSurrogate := by
  induction hs generalizing u with
  | nil =>
    rw [run_nil] at h
    exact error_of_bind h settle_error nofun
  | plain _ _ hb _ ih =>
    rw [run_plain hb] at h
    exact error_of_bind h settle_error fun _ => ih
  | short hshort _ ih =>
    rw [isShortEscape_eq] at hshort
    obtain ⟨b, hb⟩ := Option.isSome_iff_exists.1 hshort
    rw [run_short hb] at h
    exact error_of_bind h settle_error fun _ => ih
  | unit hx₁ hx₂ hx₃ hx₄ _ ih =>
    have hunit := (unitOfHex_isSome_iff _ _ _ _).2 ⟨hx₁, hx₂, hx₃, hx₄⟩
    obtain ⟨code, hcode⟩ := Option.isSome_iff_exists.1 hunit
    rw [run_unit hcode] at h
    exact error_of_bind h unit_error fun _ => ih

/-! ## Whatever is unescaped is content -/

/-- **Bytes that are unescaped without an error may stand in a string**, unless a control byte or a
closing quote is among them. -/
theorem content_of_run {out : Bytes} (h : run u s = .ok out)
    (hc : ∀ b ∈ s, ¬ Byte.isControl b) (hq : Byte.quote ∉ outsideEscapes s) : IsContent s := by
  -- One case for each way through `run`: it goes on after a numeric escape (case 5), a short one
  -- (case 10) and a byte that stands for itself (case 11), and else it fails before the end.
  fun_induction run u s with
  | case1 => exact .nil
  | case5 u h₁ h₂ h₃ h₄ later code hcode u' _ ih =>
    have hunit : (unitOfHex h₁ h₂ h₃ h₄).isSome := Option.isSome_iff_exists.2 ⟨code, hcode⟩
    obtain ⟨hx₁, hx₂, hx₃, hx₄⟩ := (unitOfHex_isSome_iff h₁ h₂ h₃ h₄).1 hunit
    refine .unit hx₁ hx₂ hx₃ hx₄ (ih h (fun b hb => hc b ?_) hq)
    simp only [List.mem_cons, hb, or_true]
  | case10 u letter more hletter b hb _ ih =>
    rw [outsideEscapes_short hletter] at hq
    have hshort : Scan.isShortEscape letter := by
      rw [isShortEscape_eq, hb]
      rfl
    refine .short hshort (ih h (fun b hb => hc b ?_) hq)
    simp only [List.mem_cons, hb, or_true]
  | case11 u b rest hb _ ih =>
    rw [outsideEscapes_plain hb, List.mem_cons, not_or] at hq
    have hle : 0x20 ≤ b := not_isControl_iff.1 (hc b List.mem_cons_self)
    exact .plain hle (Ne.symm hq.1) hb (ih h (fun c hcr => hc c (List.mem_cons_of_mem _ hcr)) hq.2)
  | _ => cases h

end Unescaping

/-! ## Decoding -/

theorem textOf_error {bytes : Bytes} {e : StringError} (h : textOf bytes = .error e) :
    ∃ offset, e = .invalidUtf8 offset := by
  unfold textOf at h
  split at h
  · cases h
  · cases h
    exact ⟨_, rfl⟩

theorem decoded_of_escapes {s : RawText} (hs : s.hasEscapes) :
    s.decoded = (textOf s.bytes).bind fun _ => s.unescape.bind fun out =>
      (textOf out).map fun text => ⟨text, false⟩ := by
  unfold decoded
  simp only [hs, if_true]
  rfl

theorem decode_of_escapes {s : RawText} (hs : s.hasEscapes) :
    s.decode = (textOf s.bytes).bind fun _ => s.unescape.bind textOf := by
  rw [decode, decoded_of_escapes hs]
  cases textOf s.bytes with
  | error e => rfl
  | ok text =>
    cases hrun : s.unescape with
    | error e => simp only [Except.bind, Except.map]
    | ok out => cases hout : textOf out <;> simp only [Except.bind, Except.map, hout]

/-- Content denotes a text, or is not UTF-8, or has a surrogate without its partner. -/
theorem decode_error {s : RawText} (hs : IsContent s.bytes) {e : StringError}
    (h : s.decode = .error e) : (∃ offset, e = .invalidUtf8 offset) ∨ e.IsSurrogate := by
  have htext : ∀ {bytes : Bytes} {e : StringError}, textOf bytes = .error e →
      (∃ offset, e = .invalidUtf8 offset) ∨ e.IsSurrogate := fun h => .inl (textOf_error h)
  by_cases hescapes : s.hasEscapes
  · rw [decode_of_escapes hescapes] at h
    have hrun : ∀ {e : StringError}, s.unescape = .error e →
        (∃ offset, e = .invalidUtf8 offset) ∨ e.IsSurrogate :=
      fun h => .inr (Unescaping.run_error hs h)
    exact error_of_bind h htext fun _ h => error_of_bind h hrun fun _ => htext
  · rw [decode_of_no_escapes hescapes] at h
    exact htext h

theorem unescape_of_decode {s : RawText} {text : List Char} (hescapes : s.hasEscapes)
    (h : s.decode = .ok text) : ∃ out, s.unescape = .ok out := by
  rw [decode_of_escapes hescapes] at h
  cases hrun : s.unescape with
  | ok out => exact ⟨out, rfl⟩
  | error e =>
    rw [hrun] at h
    cases htext : textOf s.bytes <;> rw [htext] at h <;> cases h

/-- Bytes that denote a text may stand in a string, unless a control byte or a closing quote is
among them. -/
theorem content_of_decode {s : RawText} {text : List Char} (h : s.decode = .ok text)
    (hc : ∀ b ∈ s.bytes, ¬ Byte.isControl b) (hq : Byte.quote ∉ outsideEscapes s.bytes) :
    IsContent s.bytes := by
  by_cases hescapes : s.hasEscapes
  · obtain ⟨out, hrun⟩ := unescape_of_decode hescapes h
    exact Unescaping.content_of_run hrun hc hq
  · have hbackslash : Byte.backslash ∉ s.bytes := by
      simpa [hasEscapes] using hescapes
    rw [outsideEscapes_eq_self hbackslash] at hq
    refine .of_forall fun b hb => ⟨?_, ?_, ?_⟩
    · exact not_isControl_iff.1 (hc b hb)
    · exact ne_of_mem_of_not_mem hb hq
    · exact ne_of_mem_of_not_mem hb hbackslash

end RawText

/-! ## Tokenizers -/

/-- The tokens of strings and of names are content in quotes, whether the text is accepted or
not. -/
theorem Tokenizer.content_of_token (t : Tokenizer) {text : Bytes} {tok : Token}
    (h : tok ∈ (t.parse text).1.tokens) (hk : tok.kind = .key ∨ tok.kind = .string) :
    ∃ raw, ((t.parse text).1.window text).rawText? tok = some raw ∧
      slice text tok.first tok.past = quoted raw.bytes ∧ IsContent raw.bytes := by
  obtain ⟨l, hl⟩ := t.exists_shows h
  have hquoted : l.isQuoted := by
    rw [Leaf.isQuoted, ← hl.kind]
    rcases hk with hk | hk <;> rw [hk]
  have hspelling : l.spelling = quoted l.content := if_pos hquoted
  exact ⟨⟨l.content⟩, hl.rawText_eq hquoted, hl.extent.trans hspelling, hl.isContent hquoted⟩

/-- The text of one string has one token. -/
theorem Tokenizer.parse_quoted (t : Tokenizer) {s : Bytes} (hs : IsContent s) :
    (t.parse (quoted s)).1.error = none ∧
      (t.parse (quoted s)).1.tokens = [⟨.string, 0, 1, s.length⟩] := by
  have hlaid : LaidText [.string ⟨s⟩] [⟨[], ⟨.string, 0, s⟩⟩] [] (quoted s) := by
    refine ⟨List.cons_ne_nil _ _, rfl, ?_, .nil, ?_, ?_⟩
    · intro p hp
      rw [List.mem_singleton.1 hp]
      exact ⟨.nil, .string hs⟩
    · exact (apart_value_iff (v := .string ⟨s⟩) rfl).2 nofun
    · simp [Piece.text, Leaf.spelling, Leaf.isQuoted]
  have herror : (t.parse (quoted s)).1.error = none := by
    refine (t.parse_error_eq_none_iff _).2 ⟨_, hlaid.writtenText, ?_, .inr rfl⟩
    intro v hv
    rw [List.mem_singleton.1 hv]
    exact Nat.zero_le _
  exact ⟨herror, t.tokens_eq_tokensAt herror hlaid⟩

/-- **The scan and the decoding agree on escapes.**  A string or a name that was scanned is decoded,
unless it is not UTF-8 or has a surrogate without its partner; and bytes that are decoded are
scanned as one string, unless a control byte or a quote stands outside their escapes.  The room for
the text is one that can be reserved. -/
theorem Tokenizer.scan_agrees_with_decode (t : Tokenizer) :
    (∀ text, ∀ tok ∈ (t.parse text).1.tokens, tok.kind = .key ∨ tok.kind = .string →
      ∃ raw, ((t.parse text).1.window text).rawText? tok = some raw ∧
        slice text tok.first tok.past = quoted raw.bytes ∧
        ((∃ decoded, raw.decode = .ok decoded) ∨
          (∃ offset, raw.decode = .error (.invalidUtf8 offset)) ∨
          ∃ code offset, raw.decode = .error (.loneSurrogate code offset))) ∧
    ∀ s decoded, (∀ b ∈ s, ¬ Byte.isControl b) → Byte.quote ∉ outsideEscapes s →
      RawText.decode ⟨s⟩ = .ok decoded →
      (t.parse (quoted s)).1.error = none ∧
      (t.parse (quoted s)).1.tokens = [⟨.string, 0, 1, s.length⟩] ∧
      ((t.parse (quoted s)).1.window (quoted s)).lexeme ⟨.string, 0, 1, s.length⟩ = s := by
  constructor
  · intro text tok htok hk
    obtain ⟨raw, hraw, hslice, hcontent⟩ := t.content_of_token htok hk
    refine ⟨raw, hraw, hslice, ?_⟩
    cases hdecode : raw.decode with
    | ok decoded => exact .inl ⟨decoded, rfl⟩
    | error e =>
      rcases RawText.decode_error hcontent hdecode with ⟨offset, rfl⟩ | ⟨code, offset, rfl⟩
      · exact .inr (.inl ⟨offset, rfl⟩)
      · exact .inr (.inr ⟨code, offset, rfl⟩)
  · intro s decoded hc hq hdecode
    obtain ⟨herror, htokens⟩ := t.parse_quoted (RawText.content_of_decode hdecode hc hq)
    refine ⟨herror, htokens, ?_⟩
    exact Window.lexeme_of_append [Byte.quote] s [Byte.quote] rfl rfl rfl

/-- The text `["\ud800"`, which breaks off after a string with a lone surrogate, and the content
`\u00e9\"`. -/
theorem Tokenizer.scan_agrees_with_decode_surrogate :
    (({} : Tokenizer).parse [0x5B, 0x22, 0x5C, 0x75, 0x64, 0x38, 0x30, 0x30, 0x22]).1.tokens =
      [⟨.opening .array, 0, 0, 1⟩, ⟨.string, 1, 2, 6⟩] ∧
    (∃ raw, ((({} : Tokenizer).parse
        [0x5B, 0x22, 0x5C, 0x75, 0x64, 0x38, 0x30, 0x30, 0x22]).1.window
          [0x5B, 0x22, 0x5C, 0x75, 0x64, 0x38, 0x30, 0x30, 0x22]).rawText? ⟨.string, 1, 2, 6⟩ =
        some raw ∧
      slice [0x5B, 0x22, 0x5C, 0x75, 0x64, 0x38, 0x30, 0x30, 0x22] 1 9 = quoted raw.bytes ∧
      ((∃ decoded, raw.decode = .ok decoded) ∨
        (∃ offset, raw.decode = .error (.invalidUtf8 offset)) ∨
        ∃ code offset, raw.decode = .error (.loneSurrogate code offset))) ∧
    RawText.decode ⟨[0x5C, 0x75, 0x64, 0x38, 0x30, 0x30]⟩ = .error (.loneSurrogate 0xD800 0) ∧
    (∀ b ∈ [0x5C, 0x75, 0x30, 0x30, 0x65, 0x39, 0x5C, 0x22], ¬ Byte.isControl b) ∧
    Byte.quote ∉ outsideEscapes [0x5C, 0x75, 0x30, 0x30, 0x65, 0x39, 0x5C, 0x22] ∧
    RawText.decode ⟨[0x5C, 0x75, 0x30, 0x30, 0x65, 0x39, 0x5C, 0x22]⟩ =
      .ok [Char.ofNat 0xE9, '"'] ∧
    (({} : Tokenizer).parse
      (quoted [0x5C, 0x75, 0x30, 0x30, 0x65, 0x39, 0x5C, 0x22])).1.error = none := by
  have htokens : (({} : Tokenizer).parse
      [0x5B, 0x22, 0x5C, 0x75, 0x64, 0x38, 0x30, 0x30, 0x22]).1.tokens =
        [⟨.opening .array, 0, 0, 1⟩, ⟨.string, 1, 2, 6⟩] := by decide
  have hcontrol : ∀ b ∈ [0x5C, 0x75, 0x30, 0x30, 0x65, 0x39, 0x5C, 0x22],
      ¬ Byte.isControl b := by
    simp [Byte.isControl]
  have hquote : Byte.quote ∉
      outsideEscapes [0x5C, 0x75, 0x30, 0x30, 0x65, 0x39, 0x5C, 0x22] := by
    simp [outsideEscapes]
  have hdecode : RawText.decode ⟨[0x5C, 0x75, 0x30, 0x30, 0x65, 0x39, 0x5C, 0x22]⟩ =
      .ok [Char.ofNat 0xE9, '"'] := by rfl
  refine ⟨htokens, ?_, by rfl, hcontrol, hquote, hdecode, ?_⟩
  · refine (Tokenizer.scan_agrees_with_decode {}).1 _ ⟨.string, 1, 2, 6⟩ ?_ (.inr rfl)
    rw [htokens]
    simp
  · exact ((Tokenizer.scan_agrees_with_decode {}).2 _ _ hcontrol hquote hdecode).1

end FlatJson
