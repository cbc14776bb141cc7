import FlatJson.Proofs.Emission
import FlatJson.Proofs.Viability
import FlatJson.Proofs.Tokens

/-!
# Texts that break off

If an accepted text is cut somewhere, the scanner says no more than that: the part before the cut
is accepted, or its error stands at the cut or names the string or the escape that the cut divides.
Its tokens are those of the whole text as far as they go, but a number that is cut may end early.

* `LexError.BreaksOff` — the errors that only say where a text breaks off.
* `Curtailed` — tokens that end early.

`Reads.breaksOff` is about the error, `Reads.curtailed` about the tokens, and
`Tokenizer.parse?_of_truncated` is both for a tokenizer.
-/

namespace FlatJson

/-- The error says that the text breaks off: at its end, inside one of the strings of the whole
text, or inside a numeric escape. -/
inductive LexError.BreaksOff (text : Bytes) (whole : List Token) : LexError → Prop
  | more (expected : String) :
      LexError.BreaksOff text whole ⟨.unexpectedEnd expected, text.length⟩
  | bracket (expected : Char) (depth : Nat) :
      LexError.BreaksOff text whole ⟨.unclosedBracket expected depth, text.length⟩
  | number (expected : String) :
      LexError.BreaksOff text whole ⟨.malformedNumber expected, text.length⟩
  | string {tok : Token} :
      tok ∈ whole → tok.kind = .key ∨ tok.kind = .string →
      tok.first < text.length → text.length < tok.past →
      LexError.BreaksOff text whole ⟨.unterminatedString, tok.first⟩
  | escape {backslash : Nat} :
      text[backslash]? = some Byte.backslash → text.length < backslash + 6 →
      LexError.BreaksOff text whole ⟨.invalidUnicodeEscape, backslash⟩

/-- The first tokens of the whole, the last of them cut short if it is a number. -/
inductive Curtailed : (tokens whole : List Token) → Prop
  | between (tokens rest : List Token) : Curtailed tokens (tokens ++ rest)
  | number {depth offset short long : Nat} (tokens rest : List Token) :
      short < long →
      Curtailed (tokens ++ [⟨.number, depth, offset, short⟩])
        (tokens ++ ⟨.number, depth, offset, long⟩ :: rest)

theorem Curtailed.of_initial {tokens whole : List Token} (h : tokens <+: whole) :
    Curtailed tokens whole := by
  obtain ⟨rest, rfl⟩ := h
  exact .between tokens rest

namespace Scan

variable {limits : Limits} {s s' : State} {t u : Bytes} {e : LexError}

/-! ## The error at the cut -/

/-- A numeric escape that is being read starts with its backslash. -/
theorem Reads.getElem?_backslash {start backslash missing : Nat} (h : Reads limits {} t s)
    (hl : s.lexeme = .string start (.digits backslash missing)) :
    t[backslash]? = some Byte.backslash := by
  obtain ⟨ps, tail, hr, rfl⟩ := h.exists_reading
  have hbegun := hr.begun
  rw [hl] at hbegun
  cases hbegun with
  | @string pad got _ hpad ha hp =>
    cases hp with
    | @digits c hex _ hc hd hlen hpos =>
      have hsplit : spread ps ++ (pad ++ Byte.quote :: (c ++ Byte.backslash :: 0x75 :: hex)) =
          (spread ps ++ pad ++ Byte.quote :: c) ++ Byte.backslash :: 0x75 :: hex := by simp
      have hplace : (spread ps).length + pad.length + 1 + c.length =
          (spread ps ++ pad ++ Byte.quote :: c).length := by simp; omega
      rw [hsplit, hplace, List.getElem?_append_right (Nat.le_refl _), Nat.sub_self]
      rfl

/-- A string that is being read becomes a string there, which ends later. -/
theorem State.Completes.of_string {tok : Token} {start : Nat} {part : StringPart}
    (h : s.Completes tok) (hl : s.lexeme = .string start part) :
    (tok.kind = .key ∨ tok.kind = .string) ∧ tok.first = start ∧ s.pos < tok.past := by
  cases h with
  | @string _ len _ kind hl' hk hle =>
    rw [hl] at hl'
    cases hl'
    refine ⟨hk, ?_, ?_⟩
    · rcases hk with rfl | rfl <;> simp [Token.first, Token.quotes]
    · rcases hk with rfl | rfl <;> simp only [Token.past, Token.stop, Token.quotes] <;> omega
  | number hl' =>
    rw [hl] at hl'
    cases hl'

/-- A number that is being read becomes a number there, which ends no earlier. -/
theorem State.Completes.of_number {tok : Token} {start : Nat} {part : NumberPart}
    (h : s.Completes tok) (hl : s.lexeme = .number start part) :
    ∃ len, tok = ⟨.number, min s.stack.length maxReportedDepth, start, len⟩ ∧
      s.pos ≤ start + len := by
  cases h with
  | string hl' =>
    rw [hl] at hl'
    cases hl'
  | @number _ len _ hl' hle =>
    rw [hl] at hl'
    cases hl'
    exact ⟨len, rfl, hle⟩

/-- The string that the cut divides is one of the whole text. -/
theorem Reads.breaksOff_string {start : Nat} {part : StringPart} (h : Reads limits {} t s)
    (hl : s.lexeme = .string start part) (h' : Reads limits s u s')
    (hend : (s'.settle none).finish = none) :
    LexError.BreaksOff t (s'.settle none).emitted.reverse ⟨.unterminatedString, start⟩ := by
  have hsame : Lexeme.Same (.string start part) s.lexeme := by
    rw [hl]
    exact .string
  obtain ⟨tok, hc, he⟩ := h'.completes hsame hend
  obtain ⟨hk, rfl, hpast⟩ := hc.of_string hl
  have hmem : tok ∈ (s'.settle none).emitted.reverse :=
    List.mem_reverse.2 (he.subset List.mem_cons_self)
  rw [h.pos_eq] at hpast
  exact .string hmem hk (h.start_lt hl) hpast

/-- **The error for a part of an accepted text says that it breaks off.** -/
theorem Reads.breaksOff (h : Reads limits {} t s) (he : (s.settle none).finish = some e)
    (h' : Reads limits s u s') (hend : (s'.settle none).finish = none) :
    e.BreaksOff t (s'.settle none).emitted.reverse := by
  have hpos := h.pos_eq
  cases State.lacks_of_finish he with
  | digits hl =>
    obtain ⟨hplace, hmissing, -⟩ := h.digits hl
    refine .escape (h.getElem?_backslash hl) ?_
    omega
  | quote hl => exact h.breaksOff_string hl h' hend
  | bracket expected depth hs =>
    rw [hpos]
    exact .bracket expected depth
  | more expected hs =>
    rw [hpos]
    exact .more expected
  | number expected hs =>
    rw [hpos]
    exact .number expected

/-! ## The tokens before the cut -/

theorem State.settle_none_of_ne_done
    (h : ∀ start part, s.lexeme = .number start part → part.read none ≠ .done) :
    s.settle none = s := by
  cases hl : s.lexeme with
  | number start part => exact State.settle_of_ne_done hl (h start part hl)
  | _ => simp only [State.settle, hl]

/-- **The tokens of a part of an accepted text are those of the whole, as far as they go.** -/
theorem Reads.curtailed (h' : Reads limits s u s') (hend : (s'.settle none).finish = none) :
    Curtailed (s.settle none).emitted.reverse (s'.settle none).emitted.reverse := by
  by_cases hnum : ∃ start part, s.lexeme = .number start part ∧ part.read none = .done
  · -- The number that is settled at the cut becomes the next token, and may go on until then.
    obtain ⟨start, part, hl, hp⟩ := hnum
    have hsame : Lexeme.Same (.number start part) s.lexeme := by
      rw [hl]
      exact .number
    obtain ⟨tok, hc, he⟩ := h'.completes hsame hend
    obtain ⟨len, rfl, hle⟩ := hc.of_number hl
    obtain ⟨rest, hrest⟩ := List.reverse_prefix.2 he
    have hcut : (s.settle none).emitted.reverse = s.emitted.reverse ++
        [⟨.number, min s.stack.length maxReportedDepth, start, s.pos - start⟩] := by
      rw [State.settle_of_done hl hp]
      exact List.reverse_cons
    rw [hcut, ← hrest, List.reverse_cons]
    by_cases hlen : s.pos - start = len
    · rw [hlen]
      exact .between _ rest
    · rw [List.append_assoc]
      exact .number _ rest (by omega)
  · have hset : s.settle none = s := by
      refine State.settle_none_of_ne_done ?_
      intro start part hl hp
      exact hnum ⟨start, part, hl, hp⟩
    rw [hset]
    exact .of_initial (List.reverse_prefix.2 (h'.emitted.trans (State.settle_emitted _ _)))

/-! ## Whole texts -/

/-- **A part of an accepted text is scanned as one that breaks off.** -/
theorem scan_of_truncated (h : (scan limits (t ++ u)).error = none) :
    (∀ e, (scan limits t).error = some e → e.BreaksOff t (scan limits (t ++ u)).tokens) ∧
      Curtailed (scan limits t).tokens (scan limits (t ++ u)).tokens := by
  obtain ⟨s', hr, hend, hwhole⟩ := exists_reads_of_accepted h
  obtain ⟨s, h₁, h₂⟩ := hr.of_append
  rw [hwhole, h₁.scan_eq]
  exact ⟨fun e he => h₁.breaksOff he h₂ hend, h₂.curtailed hend⟩

end Scan

/-! ## Tokenizers -/

/-- A part of an accepted text has the tokens of the whole as far as they go, and no error but that
it breaks off. -/
theorem Tokenizer.parse_of_truncated (t : Tokenizer) {text part : Bytes}
    (h : (t.parse text).1.error = none) (hp : part <+: text) :
    (∀ e, (t.parse part).1.error = some e → e.BreaksOff part (t.parse text).1.tokens) ∧
      Curtailed (t.parse part).1.tokens (t.parse text).1.tokens := by
  obtain ⟨rest, rfl⟩ := hp
  exact Scan.scan_of_truncated h

/-- **Cutting an accepted text off never makes it look wrong**: whatever part of it is read, the
part is accepted or its error says that it breaks off, and the tokens are those of the whole text,
but for a number at the cut, which may be shorter.  All that a part may lack is the room that it
wants, which can be more than the whole text does where that is a large array. -/
theorem Tokenizer.parse?_of_truncated {t : Tokenizer} {text part : Bytes} {whole : Parsed}
    (h : (t.parse? text).1 = some whole) (haccepted : whole.error = none) (hp : part <+: text) :
    (t.wanted part ≤ max t.capacity Room.limit → ∃ cut, (t.parse? part).1 = some cut ∧
      (∀ e, cut.error = some e → e.BreaksOff part whole.tokens) ∧
      Curtailed cut.tokens whole.tokens) ∧
    (max t.capacity Room.limit < t.wanted part → (t.parse? part).1 = none) := by
  obtain ⟨-, rfl⟩ := parse?_eq_some_iff.1 h
  refine ⟨?_, parse?_eq_none_iff.2⟩
  intro hroom
  exact ⟨(t.parse part).1, parse?_eq_some_iff.2 ⟨hroom, rfl⟩, t.parse_of_truncated haccepted hp⟩

/-- The text `[12]`, cut inside its number. -/
theorem Tokenizer.parse?_of_truncated_number :
    (({} : Tokenizer).parse? [0x5B, 0x31, 0x32, 0x5D]).1 =
      some ⟨[⟨.opening .array, 0, 0, 1⟩, ⟨.number, 1, 1, 2⟩, ⟨.closing .array, 0, 3, 1⟩],
        ⟨false, 1, 1⟩, none⟩ ∧
    [0x5B, 0x31] <+: ([0x5B, 0x31, 0x32, 0x5D] : Bytes) ∧
    ({} : Tokenizer).wanted [0x5B, 0x31] ≤ max ({} : Tokenizer).capacity Room.limit ∧
    ∃ cut, (({} : Tokenizer).parse? [0x5B, 0x31]).1 = some cut ∧
      (∀ e, cut.error = some e → e.BreaksOff [0x5B, 0x31]
        [⟨.opening .array, 0, 0, 1⟩, ⟨.number, 1, 1, 2⟩, ⟨.closing .array, 0, 3, 1⟩]) ∧
      Curtailed cut.tokens
        [⟨.opening .array, 0, 0, 1⟩, ⟨.number, 1, 1, 2⟩, ⟨.closing .array, 0, 3, 1⟩] := by
  have h : (({} : Tokenizer).parse? [0x5B, 0x31, 0x32, 0x5D]).1 =
      some ⟨[⟨.opening .array, 0, 0, 1⟩, ⟨.number, 1, 1, 2⟩, ⟨.closing .array, 0, 3, 1⟩],
        ⟨false, 1, 1⟩, none⟩ := by decide
  have hp : [0x5B, 0x31] <+: ([0x5B, 0x31, 0x32, 0x5D] : Bytes) := by decide
  have hroom : ({} : Tokenizer).wanted [0x5B, 0x31] ≤ max ({} : Tokenizer).capacity Room.limit := by
    decide
  exact ⟨h, hp, hroom, (Tokenizer.parse?_of_truncated h rfl hp).1 hroom⟩

/-- With room for the largest count of tokens, the text `[1,1]` is accepted: as a large array it
wants room for six tokens only.  Its part `[` is no large array, and has no result. -/
theorem Tokenizer.exists_refused_part :
    let t : Tokenizer :=
      { settings := { shape := { largeArrayThreshold := 1 }, initialCapacity := maxCount } }
    (t.parse? [0x5B, 0x31, 0x2C, 0x31, 0x5D]).1.map Parsed.error = some none ∧
    t.wanted [0x5B, 0x31, 0x2C, 0x31, 0x5D] = 6 ∧
    (t.parse? [0x5B]).1 = none ∧
    ¬ ∀ (t : Tokenizer) (text part : Bytes) (whole : Parsed), (t.parse? text).1 = some whole →
      whole.error = none → part <+: text → ∃ cut, (t.parse? part).1 = some cut ∧
        ∀ e, cut.error = some e → e.BreaksOff part whole.tokens := by
  intro t
  have haccepted : (t.parse? [0x5B, 0x31, 0x2C, 0x31, 0x5D]).1.map Parsed.error = some none := by
    decide
  have hrefused : (t.parse? [0x5B]).1 = none := by decide
  refine ⟨haccepted, by decide, hrefused, ?_⟩
  intro h
  obtain ⟨whole, hwhole, herror⟩ := Option.map_eq_some_iff.1 haccepted
  obtain ⟨cut, hcut, -⟩ := h t _ [0x5B] whole hwhole herror ⟨[0x31, 0x2C, 0x31, 0x5D], rfl⟩
  rw [hrefused] at hcut
  cases hcut

end FlatJson
