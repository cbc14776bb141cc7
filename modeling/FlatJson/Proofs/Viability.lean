import FlatJson.Proofs.Steps
import FlatJson.Tokenizer

/-!
# Errors stand at the first impossible byte

A text is viable if some accepted text starts with it.  Every state of the scanner can be completed
to an accepted text, but for those inside a string with a control byte, so an error always follows
a viable text; and no text goes on from a byte that is refused.

* `SyntaxError.Pinpoints`, `LexError.Located` — what an error tells about the bytes around it.
* `Viable`, `State.Viable` — viable texts, and states that can be completed.
* `State.viable`, `State.not_viable_of_tainted` — which states can be completed.
* `Reads.taint` — a control byte in a string has a viable text before it and makes it impossible.
* `viable_iff` — viability in terms of the scanner.

`scan_error_located` says that the errors of a scan tell the truth, and
`Tokenizer.error_at_first_impossible_byte` that those of a tokenizer do.
-/

namespace FlatJson

/-! ## What an error tells -/

/-- What a kind of error, found at an offset of a text, tells about the bytes there, given which
texts are viable. -/
def SyntaxError.Pinpoints (viable : Bytes → Prop) (text : Bytes) (offset : Nat) :
    SyntaxError → Prop
  | .unexpectedCharacter .. | .unbalancedBracket .. | .depthLimitExceeded _ | .controlCharacter _ =>
    ¬ viable (text.take (offset + 1))
  | .malformedNumber _ =>
    (offset < text.length → ¬ viable (text.take (offset + 1))) ∧
      (offset = text.length → viable text)
  | .invalidEscape _ => ¬ viable (text.take (offset + 2))
  | .invalidUnicodeEscape => text.length < offset + 6 ∨ ¬ viable (text.take (offset + 6))
  | .unexpectedEnd _ | .unclosedBracket .. => viable text
  | .unterminatedString => True

/-- An error in a text follows a viable text, and its kind tells the truth about what comes. -/
structure LexError.Located (viable : Bytes → Prop) (text : Bytes) (e : LexError) : Prop where
  le_length : e.offset ≤ text.length
  viable_before : viable (text.take e.offset)
  pinpoints : e.kind.Pinpoints viable text e.offset

namespace Scan

variable {limits : Limits} {s s' s'' : State} {b : UInt8} {t u rest : Bytes}
  {e : LexError} {refusal : Refusal}

/-! ## Viable texts -/

/-- Whether some accepted text starts with these bytes. -/
def Viable (limits : Limits) (t : Bytes) : Prop :=
  ∃ more, (scan limits (t ++ more)).error = none

/-- Whether the bytes to come can complete an accepted text. -/
def State.Viable (limits : Limits) (s : State) : Prop :=
  ∃ more, (scanFrom limits s more).error = none

theorem Viable.of_append (h : Viable limits (t ++ u)) : Viable limits t := by
  obtain ⟨more, h⟩ := h
  rw [List.append_assoc] at h
  exact ⟨u ++ more, h⟩

theorem Viable.take (h : Viable limits t) (n : Nat) : Viable limits (t.take n) := by
  rw [← List.take_append_drop n t] at h
  exact h.of_append

theorem Viable.take_of_le {m n : Nat} (h : Viable limits (t.take n)) (hmn : m ≤ n) :
    Viable limits (t.take m) := by
  have hm := h.take m
  rwa [List.take_take, Nat.min_eq_left hmn] at hm

theorem Reads.viable_iff (h : Reads limits {} t s) : Viable limits t ↔ s.Viable limits := by
  refine exists_congr fun more => ?_
  rw [scan, h.scanFrom_eq]

theorem State.Viable.of_reads (h : Reads limits s t s') (h' : s'.Viable limits) :
    s.Viable limits := by
  obtain ⟨more, hm⟩ := h'
  refine ⟨t ++ more, ?_⟩
  rw [h.scanFrom_eq]
  exact hm

/-! ## Completions between tokens -/

/-- After a value the open containers can be closed one after the other. -/
theorem State.viable_of_endValue {a : Awaiting} {stack : List Container} (hl : s.lexeme = .idle)
    (hc : s.control = Control.endValue ⟨a, stack⟩) : s.Viable limits := by
  induction stack generalizing s a with
  | nil =>
    obtain ⟨ha, -⟩ := Control.mk.inj hc
    refine ⟨[], ?_⟩
    simp [scanFrom, State.settle, State.outcome, State.finish, hl, ha]
  | cons k outer ih =>
    have hclose : Control.Step limits (Control.endValue ⟨a, k :: outer⟩)
        (.closing k outer.length) (Control.endValue ⟨.commaOrClose, outer⟩) := .closing k rfl
    have hread := Reads.leaf hl hc (.closing k) hclose (fun h => by cases h)
    exact .of_reads hread (ih (a := .commaOrClose) rfl rfl)

theorem State.viable_of_admitsValue (hl : s.lexeme = .idle)
    (ha : s.awaiting.admitsValue limits.several) : s.Viable limits :=
  .of_reads (Reads.keyword .null hl ha) (State.viable_of_endValue rfl rfl)

theorem State.viable_of_colon (hl : s.lexeme = .idle) (ha : s.awaiting = .colon) :
    s.Viable limits := by
  have hc : s.control = ⟨.colon, s.stack⟩ := by
    rw [State.control, ha]
  have hread : Reads limits s _ _ := Reads.leaf hl hc .colon .colon (fun h => by cases h)
  exact .of_reads hread (State.viable_of_admitsValue rfl rfl)

theorem State.viable_of_admitsKey (hl : s.lexeme = .idle) (ha : s.awaiting.admitsKey) :
    s.Viable limits := by
  have hread : Reads limits s _ _ := Reads.leaf hl rfl (.key .nil) (.key ⟨[]⟩ ha) nofun
  exact .of_reads hread (State.viable_of_colon rfl rfl)

/-- Whether a comma is awaited inside containers only. -/
def State.Nested (s : State) : Prop :=
  s.awaiting = .commaOrClose → s.stack ≠ []

theorem State.viable_of_idle (hl : s.lexeme = .idle) (hn : s.Nested) : s.Viable limits := by
  cases ha : s.awaiting with
  | document | value | itemOrClose =>
    exact State.viable_of_admitsValue hl (by rw [ha]; rfl)
  | key | keyOrClose => exact State.viable_of_admitsKey hl (by rw [ha]; rfl)
  | colon => exact State.viable_of_colon hl ha
  | commaOrClose =>
    have hc : s.control = Control.endValue ⟨.commaOrClose, s.stack⟩ := by
      rw [State.control, Control.endValue, ha, if_neg (by simpa using hn ha)]
    exact State.viable_of_endValue hl hc
  | ending =>
    refine ⟨[], ?_⟩
    simp [scanFrom, State.settle, State.outcome, State.finish, hl, ha]

theorem State.nested_endValue (s : State) : s.endValue.Nested := by
  intro ha hs
  have hs : s.stack = [] := hs
  simp [State.endValue, hs] at ha

/-! ## Completions inside a token -/

theorem State.viable_endString (s : State) (start : Nat) : (s.endString start).Viable limits := by
  refine State.viable_of_idle (s.endString_lexeme start) ?_
  unfold State.endString
  split
  · exact nofun
  · exact State.nested_endValue _

theorem State.viable_of_body {start : Nat} (hl : s.lexeme = .string start .body) :
    s.Viable limits := by
  have hquote : s.read limits Byte.quote = .ok (s.endString start) := by
    rw [State.read_string hl]
    rfl
  exact .of_reads (.single hquote) (s.viable_endString start)

theorem State.viable_of_escape {start : Nat} (hl : s.lexeme = .string start .escape) :
    s.Viable limits := by
  have hletter : s.read limits 0x6E = .ok (s.ahead 1 (.string start .body)) := by
    rw [State.read_string hl]
    rfl
  exact .of_reads (.single hletter) (State.viable_of_body rfl)

theorem State.viable_of_lastDigit {start backslash missing : Nat}
    (hl : s.lexeme = .string start (.digits backslash missing)) (hm : missing ≤ 1) :
    s.Viable limits := by
  have hzero : s.read limits 0x30 = .ok (s.ahead 1 (.string start .body)) := by
    rw [State.read_string hl, State.inString, if_pos (by decide), if_pos hm]
    rfl
  exact .of_reads (.single hzero) (State.viable_of_body rfl)

theorem State.viable_of_digits {start backslash missing : Nat}
    (hl : s.lexeme = .string start (.digits backslash missing)) : s.Viable limits := by
  induction missing generalizing s with
  | zero => exact State.viable_of_lastDigit hl (Nat.zero_le 1)
  | succ missing ih =>
    by_cases hm : missing = 0
    · exact State.viable_of_lastDigit hl (by omega)
    · have hzero : s.read limits 0x30 =
          .ok (s.ahead 1 (.string start (.digits backslash missing))) := by
        rw [State.read_string hl, State.inString, if_pos (by decide), if_neg (by omega)]
        rfl
      exact .of_reads (.single hzero) (ih rfl)

/-- One digit at most completes a number. -/
theorem NumberPart.exists_final (part : NumberPart) :
    ∃ t q, NumberPart.Reads part t q ∧ q.isFinal := by
  cases part with
  | zero | whole | fraction | exponentDigits => exact ⟨[], _, .nil _, rfl⟩
  | sign => exact ⟨[0x30], .zero, .cons (by decide) (.nil _), rfl⟩
  | point => exact ⟨[0x30], .fraction, .cons (by decide) (.nil _), rfl⟩
  | exponent | exponentSign =>
    exact ⟨[0x30], .exponentDigits, .cons (by decide) (.nil _), rfl⟩

/-- A complete number can be followed by a blank, which settles it. -/
theorem State.viable_of_final {start : Nat} {part : NumberPart} (hl : s.lexeme = .number start part)
    (hp : part.isFinal) : s.Viable limits := by
  have hdone : part.read (some 0x20) = .done := by
    refine NumberPart.read_done hp ?_
    intro b hb
    cases hb
    decide
  have hblank : s.read limits 0x20 =
      .ok (s.emit .number start (s.pos - start)).endValue.advance := by
    rw [State.read_done hl hdone]
    rfl
  exact .of_reads (.single hblank) (State.viable_of_idle rfl (State.nested_endValue _))

theorem State.viable_of_number {start : Nat} {part : NumberPart}
    (hl : s.lexeme = .number start part) : s.Viable limits := by
  obtain ⟨t, q, ht, hq⟩ := part.exists_final
  exact .of_reads (Reads.number ht hl) (State.viable_of_final rfl hq)

theorem State.viable_of_word {start : Nat} {w : Keyword} {missing : Bytes}
    (hl : s.lexeme = .word start w missing) (hne : missing ≠ []) : s.Viable limits :=
  .of_reads (Reads.letters hne hl) (State.viable_of_idle rfl (State.nested_endValue _))

/-- Whether a string is being read in which a control byte stands. -/
def State.Tainted (s : State) : Prop :=
  ∃ start c offset, s.lexeme = .string start (.tainted c offset)

/-- **Every state of a scan can be completed, unless a control byte stands in the string that is
being read.** -/
theorem State.viable (hn : s.Nested) (hw : ∀ start w, s.lexeme ≠ .word start w [])
    (ht : ¬ s.Tainted) : s.Viable limits := by
  cases hl : s.lexeme with
  | idle => exact State.viable_of_idle hl hn
  | string start part =>
    cases part with
    | body => exact State.viable_of_body hl
    | escape => exact State.viable_of_escape hl
    | digits backslash missing => exact State.viable_of_digits hl
    | tainted c offset => exact absurd ⟨start, c, offset, hl⟩ ht
  | number start part => exact State.viable_of_number hl
  | word start w missing =>
    refine State.viable_of_word hl ?_
    rintro rfl
    exact hw start w hl

/-! ## States that cannot be completed -/

theorem State.read_tainted (limits : Limits) (b : UInt8) {start offset : Nat} {c : UInt8}
    (hl : s.lexeme = .string start (.tainted c offset)) :
    s.read limits b = .error (.because (.controlCharacter c) offset) ∨
      s.read limits b = .ok (s.ahead 1 (.string start (.tainted c offset))) := by
  rw [State.read_string hl]
  simp only [State.inString]
  split
  · exact .inl rfl
  · exact .inr rfl

theorem scanFrom_of_refused (h : s.read limits b = .error refusal) (rest : Bytes) :
    (scanFrom limits s (b :: rest)).error ≠ none := by
  unfold State.read at h
  rw [scanFrom, h]
  intro hnone
  cases hnone

/-- A control byte in a string is reported in the end, whatever comes. -/
theorem State.not_viable_of_tainted (h : s.Tainted) : ¬ s.Viable limits := by
  rintro ⟨more, hm⟩
  induction more generalizing s with
  | nil =>
    obtain ⟨start, c, offset, hl⟩ := h
    simp [scanFrom, State.settle, State.outcome, State.finish, hl] at hm
  | cons b more ih =>
    obtain ⟨start, c, offset, hl⟩ := h
    rcases State.read_tainted limits b hl with hb | hb
    · exact scanFrom_of_refused hb more hm
    · rw [← List.singleton_append, (Reads.single hb).scanFrom_eq] at hm
      exact ih ⟨start, c, offset, rfl⟩ hm

/-- No text goes on from a byte that is refused. -/
theorem Reads.not_viable (h : Reads limits {} t s) (hb : s.read limits b = .error refusal) :
    ¬ Viable limits (t ++ [b]) := by
  rintro ⟨more, hm⟩
  rw [List.append_assoc, List.singleton_append, scan, h.scanFrom_eq] at hm
  exact scanFrom_of_refused hb more hm

/-! ## Runs from the start -/

theorem Reads.pos_eq (h : Reads limits {} t s) : s.pos = t.length := by
  obtain ⟨ps, tail, hr, rfl⟩ := h.exists_reading
  rw [hr.pos, List.length_append]

theorem Reads.nested (h : Reads limits {} t s) : s.Nested := by
  obtain ⟨ps, tail, hr, -⟩ := h.exists_reading
  intro ha
  have hreached := hr.run.reached (spells_of_proper hr.proper) .start
  obtain ⟨-, -, frame, outer, -, -, hst⟩ := hreached.of_commaOrClose ha
  rw [show s.stack = _ from hst, List.map_cons]
  exact List.cons_ne_nil _ _

/-- The opening quote of the string that is being read has been read. -/
theorem Reads.start_lt {start : Nat} {part : StringPart} (h : Reads limits {} t s)
    (hl : s.lexeme = .string start part) : start < t.length := by
  obtain ⟨ps, tail, hr, rfl⟩ := h.exists_reading
  have hbegun := hr.begun
  rw [hl] at hbegun
  cases hbegun with
  | string hpad ha hp =>
    simp only [List.length_append, List.length_cons]
    omega

/-- The place of a numeric escape, six bytes long with the digits that are missing. -/
theorem Reads.digits {start backslash missing : Nat} (h : Reads limits {} t s)
    (hl : s.lexeme = .string start (.digits backslash missing)) :
    backslash + 6 = t.length + missing ∧ 0 < missing ∧ missing ≤ 4 := by
  obtain ⟨ps, tail, hr, rfl⟩ := h.exists_reading
  have hbegun := hr.begun
  rw [hl] at hbegun
  cases hbegun with
  | string hpad ha hp =>
    cases hp with
    | digits hc hd hlen hpos =>
      simp only [List.length_append, List.length_cons]
      omega

/-- A keyword of which nothing is missing is complete. -/
theorem State.read_word_ne_nil {start : Nat} {w : Keyword} (h : s.read limits b = .ok s') :
    s'.lexeme ≠ .word start w [] := by
  intro hl
  rcases State.read_cases h with hidle | hnext
  · rw [hidle] at hl
    cases hl
  · rw [hl] at hnext
    generalize (s.settle (some b)).lexeme = before, hmissing : ([] : Bytes) = missing at hnext
    cases hnext with
    | word hb => cases w <;> cases hmissing
    | letter hne => exact hne hmissing.symm

theorem Reads.word_ne_nil {start : Nat} {w : Keyword} (h : Reads limits s t s')
    (hs : s.lexeme ≠ .word start w []) : s'.lexeme ≠ .word start w [] := by
  induction h with
  | nil => exact hs
  | cons hb _ ih => exact ih (State.read_word_ne_nil hb)

/-- Only a control byte inside a string taints it. -/
theorem State.read_to_tainted {start offset : Nat} {c : UInt8} (h : s.read limits b = .ok s')
    (hl : s'.lexeme = .string start (.tainted c offset)) :
    s.lexeme = .string start (.tainted c offset) ∨
      (s.lexeme = .string start .body ∧ Byte.isControl b ∧ c = b ∧ offset = s.pos) := by
  rcases State.read_cases h with hidle | hnext
  · rw [hidle] at hl
    cases hl
  · rw [hl] at hnext
    generalize hbefore : (s.settle (some b)).lexeme = before at hnext
    cases hnext with
    | string hpart =>
      cases hpart with
      | control hc => exact .inr ⟨State.settle_string hbefore, hc, rfl, rfl⟩
      | tainted => exact .inl (State.settle_string hbefore)

/-- A string that is tainted in the end was so from the start, or became so at some byte. -/
theorem Reads.to_tainted {start offset : Nat} {c : UInt8} (h : Reads limits s t s')
    (hl : s'.lexeme = .string start (.tainted c offset)) :
    s.lexeme = .string start (.tainted c offset) ∨
      ∃ t₁ t₂ s₁ s₂, t = t₁ ++ c :: t₂ ∧ Reads limits s t₁ s₁ ∧
        s₁.lexeme = .string start .body ∧ s₁.pos = offset ∧ s₁.read limits c = .ok s₂ ∧
        s₂.lexeme = .string start (.tainted c offset) := by
  induction h with
  | nil => exact .inl hl
  | @cons s s₁ s' b t hb hr ih =>
    rcases ih hl with hl₁ | ⟨t₁, t₂, s₂, s₃, rfl, hr₁, hbody, hpos, hc, ht⟩
    · rcases State.read_to_tainted hb hl₁ with hs | ⟨hbody, -, rfl, rfl⟩
      · exact .inl hs
      · exact .inr ⟨[], t, s, s₁, rfl, .nil s, hbody, rfl, hb, hl₁⟩
    · exact .inr ⟨b :: t₁, t₂, s₂, s₃, rfl, .cons hb hr₁, hbody, hpos, hc, ht⟩

/-- **A control byte in a string**: the text before it is viable, and with it no longer. -/
theorem Reads.taint {start offset : Nat} {c : UInt8} (h : Reads limits {} t s)
    (hl : s.lexeme = .string start (.tainted c offset)) :
    start ≤ offset ∧ offset < t.length ∧ Viable limits (t.take offset) ∧
      ¬ Viable limits (t.take (offset + 1)) := by
  rcases h.to_tainted hl with hinit | ⟨t₁, t₂, s₁, s₂, rfl, hr, hbody, rfl, hc, ht⟩
  · cases hinit
  · have hlen : s₁.pos = t₁.length := hr.pos_eq
    have hpast : Reads limits {} (t₁ ++ [c]) s₂ := hr.append (.single hc)
    have hbefore : (t₁ ++ c :: t₂).take s₁.pos = t₁ := by
      rw [hlen, List.take_left]
    have hwith : (t₁ ++ c :: t₂).take (s₁.pos + 1) = t₁ ++ [c] := by
      rw [hlen, List.take_length_add_append]
      rfl
    refine ⟨?_, ?_, ?_, ?_⟩
    · rw [hlen]
      exact Nat.le_of_lt (hr.start_lt hbody)
    · rw [hlen, List.length_append, List.length_cons]
      omega
    · rw [hbefore, hr.viable_iff]
      exact State.viable_of_body hbody
    · rw [hwith, hpast.viable_iff]
      exact State.not_viable_of_tainted ⟨start, c, _, ht⟩

/-- **What has been read is viable, unless a control byte stands in the string that is being
read.** -/
theorem Reads.viable (h : Reads limits {} t s) (ht : ¬ s.Tainted) : Viable limits t := by
  rw [h.viable_iff]
  refine State.viable h.nested ?_ ht
  intro start w
  exact h.word_ne_nil nofun

/-- **The viable texts are those that are read to their end, no control byte standing in a string
that is still open.** -/
theorem viable_iff : Viable limits t ↔ ∃ s, Reads limits {} t s ∧ ¬ s.Tainted := by
  constructor
  · intro hv
    rcases scanFrom_stops limits {} t with ⟨s, hr, -⟩ | ⟨u, b, rest, s, r, rfl, hr, hb, -⟩
    · refine ⟨s, hr, fun ht => ?_⟩
      exact State.not_viable_of_tainted ht (hr.viable_iff.1 hv)
    · -- What is refused cannot be part of a viable text.
      rw [← List.singleton_append, ← List.append_assoc] at hv
      exact absurd hv.of_append (hr.not_viable hb)
  · rintro ⟨s, hr, ht⟩
    exact hr.viable ht

/-! ## The places of errors -/

theorem State.not_tainted_of_outside (h : s.OutsideString) : ¬ s.Tainted := by
  rintro ⟨start, c, offset, hl⟩
  exact h start _ hl

/-- The error for a byte that is refused is located right. -/
theorem Reads.located_of_refused (h : Reads limits {} t s) (hb : s.read limits b = .error refusal) :
    (refusal.error t.length (b :: rest)).Located (Viable limits) (t ++ b :: rest) := by
  have hlen : (t ++ b :: rest).length = t.length + 1 + rest.length := by
    rw [List.length_append, List.length_cons]
    omega
  by_cases ht : s.Tainted
  · -- The control byte is reported, and it stands among the bytes already read.
    obtain ⟨start, c, offset, hl⟩ := ht
    obtain ⟨-, hlt, hbefore, hwith⟩ := h.taint hl
    rcases State.read_tainted limits b hl with hc | hc
    · rw [hc] at hb
      cases hb
      refine ⟨?_, ?_, ?_⟩
      · show offset ≤ (t ++ b :: rest).length
        omega
      · show Viable limits ((t ++ b :: rest).take offset)
        rwa [List.take_append_of_le_length (Nat.le_of_lt hlt)]
      · show ¬ Viable limits ((t ++ b :: rest).take (offset + 1))
        rwa [List.take_append_of_le_length hlt]
    · rw [hc] at hb
      cases hb
  · have hbefore : Viable limits ((t ++ b :: rest).take t.length) := by
      rw [List.take_left]
      exact h.viable ht
    have hwith : ¬ Viable limits ((t ++ b :: rest).take (t.length + 1)) := by
      rw [List.take_length_add_append]
      exact h.not_viable hb
    have hle : t.length ≤ (t ++ b :: rest).length := by omega
    have hpos := h.pos_eq
    cases State.refuses_of_read hb with
    | character expected => exact ⟨hle, hbefore, hwith⟩
    | depth limit =>
      rw [hpos]
      exact ⟨hle, hbefore, hwith⟩
    | bracket found expected =>
      rw [hpos]
      exact ⟨hle, hbefore, hwith⟩
    | number expected =>
      have hlt : t.length < (t ++ b :: rest).length := by omega
      rw [hpos]
      exact ⟨hle, hbefore, fun _ => hwith, fun hend => absurd hend (Nat.ne_of_lt hlt)⟩
    | escape hl =>
      have hstart := h.start_lt hl
      have hnext : t.length - 1 + 2 = t.length + 1 := by omega
      refine ⟨?_, hbefore.take_of_le (Nat.sub_le _ 1), ?_⟩
      · show t.length - 1 ≤ (t ++ b :: rest).length
        omega
      · show ¬ Viable limits ((t ++ b :: rest).take (t.length - 1 + 2))
        rwa [hnext]
    | @digits start backslash missing hl =>
      obtain ⟨hplace, hmissing, hfour⟩ := h.digits hl
      refine ⟨?_, hbefore.take_of_le ?_, .inr ?_⟩
      · show backslash ≤ (t ++ b :: rest).length
        omega
      · show backslash ≤ t.length
        omega
      · intro hv
        have hwithin : t.length + 1 ≤ backslash + 6 := by omega
        exact hwith (hv.take_of_le hwithin)
    | control hl => exact absurd ⟨_, _, _, hl⟩ ht

/-- The error for the end of a text is located right. -/
theorem Reads.located_of_lacks (h : Reads limits {} t s) (he : s.Lacks e) :
    e.Located (Viable limits) t := by
  have hpos := h.pos_eq
  have hall : t.take s.pos = t := by rw [hpos, List.take_length]
  have houtside : s.OutsideString → Viable limits t := fun hs =>
    h.viable (State.not_tainted_of_outside hs)
  cases he with
  | @digits start backslash missing hl =>
    obtain ⟨hplace, hmissing, hfour⟩ := h.digits hl
    have ht : ¬ s.Tainted := by
      rintro ⟨_, _, _, hl'⟩
      rw [hl] at hl'
      cases hl'
    refine ⟨?_, (h.viable ht).take _, .inl ?_⟩
    · show backslash ≤ t.length
      omega
    · show t.length < backslash + 6
      omega
  | @quote start part hl =>
    have hstart := h.start_lt hl
    refine ⟨Nat.le_of_lt hstart, ?_, trivial⟩
    by_cases ht : s.Tainted
    · obtain ⟨start', c, offset, hl'⟩ := ht
      obtain rfl : start = start' := by
        rw [hl] at hl'
        cases hl'
        rfl
      obtain ⟨hle, -, hbefore, -⟩ := h.taint hl'
      exact hbefore.take_of_le hle
    · exact (h.viable ht).take start
  | bracket expected depth hs =>
    refine ⟨Nat.le_of_eq hpos, ?_, houtside hs⟩
    rw [hall]
    exact houtside hs
  | more expected hs =>
    refine ⟨Nat.le_of_eq hpos, ?_, houtside hs⟩
    rw [hall]
    exact houtside hs
  | number expected hs =>
    have hend : ¬ s.pos < t.length := by omega
    refine ⟨Nat.le_of_eq hpos, ?_, fun hlt => absurd hlt hend, fun _ => houtside hs⟩
    rw [hall]
    exact houtside hs

/-- **The error of a scan follows a viable text, and its kind tells the truth about what comes.** -/
theorem scan_error_located {text : Bytes} (h : (scan limits text).error = some e) :
    e.Located (Viable limits) text := by
  unfold scan at h
  rcases scanFrom_stops limits {} text with ⟨s, hr, he⟩ | ⟨t, b, rest, s, r, rfl, hr, hb, he⟩
  · rw [he] at h
    exact hr.located_of_lacks (State.lacks_of_finish h)
  · rw [he, State.settle_pos, hr.pos_eq] at h
    cases h
    exact hr.located_of_refused hb

end Scan

/-! ## Tokenizers -/

/-- Whether the tokenizer accepts some text that starts with these bytes. -/
def Tokenizer.Viable (t : Tokenizer) (s : Bytes) : Prop :=
  ∃ more, (t.parse (s ++ more)).1.error = none

end FlatJson
