import FlatJson.Proofs.Accepting

/-!
# What one byte can do

A byte goes on with the token that is being read, completes one, or is refused; the end of the
text completes a value or leaves something out.  Each case is said once here, with all that later
proofs need of it.

* `StringPart.Next`, `Lexeme.Next` — how a string, or any token, goes on with a byte.
* `State.Refuses` — why a byte is refused, and which place the error names.
* `State.Lacks` — what is missing at the end of the text, and which place the error names.

`State.read_cases`, `State.refuses_of_read` and `State.lacks_of_finish` say that there is no other
case.
-/

namespace FlatJson.Scan

variable {limits : Limits} {s s' : State} {b : UInt8}

/-! ## Settling -/

/-- A number that the next byte ends is emitted. -/
theorem State.settle_of_done {next : Option UInt8} {start : Nat} {part : NumberPart}
    (h : s.lexeme = .number start part) (hp : part.read next = .done) :
    s.settle next = (s.emit .number start (s.pos - start)).endValue := by
  simp only [State.settle, h, hp, if_true]

theorem State.settle_of_ne_done {next : Option UInt8} {start : Nat} {part : NumberPart}
    (h : s.lexeme = .number start part) (hp : part.read next ≠ .done) : s.settle next = s := by
  simp only [State.settle, h, hp, if_false]

theorem State.settle_pos (s : State) (next : Option UInt8) : (s.settle next).pos = s.pos := by
  unfold State.settle
  split
  · split <;> rfl
  · rfl

theorem State.settle_string {next : Option UInt8} {start : Nat} {part : StringPart}
    (h : (s.settle next).lexeme = .string start part) : s.lexeme = .string start part := by
  unfold State.settle at h
  split at h
  · split at h
    · cases h
    · rename_i hl _
      rw [hl] at h
      cases h
  · exact h

/-! ## Going on -/

/-- How a string goes on with a byte at a position. -/
inductive StringPart.Next (pos : Nat) (b : UInt8) : StringPart → StringPart → Prop
  | plain :
      b ≠ Byte.quote → b ≠ Byte.backslash → ¬ Byte.isControl b → StringPart.Next pos b .body .body
  | backslash : b = Byte.backslash → StringPart.Next pos b .body .escape
  | control : Byte.isControl b → StringPart.Next pos b .body (.tainted b pos)
  | short : isShortEscape b → StringPart.Next pos b .escape .body
  | unit : b = 0x75 → StringPart.Next pos b .escape (.digits (pos - 1) 4)
  | digit {backslash missing : Nat} :
      Byte.isHexDigit b → 1 < missing →
      StringPart.Next pos b (.digits backslash missing) (.digits backslash (missing - 1))
  | lastDigit {backslash missing : Nat} :
      Byte.isHexDigit b → missing ≤ 1 → StringPart.Next pos b (.digits backslash missing) .body
  | tainted {c : UInt8} {offset : Nat} :
      b ≠ Byte.quote → b ≠ Byte.backslash →
      StringPart.Next pos b (.tainted c offset) (.tainted c offset)

/-- How a byte at a position starts a token of several bytes, or goes on with one. -/
inductive Lexeme.Next (pos : Nat) (b : UInt8) : Lexeme → Lexeme → Prop
  | quote : b = Byte.quote → Lexeme.Next pos b .idle (.string pos .body)
  | number {part : NumberPart} :
      Lead.ofByte b = .number part → Lexeme.Next pos b .idle (.number pos part)
  | word {w : Keyword} :
      Lead.ofByte b = .word w → Lexeme.Next pos b .idle (.word pos w w.spelling.tail)
  | string {start : Nat} {part part' : StringPart} :
      part.Next pos b part' → Lexeme.Next pos b (.string start part) (.string start part')
  | digit {start : Nat} {part part' : NumberPart} :
      part.read (some b) = .more part' →
      Lexeme.Next pos b (.number start part) (.number start part')
  | letter {start : Nat} {w : Keyword} {later : Bytes} :
      later ≠ [] → Lexeme.Next pos b (.word start w (b :: later)) (.word start w later)

theorem State.endString_lexeme (s : State) (start : Nat) : (s.endString start).lexeme = .idle := by
  unfold State.endString
  split <;> rfl

/-- A byte of a string is its closing quote or goes on with it. -/
theorem State.inString_cases {start : Nat} {part : StringPart}
    (h : s.inString start part b = .ok s') :
    s'.lexeme = .idle ∨ Lexeme.Next s.pos b (.string start part) s'.lexeme := by
  cases part with
  | body =>
    simp only [State.inString] at h
    split at h
    · cases h
      exact .inl (s.endString_lexeme start)
    · rename_i hq
      refine .inr ?_
      split at h
      · rename_i hb
        cases h
        exact .string (.backslash (eq_of_beq hb))
      · rename_i hb
        split at h
        · rename_i hc
          cases h
          exact .string (.control hc)
        · rename_i hc
          cases h
          exact .string (.plain (by simpa using hq) (by simpa using hb) hc)
  | escape =>
    simp only [State.inString] at h
    refine .inr ?_
    split at h
    · rename_i hu
      cases h
      exact .string (.unit (eq_of_beq hu))
    · split at h
      · rename_i he
        cases h
        exact .string (.short he)
      · cases h
  | digits backslash missing =>
    simp only [State.inString] at h
    refine .inr ?_
    split at h
    · rename_i hx
      cases h
      by_cases hm : missing ≤ 1
      · rw [if_pos hm]
        exact .string (.lastDigit hx hm)
      · rw [if_neg hm]
        exact .string (.digit hx (Nat.lt_of_not_le hm))
    · cases h
  | tainted c offset =>
    simp only [State.inString] at h
    refine .inr ?_
    split at h
    · cases h
    · rename_i hq
      cases h
      simp only [Bool.or_eq_true, beq_iff_eq, not_or] at hq
      exact .string (.tainted hq.1 hq.2)

/-- A first byte is a token or blank, or it starts a token. -/
theorem State.start_cases (hl : s.lexeme = .idle) (h : s.start limits (Lead.ofByte b) = .ok s') :
    s'.lexeme = .idle ∨ Lexeme.Next s.pos b .idle s'.lexeme := by
  cases hb : Lead.ofByte b with
  | blank =>
    rw [hb] at h
    cases h
    exact .inl hl
  | opening k =>
    rw [hb] at h
    simp only [State.start, State.push] at h
    split at h
    · cases h
    · split at h
      · cases h
      · cases h
        exact .inl hl
  | closing k =>
    rw [hb] at h
    simp only [State.start, State.pop] at h
    split at h
    · cases h
    · split at h
      · cases h
      · split at h
        · cases h
          exact .inl rfl
        · cases h
  | comma =>
    rw [hb] at h
    simp only [State.start, State.comma] at h
    split at h
    · cases h
      exact .inl hl
    · cases h
  | colon =>
    rw [hb] at h
    simp only [State.start, State.colon] at h
    split at h
    · cases h
      exact .inl hl
    · cases h
  | quote =>
    have hq : b = Byte.quote := eq_of_beq ((Lead.ofByte_eq_iff (by simp) b).1 hb)
    rw [hb] at h
    simp only [State.start] at h
    split at h
    · cases h
      exact .inr (.quote hq)
    · cases h
  | number part =>
    rw [hb] at h
    simp only [State.start] at h
    split at h
    · cases h
      exact .inr (.number hb)
    · cases h
  | word w =>
    rw [hb] at h
    simp only [State.start] at h
    split at h
    · cases h
      exact .inr (.word hb)
    · cases h
  | other =>
    rw [hb] at h
    cases h

/-- The byte that ends a number is fed between tokens. -/
theorem State.read_done {start : Nat} {part : NumberPart} (h : s.lexeme = .number start part)
    (hp : part.read (some b) = .done) :
    s.read limits b =
      (s.emit .number start (s.pos - start)).endValue.start limits (Lead.ofByte b) := by
  rw [State.read, State.settle_of_done h hp, State.feed]
  rfl

/-- A number that goes on wrongly is refused where it does. -/
theorem State.read_wrong {start : Nat} {part : NumberPart} {expected : String}
    (h : s.lexeme = .number start part) (hp : part.read (some b) = .wrong expected) :
    s.read limits b = .error (.because (.malformedNumber expected) s.pos) := by
  have hset : s.settle (some b) = s := State.settle_of_ne_done h (by rw [hp]; exact nofun)
  simp only [State.read, hset, State.feed, h, hp]

/-- **A byte leads to a place between tokens, or goes on with the token that is being read after
a number before it is settled.** -/
theorem State.read_cases (h : s.read limits b = .ok s') :
    s'.lexeme = .idle ∨ Lexeme.Next s.pos b (s.settle (some b)).lexeme s'.lexeme := by
  cases hl : s.lexeme with
  | idle =>
    have hset : s.settle (some b) = s := by simp only [State.settle, hl]
    rw [State.read_idle hl] at h
    rw [hset, hl]
    exact State.start_cases hl h
  | string start part =>
    have hset : s.settle (some b) = s := by simp only [State.settle, hl]
    rw [State.read_string hl] at h
    rw [hset, hl]
    exact State.inString_cases h
  | number start part =>
    cases hp : part.read (some b) with
    | done =>
      rw [State.read_done hl hp] at h
      rw [State.settle_of_done hl hp]
      exact State.start_cases (s := (s.emit .number start (s.pos - start)).endValue) rfl h
    | more part' =>
      rw [State.read_number hl hp] at h
      cases h
      rw [State.settle_of_ne_done hl (by simp [hp]), hl]
      exact .inr (.digit hp)
    | wrong expected =>
      rw [State.read_wrong hl hp] at h
      cases h
  | word start w missing =>
    have hset : s.settle (some b) = s := by simp only [State.settle, hl]
    rw [State.read_word hl] at h
    rw [hset, hl]
    cases missing with
    | nil => cases h
    | cons next later =>
      simp only [State.inWord] at h
      split at h
      · rename_i hb
        subst hb
        split at h
        · cases h
          exact .inl rfl
        · rename_i hlater
          cases h
          exact .inr (.letter (by simpa using hlater))
      · cases h

/-! ## Refusing -/

/-- Why a byte is refused after what a state has read, with the place that the error names. -/
inductive State.Refuses (s : State) : Refusal → Prop
  | character (expected : String) : s.Refuses (.character expected)
  | depth (limit : Nat) : s.Refuses (.because (.depthLimitExceeded limit) s.pos)
  | bracket (found expected : Char) : s.Refuses (.because (.unbalancedBracket found expected) s.pos)
  | number (expected : String) : s.Refuses (.because (.malformedNumber expected) s.pos)
  | escape {start : Nat} : s.lexeme = .string start .escape → s.Refuses .escape
  | digits {start backslash missing : Nat} :
      s.lexeme = .string start (.digits backslash missing) →
      s.Refuses (.because .invalidUnicodeEscape backslash)
  | control {start offset : Nat} {c : UInt8} :
      s.lexeme = .string start (.tainted c offset) →
      s.Refuses (.because (.controlCharacter c) offset)

variable {refusal : Refusal}

theorem State.refuses_of_start {lead : Lead} (h : s.start limits lead = .error refusal) :
    s.Refuses refusal := by
  cases lead with
  | blank => cases h
  | opening k =>
    simp only [State.start, State.push] at h
    split at h
    · cases h
      exact .character _
    · split at h
      · cases h
        exact .depth _
      · cases h
  | closing k =>
    simp only [State.start, State.pop] at h
    split at h
    · cases h
      exact .character _
    · split at h
      · cases h
        exact .character _
      · split at h
        · cases h
        · cases h
          exact .bracket _ _
  | comma | colon | quote | number | word =>
    simp only [State.start, State.comma, State.colon] at h
    split at h
    · cases h
    · cases h
      exact .character _
  | other =>
    cases h
    exact .character _

theorem State.refuses_of_inString {start : Nat} {part : StringPart}
    (hl : s.lexeme = .string start part) (h : s.inString start part b = .error refusal) :
    s.Refuses refusal := by
  cases part with
  | body =>
    simp only [State.inString] at h
    split at h
    · cases h
    · split at h
      · cases h
      · split at h <;> cases h
  | escape =>
    simp only [State.inString] at h
    split at h
    · cases h
    · split at h
      · cases h
      · cases h
        exact .escape hl
  | digits backslash missing =>
    simp only [State.inString] at h
    split at h
    · cases h
    · cases h
      exact .digits hl
  | tainted c offset =>
    simp only [State.inString] at h
    split at h
    · cases h
      exact .control hl
    · cases h

/-- **The reason for which a byte is refused.** -/
theorem State.refuses_of_read (h : s.read limits b = .error refusal) : s.Refuses refusal := by
  cases hl : s.lexeme with
  | idle =>
    rw [State.read_idle hl] at h
    exact State.refuses_of_start h
  | string start part =>
    rw [State.read_string hl] at h
    exact State.refuses_of_inString hl h
  | number start part =>
    cases hp : part.read (some b) with
    | done =>
      rw [State.read_done hl hp] at h
      -- A number being settled changes no position, and no string is being read.
      cases State.refuses_of_start h with
      | character expected => exact .character expected
      | depth limit => exact .depth limit
      | bracket found expected => exact .bracket found expected
      | number expected => exact .number expected
      | escape hs | digits hs | control hs => cases hs
    | more part' =>
      rw [State.read_number hl hp] at h
      cases h
    | wrong expected =>
      rw [State.read_wrong hl hp] at h
      cases h
      exact .number expected
  | word start w missing =>
    rw [State.read_word hl] at h
    cases missing with
    | nil =>
      cases h
      exact .character _
    | cons next later =>
      simp only [State.inWord] at h
      split at h
      · split at h <;> cases h
      · cases h
        exact .character _

/-! ## Ending -/

/-- Whether no string is being read. -/
def State.OutsideString (s : State) : Prop :=
  ∀ start part, s.lexeme ≠ .string start part

/-- What is missing when the text ends after what a state has read, as the error for it. -/
inductive State.Lacks (s : State) : LexError → Prop
  | digits {start backslash missing : Nat} :
      s.lexeme = .string start (.digits backslash missing) →
      s.Lacks ⟨.invalidUnicodeEscape, backslash⟩
  | quote {start : Nat} {part : StringPart} :
      s.lexeme = .string start part → s.Lacks ⟨.unterminatedString, start⟩
  | bracket (expected : Char) (depth : Nat) :
      s.OutsideString → s.Lacks ⟨.unclosedBracket expected depth, s.pos⟩
  | more (expected : String) : s.OutsideString → s.Lacks ⟨.unexpectedEnd expected, s.pos⟩
  | number (expected : String) : s.OutsideString → s.Lacks ⟨.malformedNumber expected, s.pos⟩

variable {e : LexError}

theorem State.lacks_of_idle (hl : s.lexeme = .idle) (h : s.finish = some e) : s.Lacks e := by
  have hs : s.OutsideString := by
    intro start part
    rw [hl]
    exact nofun
  simp only [State.finish, hl] at h
  split at h
  · cases h
  · cases h
    exact .bracket _ _ hs
  · cases h
    exact .more _ hs

/-- **What is missing at the end of a text that is not accepted.** -/
theorem State.lacks_of_finish (h : (s.settle none).finish = some e) : s.Lacks e := by
  cases hl : s.lexeme with
  | idle =>
    have hset : s.settle none = s := by simp only [State.settle, hl]
    rw [hset] at h
    exact State.lacks_of_idle hl h
  | string start part =>
    have hset : s.settle none = s := by simp only [State.settle, hl]
    rw [hset] at h
    simp only [State.finish, hl] at h
    cases part with
    | digits backslash missing =>
      cases h
      exact .digits hl
    | body | escape | tainted =>
      cases h
      exact .quote hl
  | number start part =>
    have hs : s.OutsideString := by
      intro _ _
      simp [hl]
    rcases part.read_none with hp | ⟨expected, hp⟩
    · rw [State.settle_of_done hl hp] at h
      cases State.lacks_of_idle rfl h with
      | bracket expected depth => exact .bracket expected depth hs
      | more expected => exact .more expected hs
      | number expected => exact .number expected hs
      | digits hs | quote hs => cases hs
    · rw [State.settle_of_ne_done hl (by simp [hp])] at h
      simp only [State.finish, hl, hp] at h
      cases h
      exact .number expected hs
  | word start w missing =>
    have hset : s.settle none = s := by simp only [State.settle, hl]
    rw [hset] at h
    simp only [State.finish, hl] at h
    cases h
    exact .more _ (fun _ _ => by simp [hl])

end FlatJson.Scan
