import FlatJson.Proofs.Shifting

/-!
# Texts one after the other

Where several values may follow each other, a text that comes after an accepted one and a blank is
scanned as it is alone.  All that tells the two apart is what is awaited before its first value: the
first value of all, or one more.

* `State.again` — the state in which one more value is awaited where the first was.
* `LexError.Moved` — the error of a text that comes after others.

`State.read_again` is about one byte, `scanFrom_again` about a whole text, and
`Tokenizer.parse?_append` about a tokenizer.
-/

namespace FlatJson

/-- The error of a text alone, and `n` bytes further on after others: the same, but for what is
expected at the first byte of the text that is not blank. -/
inductive LexError.Moved (n : Nat) (text : Bytes) : (alone after : LexError) → Prop
  | same (e : LexError) : LexError.Moved n text e (e.shift n)
  | first (found : Char) (expected expected' : String) :
      LexError.Moved n text
        ⟨.unexpectedCharacter found expected, (text.takeWhile Byte.isBlank).length⟩
        ⟨.unexpectedCharacter found expected', (text.takeWhile Byte.isBlank).length + n⟩

namespace Scan

variable {limits : Limits} {s s' : State} {b : UInt8} {t text : Bytes}

/-! ## One more value -/

/-- Awaiting one more value where the first was awaited. -/
def Awaiting.again : Awaiting → Awaiting
  | .document => .ending
  | a => a

def State.again (s : State) : State := { s with awaiting := s.awaiting.again }

theorem State.again_of_ne (h : s.awaiting ≠ .document) : s.again = s := by
  have ha : s.awaiting.again = s.awaiting := by
    cases ha : s.awaiting with
    | document => exact absurd ha h
    | _ => rfl
  rw [State.again, ha]

theorem State.again_awaiting (h : s.awaiting = .document) : s.again.awaiting = .ending := by
  rw [State.again, h]
  rfl

/-- The effects of a byte where the first value is awaited, and where one more is: the same, but
for what is awaited then or, where a token was to start, for what is said to be expected. -/
inductive AgainEffect (s : State) (b : UInt8) : (first again : Except Refusal State) → Prop
  | same (r : Except Refusal State) : AgainEffect s b r r
  | blank :
      s.lexeme = .idle → s.awaiting = .document → Byte.isBlank b →
      AgainEffect s b (.ok s.advance) (.ok s.advance.again)
  | inside (s' : State) : s'.lexeme ≠ .idle → AgainEffect s b (.ok s') (.ok s'.again)
  | character (expected expected' : String) :
      s.lexeme = .idle → s.awaiting = .document → ¬ Byte.isBlank b →
      AgainEffect s b (.error (.character expected)) (.error (.character expected'))

theorem State.start_again (hs : limits.several) (ha : s.awaiting = .document)
    (hl : s.lexeme = .idle) (b : UInt8) :
    AgainEffect s b (s.start limits (Lead.ofByte b)) (s.again.start limits (Lead.ofByte b)) := by
  have hagain := State.again_awaiting ha
  have hfirst : s.awaiting.admitsValue limits.several = true := by
    rw [ha]
    rfl
  have hvalue : s.again.awaiting.admitsValue limits.several = true := by
    rw [hagain]
    exact hs
  have hrefused (h : Lead.ofByte b ≠ .blank) :
      AgainEffect s b (.error s.unexpected) (.error s.again.unexpected) := by
    refine .character _ _ hl ha ?_
    intro hblank
    exact h (Lead.ofByte_of_starts hblank)
  cases hb : Lead.ofByte b with
  | blank => exact .blank hl ha ((Lead.ofByte_eq_iff (by simp) b).1 hb)
  | opening c =>
    have hpush : s.again.push limits c = s.push limits c := by
      simp only [State.push, hfirst, hvalue]
      rfl
    simp only [State.start, hpush]
    exact .same _
  | closing c =>
    have hpop : ∀ s : State, s.awaiting.admitsClose = false → s.pop c = .error s.unexpected := by
      intro s hclose
      unfold State.pop
      split
      · rfl
      · rw [hclose]
        rfl
    simp only [State.start, hpop s (by rw [ha]; rfl), hpop s.again (by rw [hagain]; rfl)]
    exact hrefused (by simp [hb])
  | comma | colon =>
    simp only [State.start, State.comma, State.colon, ha, hagain, reduceCtorEq, if_false]
    exact hrefused (by simp [hb])
  | quote =>
    simp only [State.start, hfirst, hvalue, Bool.or_true, if_true]
    exact .inside _ (fun h => by cases h)
  | number part | word w =>
    simp only [State.start, hfirst, hvalue, if_true]
    exact .inside _ (fun h => by cases h)
  | other => exact hrefused (by simp [hb])

theorem State.inString_again (ha : s.awaiting = .document) (start : Nat) (part : StringPart)
    (b : UInt8) :
    AgainEffect s b (s.inString start part b) (s.again.inString start part b) := by
  have hend : s.again.endString start = s.endString start := by
    simp only [State.endString, State.again_awaiting ha, ha, Awaiting.admitsKey]
    rfl
  cases part with
  | body =>
    simp only [State.inString]
    split
    · rw [hend]
      exact .same _
    · split
      · exact .inside _ (fun h => by cases h)
      · split <;> exact .inside _ (fun h => by cases h)
  | escape =>
    simp only [State.inString]
    split
    · exact .inside _ (fun h => by cases h)
    · split
      · exact .inside _ (fun h => by cases h)
      · exact .same _
  | digits backslash missing =>
    simp only [State.inString]
    split
    · exact .inside _ (fun h => by cases h)
    · exact .same _
  | tainted c offset =>
    simp only [State.inString]
    split
    · exact .same _
    · exact .inside _ (fun h => by cases h)

theorem State.inWord_again (s : State) (start : Nat) (w : Keyword) (missing : Bytes) (b : UInt8) :
    AgainEffect s b (s.inWord start w missing b) (s.again.inWord start w missing b) := by
  cases missing with
  | nil => exact .same _
  | cons next later =>
    simp only [State.inWord]
    split
    · split
      · exact .same _
      · exact .inside _ (fun h => by cases h)
    · exact .same _

/-- **Whether a value is the first or one more makes no difference to a byte, but for what is
expected where a token was to start.** -/
theorem State.read_again (hs : limits.several) (s : State) (b : UInt8) :
    AgainEffect s b (s.read limits b) (s.again.read limits b) := by
  by_cases ha : s.awaiting = .document
  · cases hl : s.lexeme with
    | idle =>
      have hl' : s.again.lexeme = .idle := hl
      rw [State.read_idle hl, State.read_idle hl']
      exact State.start_again hs ha hl b
    | string start part =>
      have hl' : s.again.lexeme = .string start part := hl
      rw [State.read_string hl, State.read_string hl']
      exact State.inString_again ha start part b
    | number start part =>
      have hl' : s.again.lexeme = .number start part := hl
      cases hp : part.read (some b) with
      | done =>
        -- The number is complete, so in both cases one more value is awaited.
        rw [State.read_done hl hp, State.read_done hl' hp]
        exact .same _
      | more part' =>
        rw [State.read_number hl hp, State.read_number hl' hp]
        exact .inside _ nofun
      | wrong expected =>
        rw [State.read_wrong hl hp, State.read_wrong hl' hp]
        exact .same _
    | word start w missing =>
      have hl' : s.again.lexeme = .word start w missing := hl
      rw [State.read_word hl, State.read_word hl']
      exact s.inWord_again start w missing b
  · rw [State.again_of_ne ha]
    exact .same _

/-! ## Whole texts -/

@[simp]
theorem State.again_pos (s : State) : s.again.pos = s.pos := rfl

/-- A number that ends has one more value awaited after it in any case, and nothing else is
settled. -/
theorem State.settle_again (s : State) (next : Option UInt8) :
    s.again.settle next = s.settle next ∨ (s.again.settle next = s.again ∧ s.settle next = s) := by
  cases hl : s.lexeme with
  | number start part =>
    have hl' : s.again.lexeme = .number start part := hl
    by_cases hp : part.read next = .done
    · rw [State.settle_of_done hl hp, State.settle_of_done hl' hp]
      exact .inl rfl
    · exact .inr ⟨State.settle_of_ne_done hl' hp, State.settle_of_ne_done hl hp⟩
  | _ =>
    refine .inr ⟨?_, ?_⟩
    · simp only [State.settle, State.again, hl]
    · simp only [State.settle, hl]

theorem State.outcome_again (s : State) (next : Option UInt8) (error : Option LexError) :
    (s.again.settle next).outcome error = (s.settle next).outcome error := by
  rcases s.settle_again next with heq | ⟨hagain, hs⟩
  · rw [heq]
  · rw [hagain, hs]
    rfl

/-- Inside a token the end of the text means the same. -/
theorem State.finish_again (hl : s.lexeme ≠ .idle) :
    (s.again.settle none).finish = (s.settle none).finish := by
  rcases s.settle_again none with heq | ⟨hagain, hs⟩
  · rw [heq]
  · rw [hagain, hs]
    unfold State.finish
    cases hl' : s.lexeme with
    | idle => exact absurd hl' hl
    | string start part =>
      simp only [State.again, hl']
      cases part <;> rfl
    | _ => simp only [State.again, hl']

/-- **A text is scanned in the same way where its first value is one more, but for what is expected
at its first byte that is not blank.** -/
theorem scanFrom_again (hs : limits.several) (s : State) (text : Bytes)
    (hb : s.lexeme = .idle → s.awaiting = .document → ¬ Blank text) :
    scanFrom limits s.again text = scanFrom limits s text ∨
      (s.lexeme = .idle ∧
        (scanFrom limits s.again text).tokens = (scanFrom limits s text).tokens ∧
        ∃ found expected expected',
          (scanFrom limits s text).error = some ⟨.unexpectedCharacter found expected,
            s.pos + (text.takeWhile Byte.isBlank).length⟩ ∧
          (scanFrom limits s.again text).error = some ⟨.unexpectedCharacter found expected',
            s.pos + (text.takeWhile Byte.isBlank).length⟩) := by
  induction text generalizing s with
  | nil =>
    refine .inl ?_
    by_cases ha : s.awaiting = .document
    · have hl : s.lexeme ≠ .idle := fun hl => hb hl ha .nil
      rw [scanFrom, scanFrom, State.finish_again hl]
      exact s.outcome_again none _
    · rw [State.again_of_ne ha]
  | cons b rest ih =>
    have heffect := State.read_again hs s b
    unfold State.read at heffect
    rw [scanFrom, scanFrom]
    simp only [State.outcome_again, State.settle_pos, State.again_pos]
    generalize (s.settle (some b)).feed limits b = first at heffect ⊢
    generalize (s.again.settle (some b)).feed limits b = again at heffect ⊢
    cases heffect with
    | same => exact .inl rfl
    | blank hl ha hblank =>
      have hrest : ¬ Blank rest := fun hrest => hb hl ha (hrest.cons hblank)
      have hplace : s.pos + ((b :: rest).takeWhile Byte.isBlank).length =
          s.advance.pos + (rest.takeWhile Byte.isBlank).length := by
        rw [List.takeWhile_cons_of_pos hblank, List.length_cons]
        show _ = s.pos + 1 + _
        omega
      rw [hplace]
      rcases ih s.advance fun _ _ => hrest with heq | ⟨-, hfail⟩
      · exact .inl heq
      · exact .inr ⟨hl, hfail⟩
    | inside s' hl' =>
      rcases ih s' fun hl => absurd hl hl' with heq | ⟨hl, -⟩
      · exact .inl heq
      · exact absurd hl hl'
    | character expected expected' hl ha hblank =>
      rw [List.takeWhile_cons_of_neg hblank]
      exact .inr ⟨hl, rfl, Utf8.firstChar (b :: rest), expected, expected', rfl, rfl⟩

/-! ## After an accepted text -/

theorem NumberPart.isFinal_of_done {part : NumberPart} (h : part.read none = .done) :
    part.isFinal := by
  cases part with
  | zero | whole | fraction | exponentDigits => rfl
  | _ => cases h

/-- After an accepted text a blank ends a number just as the end of the text does. -/
theorem State.settle_blank (hb : Byte.isBlank b) (h : (s.settle none).finish = none) :
    s.settle (some b) = s.settle none := by
  cases hl : s.lexeme with
  | number start part =>
    have hp := State.read_done_of_finish hl h
    have hdone : part.read (some b) = .done := by
      refine NumberPart.read_done (NumberPart.isFinal_of_done hp) ?_
      intro c hc
      cases hc
      exact not_continues_of_isBlank b hb
    rw [State.settle_of_done hl hp, State.settle_of_done hl hdone]
  | _ => simp only [State.settle, hl]

/-- No container is open at the end of an accepted text. -/
theorem Reads.stack_of_finish (h : Reads limits {} t s) (hend : (s.settle none).finish = none) :
    (s.settle none).stack = [] := by
  obtain ⟨ps₁, tail₁, hr₁, -⟩ := h.exists_reading
  obtain ⟨ps, tail, hr, -⟩ := hr₁.settle
  have hreached := hr.run.reached (spells_of_proper hr.proper) .start
  obtain ⟨-, -, -, -, hstack⟩ := hreached.of_ending (State.of_finish hend).2
  exact hstack

/-- **After an accepted text and a blank, one more value is awaited, and nothing else is left of
them but their tokens.** -/
theorem scan_append {a w : Bytes} (ha : (scan limits a).error = none) (hw : Blank w) (hne : w ≠ [])
    (rest : Bytes) :
    scan limits (a ++ w ++ rest) =
      scanFrom limits
        (({} : State).shift (a.length + w.length) (scan limits a).tokens.reverse).again rest := by
  obtain ⟨s, hr, hend, hscan⟩ := exists_reads_of_accepted ha
  obtain ⟨hl, hawait⟩ := State.of_finish hend
  have hstack := hr.stack_of_finish hend
  have htokens : (scan limits a).tokens.reverse = (s.settle none).emitted := by
    rw [hscan]
    exact List.reverse_reverse _
  have hpos : (s.settle none).pos = a.length := by rw [State.settle_pos, hr.pos_eq]
  -- The first blank settles a number at the end of the first text.
  have hsettle : scanFrom limits s (w ++ rest) = scanFrom limits (s.settle none) (w ++ rest) := by
    cases w with
    | nil => exact absurd rfl hne
    | cons b w =>
      rw [← State.settle_blank (hw b List.mem_cons_self) hend]
      exact (scanFrom_settle s (b :: w ++ rest)).symm
  have hstate : (s.settle none).ahead w.length .idle =
      (({} : State).shift (a.length + w.length) (scan limits a).tokens.reverse).again := by
    rw [htokens]
    simp only [State.ahead, State.again, State.shift, Awaiting.again, hawait, hstack, hpos,
      Nat.zero_add, List.map_nil, List.nil_append, Lexeme.shift]
  rw [List.append_assoc, scan, hr.scanFrom_eq, hsettle, (Reads.blank hw hl).scanFrom_eq, hstate]

/-- A text after others has the tokens that it has alone, and fails just when it fails alone. -/
theorem scanFrom_after (hs : limits.several) (n : Nat) (before : List Token) {text : Bytes}
    (hb : ¬ Blank text) :
    (scanFrom limits (({} : State).shift n before).again text).tokens =
        before.reverse ++ (scan limits text).tokens.map (Token.shift n) ∧
      Option.Rel (LexError.Moved n text) (scan limits text).error
        (scanFrom limits (({} : State).shift n before).again text).error := by
  have hshift := scanFrom_shift limits n before text
  have hagain := scanFrom_again hs (({} : State).shift n before) text fun _ _ => hb
  rcases hagain with heq | ⟨-, htokens, found, expected, expected', he, he'⟩
  · rw [heq, hshift]
    refine ⟨rfl, ?_⟩
    simp only [Outcome.shift]
    cases (scan limits text).error with
    | none => exact .none
    | some e => exact .some (.same e)
  · rw [htokens, he', hshift]
    refine ⟨rfl, ?_⟩
    rw [hshift] at he
    obtain ⟨⟨kind, offset⟩, halone, hmoved⟩ := Option.map_eq_some_iff.1 he
    simp only [LexError.shift, LexError.mk.injEq] at hmoved
    obtain ⟨rfl, hplace⟩ := hmoved
    have hpos : (({} : State).shift n before).pos = n := Nat.zero_add n
    rw [hpos] at hplace ⊢
    obtain rfl : offset = (text.takeWhile Byte.isBlank).length := by omega
    rw [halone, Nat.add_comm n]
    exact .some (.first found expected expected')

end Scan

/-! ## Tokenizers -/

/-- An accepted text and a blank before another text add their tokens and move its error. -/
theorem Tokenizer.parse_append (t : Tokenizer) (hs : t.settings.allowsSeveral = true)
    {a w b : Bytes} (ha : (t.parse a).1.error = none) (hw : Blank w) (hne : w ≠ [])
    (hb : ¬ Blank b) :
    ((t.parse (a ++ w ++ b)).1.error = none ↔ (t.parse b).1.error = none) ∧
    (t.parse (a ++ w ++ b)).1.tokens =
      (t.parse a).1.tokens ++ (t.parse b).1.tokens.map (Token.shift (a.length + w.length)) ∧
    ∀ e, (t.parse b).1.error = some e →
      ∃ e', (t.parse (a ++ w ++ b)).1.error = some e' ∧ e.Moved (a.length + w.length) b e' := by
  have ha' : (Scan.scan t.settings.limits a).error = none := ha
  have hs' : t.settings.limits.several := hs
  have hscan := Scan.scan_append ha' hw hne b
  obtain ⟨htokens, herror⟩ := Scan.scanFrom_after hs' (a.length + w.length)
    (Scan.scan t.settings.limits a).tokens.reverse hb
  rw [← hscan] at htokens herror
  rw [List.reverse_reverse] at htokens
  have htogether : Option.Rel (LexError.Moved (a.length + w.length) b) (t.parse b).1.error
      (t.parse (a ++ w ++ b)).1.error := herror
  refine ⟨?_, htokens, ?_⟩
  · generalize (t.parse b).1.error = alone at htogether
    generalize (t.parse (a ++ w ++ b)).1.error = together at htogether
    cases htogether <;> simp
  · intro e he
    rw [he] at htogether
    generalize (t.parse (a ++ w ++ b)).1.error = together at htogether
    cases htogether with
    | some hmoved => exact ⟨_, rfl, hmoved⟩

/-- **Texts one after the other are parsed as each is alone.**  Where several values are allowed,
an accepted text `a` and a blank may stand before any text `b` that is not blank: the tokens are
those of both, and `b` is accepted or refused as it is alone.  There is a result for `b` alone, and
one for all of it, if the room that is wanted can be had, which may hold of one and not of the
other. -/
theorem Tokenizer.parse?_append {t : Tokenizer} (hs : t.settings.allowsSeveral = true)
    {a w b : Bytes} {first : Parsed} (ha : (t.parse? a).1 = some first)
    (haccepted : first.error = none) (hw : Blank w) (hne : w ≠ []) (hb : ¬ Blank b) :
    (t.wanted b ≤ max t.capacity Room.limit → t.wanted (a ++ w ++ b) ≤ max t.capacity Room.limit →
      ∃ alone together, (t.parse? b).1 = some alone ∧ (t.parse? (a ++ w ++ b)).1 = some together ∧
        (together.error = none ↔ alone.error = none) ∧
        together.tokens =
          first.tokens ++ alone.tokens.map (Token.shift (a.length + w.length)) ∧
        ∀ e, alone.error = some e →
          ∃ e', together.error = some e' ∧ e.Moved (a.length + w.length) b e') ∧
    ∀ text ∈ [b, a ++ w ++ b], max t.capacity Room.limit < t.wanted text →
      (t.parse? text).1 = none := by
  obtain ⟨-, rfl⟩ := parse?_eq_some_iff.1 ha
  refine ⟨?_, fun _ _ => parse?_eq_none_iff.2⟩
  intro halone htogether
  refine ⟨(t.parse b).1, (t.parse (a ++ w ++ b)).1, ?_, ?_, t.parse_append hs haccepted hw hne hb⟩
  · exact parse?_eq_some_iff.2 ⟨halone, rfl⟩
  · exact parse?_eq_some_iff.2 ⟨htogether, rfl⟩

/-- The text `1`, a space, and the text `]`, which fails at its first byte. -/
theorem Tokenizer.parse?_append_bracket :
    let t : Tokenizer := { settings := { allowsSeveral := true } }
    (t.parse? [0x31]).1 = some ⟨[⟨.number, 0, 0, 1⟩], .notLarge, none⟩ ∧
    Blank [0x20] ∧ ([0x20] : Bytes) ≠ [] ∧ ¬ Blank [0x5D] ∧
    t.wanted [0x5D] ≤ max t.capacity Room.limit ∧
    t.wanted ([0x31] ++ [0x20] ++ [0x5D]) ≤ max t.capacity Room.limit ∧
    ∃ alone together, (t.parse? [0x5D]).1 = some alone ∧
      (t.parse? ([0x31] ++ [0x20] ++ [0x5D])).1 = some together ∧
      (together.error = none ↔ alone.error = none) ∧
      together.tokens = [⟨.number, 0, 0, 1⟩] ++ alone.tokens.map (Token.shift 2) ∧
      ∀ e, alone.error = some e → ∃ e', together.error = some e' ∧ e.Moved 2 [0x5D] e' := by
  intro t
  have ha : (t.parse? [0x31]).1 = some ⟨[⟨.number, 0, 0, 1⟩], .notLarge, none⟩ := by decide
  have hw : Blank [0x20] := by decide
  have hb : ¬ Blank [0x5D] := by decide
  have halone : t.wanted [0x5D] ≤ max t.capacity Room.limit := by decide
  have htogether : t.wanted ([0x31] ++ [0x20] ++ [0x5D]) ≤ max t.capacity Room.limit := by decide
  exact ⟨ha, hw, List.cons_ne_nil _ _, hb, halone, htogether,
    (Tokenizer.parse?_append rfl ha rfl hw (List.cons_ne_nil _ _) hb).1 halone htogether⟩

/-- With room for the largest count of tokens, the text `[1,1] 1` is accepted: as it starts with a
large array it wants room for few tokens.  The text `1` alone has no result. -/
theorem Tokenizer.exists_refused_alone :
    let t : Tokenizer :=
      { settings :=
        { shape := { largeArrayThreshold := 1 }
          initialCapacity := maxCount
          allowsSeveral := true } }
    let a : Bytes := [0x5B, 0x31, 0x2C, 0x31, 0x5D]
    (t.parse? a).1.map Parsed.error = some none ∧
    (t.parse? (a ++ [0x20] ++ [0x31])).1.map Parsed.error = some none ∧
    (t.parse? [0x31]).1 = none ∧
    ¬ ∀ (t : Tokenizer) (a w b : Bytes), t.settings.allowsSeveral = true →
      (t.parse? a).1.map Parsed.error = some none → Blank w → w ≠ [] → ¬ Blank b →
      ((t.parse? (a ++ w ++ b)).1.map Parsed.error = some none ↔
        (t.parse? b).1.map Parsed.error = some none) := by
  intro t a
  have ha : (t.parse? a).1.map Parsed.error = some none := by decide
  have htogether : (t.parse? (a ++ [0x20] ++ [0x31])).1.map Parsed.error = some none := by decide
  have hrefused : (t.parse? [0x31]).1 = none := by decide
  have hw : Blank [0x20] := by decide
  have hb : ¬ Blank [0x31] := by decide
  refine ⟨ha, htogether, hrefused, ?_⟩
  intro h
  have halone := (h t a [0x20] [0x31] rfl ha hw (List.cons_ne_nil _ _) hb).1 htogether
  rw [hrefused] at halone
  cases halone

end FlatJson
