import FlatJson.Proofs.Steps

/-!
# What a scan has emitted

Tokens are only ever added, so those of a scan go on from those of any state on its way; and they
are the tokens of complete pieces at the start of the text, whether or not the scan fails later.

* `State.Completes` — the tokens that a string or a number may become that is being read.

`scanFrom_tokens` says that tokens stay, `Reads.completes` that a string or a number which is being
read becomes the next token of an accepted text, and `scan_pieces` which pieces have been read.
-/

namespace FlatJson.Scan

variable {limits : Limits} {s s' : State} {b : UInt8} {t u text : Bytes}

/-! ## Runs -/

/-- An accepted text is read to its end. -/
theorem exists_reads_of_accepted {text : Bytes} (h : (scan limits text).error = none) :
    ∃ s, Reads limits {} text s ∧ (s.settle none).finish = none ∧
      scan limits text = (s.settle none).outcome none := by
  unfold scan at h ⊢
  rcases scanFrom_stops limits {} text with ⟨s, hr, he⟩ | ⟨_, _, _, _, _, _, _, _, he⟩
  · rw [he] at h
    have hfin : (s.settle none).finish = none := h
    rw [hfin] at he
    exact ⟨s, hr, hfin, he⟩
  · rw [he] at h
    cases h

theorem Reads.of_append (h : Reads limits s (t ++ u) s') :
    ∃ s₁, Reads limits s t s₁ ∧ Reads limits s₁ u s' := by
  induction t generalizing s with
  | nil => exact ⟨s, .nil s, h⟩
  | cons b t ih =>
    cases h with
    | cons hb hr =>
      obtain ⟨s₁, h₁, h₂⟩ := ih hr
      exact ⟨s₁, .cons hb h₁, h₂⟩

/-- A text that is read to its end is scanned to there. -/
theorem Reads.scan_eq (h : Reads limits {} t s) :
    scan limits t = (s.settle none).outcome (s.settle none).finish := by
  have heq := h.scanFrom_eq []
  rw [List.append_nil] at heq
  rw [scan, heq, scanFrom]

/-- Where a byte is refused, a scan ends. -/
theorem Reads.scan_eq_of_refused {refusal : Refusal} (h : Reads limits {} t s)
    (hb : s.read limits b = .error refusal) (rest : Bytes) :
    scan limits (t ++ b :: rest) = (s.settle (some b)).outcome
      (some (refusal.error (s.settle (some b)).pos (b :: rest))) := by
  unfold State.read at hb
  rw [scan, h.scanFrom_eq, scanFrom, hb]

/-! ## Tokens stay -/

theorem State.settle_emitted (s : State) (next : Option UInt8) :
    s.emitted <:+ (s.settle next).emitted := by
  unfold State.settle
  split
  · split
    · exact List.suffix_cons _ _
    · exact List.suffix_refl _
  · exact List.suffix_refl _

theorem State.start_emitted {lead : Lead} (h : s.start limits lead = .ok s') :
    s.emitted <:+ s'.emitted := by
  cases lead with
  | blank =>
    cases h
    exact List.suffix_refl _
  | opening c =>
    simp only [State.start, State.push] at h
    split at h
    · cases h
    · split at h
      · cases h
      · cases h
        exact List.suffix_cons _ _
  | closing c =>
    simp only [State.start, State.pop] at h
    split at h
    · cases h
    · split at h
      · cases h
      · split at h
        · cases h
          exact List.suffix_cons _ _
        · cases h
  | comma | colon =>
    simp only [State.start, State.comma, State.colon] at h
    split at h
    · cases h
      exact List.suffix_cons _ _
    · cases h
  | quote | number | word =>
    simp only [State.start] at h
    split at h
    · cases h
      exact List.suffix_refl _
    · cases h
  | other => cases h

theorem State.endString_emitted (s : State) (start : Nat) :
    ∃ kind, (kind = .key ∨ kind = .string) ∧ (s.endString start).emitted =
      ⟨kind, min s.stack.length maxReportedDepth, start + 1, s.pos - start - 1⟩ :: s.emitted := by
  unfold State.endString
  split
  · exact ⟨.key, .inl rfl, rfl⟩
  · exact ⟨.string, .inr rfl, rfl⟩

/-- A byte of a string ends it, or nothing but its part changes. -/
theorem State.inString_eq {start : Nat} {part : StringPart}
    (h : s.inString start part b = .ok s') :
    s' = s.endString start ∨ ∃ part', s' = s.ahead 1 (.string start part') := by
  cases part with
  | body =>
    simp only [State.inString] at h
    split at h
    · cases h
      exact .inl rfl
    · split at h
      · cases h
        exact .inr ⟨_, rfl⟩
      · split at h <;> cases h <;> exact .inr ⟨_, rfl⟩
  | escape =>
    simp only [State.inString] at h
    split at h
    · cases h
      exact .inr ⟨_, rfl⟩
    · split at h
      · cases h
        exact .inr ⟨_, rfl⟩
      · cases h
  | digits | tainted =>
    simp only [State.inString] at h
    split at h
    · cases h <;> exact .inr ⟨_, rfl⟩
    · cases h <;> exact .inr ⟨_, rfl⟩

theorem State.inString_emitted {start : Nat} {part : StringPart}
    (h : s.inString start part b = .ok s') : s.emitted <:+ s'.emitted := by
  rcases State.inString_eq h with rfl | ⟨part', rfl⟩
  · obtain ⟨kind, -, he⟩ := s.endString_emitted start
    rw [he]
    exact List.suffix_cons _ _
  · exact List.suffix_refl _

theorem State.inWord_emitted {start : Nat} {w : Keyword} {missing : Bytes}
    (h : s.inWord start w missing b = .ok s') : s.emitted <:+ s'.emitted := by
  unfold State.inWord at h
  split at h
  · cases h
  · split at h
    · split at h
      · cases h
        exact List.suffix_cons _ _
      · cases h
        exact List.suffix_refl _
    · cases h

/-- A byte that is read keeps all tokens, the number included that it may have ended. -/
theorem State.read_emitted (h : s.read limits b = .ok s') :
    (s.settle (some b)).emitted <:+ s'.emitted := by
  unfold State.read State.feed at h
  split at h
  · exact State.start_emitted h
  · exact State.inString_emitted h
  · split at h
    · cases h
      exact List.suffix_refl _
    · cases h
    · exact State.start_emitted h
  · exact State.inWord_emitted h

theorem Reads.emitted (h : Reads limits s t s') : s.emitted <:+ s'.emitted := by
  induction h with
  | nil => exact List.suffix_refl _
  | cons hb _ ih => exact ((State.settle_emitted _ _).trans (State.read_emitted hb)).trans ih

/-- **The tokens of a scan go on from those that had been emitted.** -/
theorem scanFrom_tokens (limits : Limits) (s : State) (text : Bytes) :
    s.emitted.reverse <+: (scanFrom limits s text).tokens := by
  rcases scanFrom_stops limits s text with ⟨s', hr, he⟩ | ⟨t, b, rest, s', r, rfl, hr, -, he⟩
  all_goals
    rw [he]
    exact List.reverse_prefix.2 (hr.emitted.trans (State.settle_emitted _ _))

/-! ## Strings and numbers that are being read -/

/-- The tokens that the string or the number which is being read may become: they start where it
does, and end no earlier than what has been read of it. -/
inductive State.Completes (s : State) : Token → Prop
  | string {start len : Nat} {part : StringPart} {kind : TokenKind} :
      s.lexeme = .string start part → kind = .key ∨ kind = .string → s.pos ≤ start + 1 + len →
      s.Completes ⟨kind, min s.stack.length maxReportedDepth, start + 1, len⟩
  | number {start len : Nat} {part : NumberPart} :
      s.lexeme = .number start part → s.pos ≤ start + len →
      s.Completes ⟨.number, min s.stack.length maxReportedDepth, start, len⟩

/-- Another place in the same string or in the same number. -/
inductive Lexeme.Same : Lexeme → Lexeme → Prop
  | string {start : Nat} {part part' : StringPart} :
      Lexeme.Same (.string start part) (.string start part')
  | number {start : Nat} {part part' : NumberPart} :
      Lexeme.Same (.number start part) (.number start part')

/-- What may become of a later place may become of an earlier one. -/
theorem State.Completes.of_ahead {tok : Token} {n : Nat} {x : Lexeme}
    (h : (s.ahead n x).Completes tok) (hx : s.lexeme.Same x) : s.Completes tok := by
  generalize hl : s.lexeme = y at hx
  cases h with
  | string hx' hk hle =>
    obtain rfl : x = _ := hx'
    cases hx
    exact .string hl hk (Nat.le_trans (Nat.le_add_right _ n) hle)
  | number hx' hle =>
    obtain rfl : x = _ := hx'
    cases hx
    exact .number hl (Nat.le_trans (Nat.le_add_right _ n) hle)

/-- A number that ends becomes a token. -/
theorem State.completes_of_done {next : Option UInt8} {start : Nat} {part : NumberPart}
    (h : s.lexeme = .number start part) (hp : part.read next = .done) :
    ∃ tok, s.Completes tok ∧ (s.settle next).emitted = tok :: s.emitted := by
  rw [State.settle_of_done h hp]
  refine ⟨_, .number h ?_, rfl⟩
  omega

theorem State.completes_of_endString {start : Nat} {part : StringPart}
    (h : s.lexeme = .string start part) :
    ∃ tok, s.Completes tok ∧ (s.endString start).emitted = tok :: s.emitted := by
  obtain ⟨kind, hk, he⟩ := s.endString_emitted start
  refine ⟨_, .string h hk ?_, he⟩
  omega

/-- A byte completes the string or the number that is being read, or goes on with it. -/
theorem State.read_same {x : Lexeme} (hx : x.Same s.lexeme) (h : s.read limits b = .ok s') :
    (∃ tok, s.Completes tok ∧ tok :: s.emitted <:+ s'.emitted) ∨
      ∃ y, s.lexeme.Same y ∧ s' = s.ahead 1 y := by
  generalize hl : s.lexeme = y at hx
  cases hx with
  | @string start part₀ part =>
    rw [State.read_string hl] at h
    rcases State.inString_eq h with rfl | ⟨part', rfl⟩
    · obtain ⟨tok, hc, he⟩ := State.completes_of_endString hl
      exact .inl ⟨tok, hc, he ▸ List.suffix_refl _⟩
    · exact .inr ⟨_, .string, rfl⟩
  | @number start part₀ part =>
    cases hp : part.read (some b) with
    | done =>
      obtain ⟨tok, hc, he⟩ := State.completes_of_done hl hp
      exact .inl ⟨tok, hc, he ▸ State.read_emitted h⟩
    | more part' =>
      rw [State.read_number hl hp] at h
      cases h
      exact .inr ⟨_, .number, rfl⟩
    | wrong expected =>
      rw [State.read_wrong hl hp] at h
      cases h

/-- At the end of an accepted text a number is complete. -/
theorem State.read_done_of_finish {start : Nat} {part : NumberPart}
    (hl : s.lexeme = .number start part) (h : (s.settle none).finish = none) :
    part.read none = .done := by
  rcases part.read_none with hp | ⟨expected, hp⟩
  · exact hp
  · have hidle := (State.of_finish h).1
    rw [State.settle_of_ne_done hl (by rw [hp]; exact nofun), hl] at hidle
    cases hidle

/-- At the end of an accepted text no string is being read, and a number is complete. -/
theorem State.completes_of_finish {x : Lexeme} (hx : x.Same s.lexeme)
    (h : (s.settle none).finish = none) :
    ∃ tok, s.Completes tok ∧ (s.settle none).emitted = tok :: s.emitted := by
  generalize hl : s.lexeme = y at hx
  cases hx with
  | string =>
    have hidle := (State.of_finish h).1
    have hset : s.settle none = s := by simp only [State.settle, hl]
    rw [hset, hl] at hidle
    cases hidle
  | number => exact State.completes_of_done hl (State.read_done_of_finish hl h)

/-- **The string or the number that is being read becomes the next token, if the text is
accepted.** -/
theorem Reads.completes {x : Lexeme} (h : Reads limits s t s') (hx : x.Same s.lexeme)
    (hend : (s'.settle none).finish = none) :
    ∃ tok, s.Completes tok ∧ tok :: s.emitted <:+ (s'.settle none).emitted := by
  induction h generalizing x with
  | nil s =>
    obtain ⟨tok, hc, he⟩ := State.completes_of_finish hx hend
    exact ⟨tok, hc, he ▸ List.suffix_refl _⟩
  | @cons s s₁ s' b t hb hr ih =>
    rcases State.read_same hx hb with ⟨tok, hc, he⟩ | ⟨y, hy, rfl⟩
    · exact ⟨tok, hc, (he.trans hr.emitted).trans (State.settle_emitted _ _)⟩
    · obtain ⟨tok, hc, he⟩ := ih hy hend
      exact ⟨tok, hc.of_ahead hy, he⟩

/-! ## Errors after all tokens -/

variable {ps : List Piece} {tail rest : Bytes} {refusal : Refusal} {e : LexError}

theorem State.settle_of_string {next : Option UInt8} {start : Nat} {part : StringPart}
    (h : s.lexeme = .string start part) : s.settle next = s := by
  simp only [State.settle, h]

/-- Settling a number changes nothing that a refusal speaks of. -/
theorem State.Refuses.settle (h : s.Refuses refusal) (next : Option UInt8) :
    (s.settle next).Refuses refusal := by
  have hpos := s.settle_pos next
  cases h with
  | character expected => exact .character expected
  | depth limit => exact hpos ▸ .depth limit
  | bracket found expected => exact hpos ▸ .bracket found expected
  | number expected => exact hpos ▸ .number expected
  | escape hl => exact (State.settle_of_string hl).symm ▸ .escape hl
  | digits hl => exact (State.settle_of_string hl).symm ▸ .digits hl
  | control hl => exact (State.settle_of_string hl).symm ▸ .control hl

theorem State.Lacks.settle (h : s.Lacks e) (next : Option UInt8) : (s.settle next).Lacks e := by
  have hpos := s.settle_pos next
  have hout : s.OutsideString → (s.settle next).OutsideString := fun hs start part hl =>
    hs start part (State.settle_string hl)
  cases h with
  | digits hl => exact (State.settle_of_string hl).symm ▸ .digits hl
  | quote hl => exact (State.settle_of_string hl).symm ▸ .quote hl
  | bracket expected depth hs => exact hpos ▸ .bracket expected depth (hout hs)
  | more expected hs => exact hpos ▸ .more expected (hout hs)
  | number expected hs => exact hpos ▸ .number expected (hout hs)

/-- The places that a string remembers are after the pieces read before it. -/
theorem Reading.le_start (h : Reading limits ps tail rest s) {start : Nat} {part : StringPart}
    (hl : s.lexeme = .string start part) :
    (spread ps).length ≤ start ∧ start < s.pos ∧
      (∀ backslash missing, part = .digits backslash missing → start < backslash) ∧
      ∀ c offset, part = .tainted c offset → start < offset := by
  have hbegun := h.begun
  rw [hl] at hbegun
  cases hbegun with
  | @string pad got part hpad ha hp =>
    refine ⟨Nat.le_add_right _ _, ?_, ?_, ?_⟩
    · rw [h.pos, List.length_append, List.length_cons]
      omega
    · rintro backslash missing rfl
      cases hp with
      | digits => omega
    · rintro c offset rfl
      cases hp with
      | tainted => omega

/-- A byte is never refused before the end of the pieces that have been read. -/
theorem Reading.le_of_refuses (h : Reading limits ps tail rest s) (hr : s.Refuses refusal)
    (more : Bytes) : (spread ps).length ≤ (refusal.error s.pos more).offset := by
  have hpos : (spread ps).length ≤ s.pos := by
    rw [h.pos]
    exact Nat.le_add_right _ _
  cases hr with
  | character | depth | bracket | number => exact hpos
  | escape hl =>
    obtain ⟨hle, hlt, -, -⟩ := h.le_start hl
    show (spread ps).length ≤ s.pos - 1
    omega
  | digits hl =>
    obtain ⟨hle, -, hdigits, -⟩ := h.le_start hl
    exact Nat.le_trans hle (Nat.le_of_lt (hdigits _ _ rfl))
  | control hl =>
    obtain ⟨hle, -, -, htainted⟩ := h.le_start hl
    exact Nat.le_trans hle (Nat.le_of_lt (htainted _ _ rfl))

/-- What is missing at the end is not missing before the end of the pieces. -/
theorem Reading.le_of_lacks (h : Reading limits ps tail rest s) (he : s.Lacks e) :
    (spread ps).length ≤ e.offset := by
  have hpos : (spread ps).length ≤ s.pos := by
    rw [h.pos]
    exact Nat.le_add_right _ _
  cases he with
  | bracket | more | number => exact hpos
  | digits hl =>
    obtain ⟨hle, -, hdigits, -⟩ := h.le_start hl
    exact Nat.le_trans hle (Nat.le_of_lt (hdigits _ _ rfl))
  | quote hl => exact (h.le_start hl).1

/-! ## The pieces that have been read -/

/-- **The tokens of a scan, whether it fails or not, are those of proper pieces at the start of the
text, whose leaves may follow each other, and an error is not before the end of these.** -/
theorem scan_pieces (limits : Limits) (text : Bytes) :
    ∃ ps rest c, (scan limits text).tokens = tokensAt 0 ps ∧ (∀ p ∈ ps, p.Proper) ∧
      Control.Run limits {} (ps.map Piece.leaf) c ∧ text = spread ps ++ rest ∧
      ∀ e, (scan limits text).error = some e → (spread ps).length ≤ e.offset := by
  unfold scan
  rcases scanFrom_stops limits {} text with ⟨s, hr, he⟩ | ⟨t, b, rest, s, r, rfl, hr, hb, he⟩
  · obtain ⟨ps₁, tail₁, hr₁, h₁⟩ := hr.exists_reading
    obtain ⟨ps, tail, hr₂, h₂⟩ := hr₁.settle
    rw [he]
    refine ⟨ps, tail, _, hr₂.emitted, hr₂.proper, hr₂.run, by rw [h₂, h₁], fun e herr => ?_⟩
    exact hr₂.le_of_lacks ((State.lacks_of_finish herr).settle _)
  · have hinit : Reading limits [] [] (t ++ b :: rest) {} := Reading.initial limits _
    obtain ⟨ps₁, tail₁, hr₁, h₁⟩ := hr.reading hinit
    obtain ⟨ps, tail, hr₂, h₂⟩ := hr₁.settle
    rw [he]
    refine ⟨ps, tail ++ b :: rest, _, hr₂.emitted, hr₂.proper, hr₂.run, ?_, fun e herr => ?_⟩
    · rw [← List.append_assoc, h₂, h₁]
      rfl
    · cases herr
      exact hr₂.le_of_refuses ((State.refuses_of_read hb).settle _) _

/-- The tokens of a scan, without the place of an error. -/
theorem scan_tokens (limits : Limits) (text : Bytes) :
    ∃ ps rest c, (scan limits text).tokens = tokensAt 0 ps ∧ (∀ p ∈ ps, p.Proper) ∧
      Control.Run limits {} (ps.map Piece.leaf) c ∧ text = spread ps ++ rest := by
  obtain ⟨ps, rest, c, ht, hp, hr, htext, -⟩ := scan_pieces limits text
  exact ⟨ps, rest, c, ht, hp, hr, htext⟩

end FlatJson.Scan
