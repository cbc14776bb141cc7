import FlatJson.Proofs.Reading

/-!
# What the scanner accepts

The converse of reading: whatever lays out the leaves of a run of the automaton is scanned to the
end, and the tokens are those of its pieces.

* `State.ahead` — the state so many bytes further, inside some lexeme.
* `Reads.blank`, `Reads.content`, `Reads.number`, `Reads.letters` — the parts of a piece.
* `State.after` — the state that a piece leads to.
* `scanFrom_piece`, `scanFrom_pieces` — one piece, and pieces in a row.

`scan_of_laidText` says that texts of the grammar are accepted, and `scan_error_eq_none_iff` that
no others are.
-/

namespace FlatJson.Scan

variable {limits : Limits} {s s' : State} {b : UInt8}

/-! ## One byte -/

/-- The state so many bytes further, inside a lexeme. -/
def State.ahead (s : State) (n : Nat) (lexeme : Lexeme) : State :=
  { s with pos := s.pos + n, lexeme := lexeme }

theorem State.ahead_zero {lexeme : Lexeme} (h : s.lexeme = lexeme) : s.ahead 0 lexeme = s := by
  subst h
  rfl

theorem State.ahead_ahead (s : State) (m n : Nat) (x y : Lexeme) :
    (s.ahead m x).ahead n y = s.ahead (m + n) y := by
  simp [State.ahead, Nat.add_assoc]

theorem State.read_idle (h : s.lexeme = .idle) :
    s.read limits b = s.start limits (Lead.ofByte b) := by
  simp only [State.read, State.settle, State.feed, h]

theorem State.read_string {start : Nat} {part : StringPart} (h : s.lexeme = .string start part) :
    s.read limits b = s.inString start part b := by
  simp only [State.read, State.settle, State.feed, h]

theorem State.read_word {start : Nat} {w : Keyword} {missing : Bytes}
    (h : s.lexeme = .word start w missing) : s.read limits b = s.inWord start w missing b := by
  simp only [State.read, State.settle, State.feed, h]

theorem State.read_number {start : Nat} {part part' : NumberPart}
    (h : s.lexeme = .number start part) (hp : part.read (some b) = .more part') :
    s.read limits b = .ok (s.ahead 1 (.number start part')) := by
  have hset : s.settle (some b) = s := by simp [State.settle, h, hp]
  simp only [State.read, hset, State.feed, h, hp]
  rfl

theorem State.read_backslash {start : Nat} (h : s.lexeme = .string start .body) :
    s.read limits Byte.backslash = .ok (s.ahead 1 (.string start .escape)) := by
  rw [State.read_string h]
  rfl

theorem State.read_unit {start : Nat} (h : s.lexeme = .string start .escape) :
    s.read limits 0x75 = .ok (s.ahead 1 (.string start (.digits (s.pos - 1) 4))) := by
  rw [State.read_string h]
  rfl

theorem State.read_hexDigit {start backslash missing : Nat}
    (h : s.lexeme = .string start (.digits backslash (missing + 2))) (hb : Byte.isHexDigit b) :
    s.read limits b = .ok (s.ahead 1 (.string start (.digits backslash (missing + 1)))) := by
  rw [State.read_string h, State.inString, if_pos hb, if_neg (by omega)]
  rfl

/-! ## Parts of a piece -/

theorem Reads.single (h : s.read limits b = .ok s') : Reads limits s [b] s' := .cons h (.nil s')

theorem Reads.cons_ahead {x y : Lexeme} {t : Bytes} (h : s.read limits b = .ok (s.ahead 1 x))
    (h' : Reads limits (s.ahead 1 x) t ((s.ahead 1 x).ahead t.length y)) :
    Reads limits s (b :: t) (s.ahead (b :: t).length y) := by
  rw [State.ahead_ahead, Nat.add_comm] at h'
  exact .cons h h'

theorem Reads.blank {u : Bytes} (hu : Blank u) (hl : s.lexeme = .idle) :
    Reads limits s u (s.ahead u.length .idle) := by
  induction u generalizing s with
  | nil =>
    rw [List.length_nil, State.ahead_zero hl]
    exact .nil s
  | cons b u ih =>
    have hb : Lead.ofByte b = .blank := Lead.ofByte_of_starts (hu b List.mem_cons_self)
    refine .cons_ahead ?_ (ih (fun c hc => hu c (List.mem_cons_of_mem _ hc)) rfl)
    rw [State.read_idle hl, hb, State.ahead, ← hl]
    rfl

theorem Reads.content {c : Bytes} (hc : IsContent c) {start : Nat}
    (hl : s.lexeme = .string start .body) :
    Reads limits s c (s.ahead c.length (.string start .body)) := by
  induction hc generalizing s with
  | nil =>
    rw [List.length_nil, State.ahead_zero hl]
    exact .nil s
  | @plain b t hle hq hb _ ih =>
    refine .cons_ahead ?_ (ih rfl)
    have hctl : ¬ Byte.isControl b := not_isControl_iff.2 hle
    rw [State.read_string hl, State.inString, if_neg (by simpa using hq),
      if_neg (by simpa using hb), if_neg hctl]
    rfl
  | @short b t he _ ih =>
    refine .cons_ahead (State.read_backslash hl) (.cons_ahead ?_ (ih rfl))
    have hu : ¬ (b == 0x75) := by
      intro hu
      rw [eq_of_beq hu] at he
      revert he
      decide
    rw [State.read_string rfl, State.inString, if_neg hu, if_pos he]
    rfl
  | @unit h₁ h₂ h₃ h₄ t hx₁ hx₂ hx₃ hx₄ _ ih =>
    apply Reads.cons_ahead (State.read_backslash hl)
    apply Reads.cons_ahead (State.read_unit rfl)
    apply Reads.cons_ahead (State.read_hexDigit rfl hx₁)
    apply Reads.cons_ahead (State.read_hexDigit rfl hx₂)
    apply Reads.cons_ahead (State.read_hexDigit rfl hx₃)
    refine .cons_ahead ?_ (ih rfl)
    rw [State.read_string rfl, State.inString, if_pos hx₄]
    rfl

theorem Reads.number {p q : NumberPart} {t : Bytes} (h : NumberPart.Reads p t q) {start : Nat}
    (hl : s.lexeme = .number start p) : Reads limits s t (s.ahead t.length (.number start q)) := by
  induction h generalizing s with
  | nil p =>
    rw [List.length_nil, State.ahead_zero hl]
    exact .nil s
  | cons hb _ ih => exact .cons_ahead (State.read_number hl hb) (ih rfl)

/-- The letters of a keyword after the first. -/
theorem Reads.letters {start : Nat} {w : Keyword} {missing : Bytes} (hne : missing ≠ [])
    (hl : s.lexeme = .word start w missing) :
    Reads limits s missing (((s.ahead missing.length .idle).emit (.word w) start
      (s.pos + missing.length - start)).endValue) := by
  induction missing generalizing s with
  | nil => exact absurd rfl hne
  | cons b later ih =>
    cases later with
    | nil =>
      refine .single ?_
      rw [State.read_word hl, State.inWord, if_pos rfl]
      rfl
    | cons c later =>
      have hrest := ih (s := s.ahead 1 (.word start w (c :: later))) (List.cons_ne_nil c later) rfl
      rw [State.ahead_ahead, Nat.add_comm 1] at hrest
      have hfirst : s.read limits b = .ok (s.ahead 1 (.word start w (c :: later))) := by
        rw [State.read_word hl, State.inWord, if_pos rfl]
        rfl
      have hpos : (s.ahead 1 (.word start w (c :: later))).pos + (c :: later).length =
          s.pos + (b :: c :: later).length := by
        show s.pos + 1 + (c :: later).length = s.pos + (b :: c :: later).length
        rw [List.length_cons (a := b)]
        omega
      rw [hpos] at hrest
      exact .cons hfirst hrest

/-! ## Pieces -/

/-- The state after a piece that leads to what `c` says. -/
def State.after (s : State) (p : Piece) (c : Control) : State :=
  ⟨s.pos + p.text.length, c.awaiting, c.stack, p.token s.pos :: s.emitted, .idle⟩

theorem State.after_ahead (s : State) (pad : Bytes) (l : Leaf) (c : Control) :
    (s.ahead pad.length .idle).after ⟨[], l⟩ c = s.after ⟨pad, l⟩ c := by
  simp [State.after, State.ahead, Piece.text, Piece.token, Nat.add_assoc]

theorem Awaiting.not_admitsKey {a : Awaiting} {several : Bool} (h : a.admitsValue several) :
    ¬ a.admitsKey := by
  cases a with
  | document | value | itemOrClose | ending => exact Bool.false_ne_true
  | _ => cases h

/-- A string is read to its end, as a name or as a value. -/
theorem Reads.quoted {content : Bytes} {s' : State} (hl : s.lexeme = .idle)
    (ha : s.awaiting.admitsKey || s.awaiting.admitsValue limits.several) (hc : IsContent content)
    (hs' : (s.ahead (1 + content.length) (.string s.pos .body)).endString s.pos = s') :
    Reads limits s (quoted content) s' := by
  have hopen : s.read limits Byte.quote = .ok (s.ahead 1 (.string s.pos .body)) := by
    rw [State.read_idle hl, show Lead.ofByte Byte.quote = .quote by decide, State.start, if_pos ha]
    rfl
  have hbody : Reads limits (s.ahead 1 (.string s.pos .body)) content
      (s.ahead (1 + content.length) (.string s.pos .body)) := by
    have h : Reads limits (s.ahead 1 (.string s.pos .body)) content _ := Reads.content hc rfl
    rwa [State.ahead_ahead] at h
  have hclose : (s.ahead (1 + content.length) (.string s.pos .body)).read limits Byte.quote =
      .ok s' := by
    rw [State.read_string rfl, ← hs']
    rfl
  exact .cons hopen (hbody.append (.single hclose))

theorem State.push_eq (hl : s.lexeme = .idle) (ha : s.awaiting.admitsValue limits.several)
    (hd : s.stack.length < limits.maxDepth) (k : Container) :
    s.push limits k =
      .ok (s.after ⟨[], .opening k s.stack.length⟩ ⟨.inside k, k :: s.stack⟩) := by
  unfold State.push
  rw [if_neg (by simpa using ha), if_neg (Nat.not_le_of_lt hd)]
  cases k <;> simp [State.after, State.emit, State.advance, hl] <;> exact ⟨rfl, rfl, rfl⟩

theorem State.pop_eq {k : Container} {outer : List Container} (hst : s.stack = k :: outer)
    (ha : s.awaiting.admitsClose) :
    s.pop k =
      .ok (s.after ⟨[], .closing k outer.length⟩ (Control.endValue ⟨s.awaiting, outer⟩)) := by
  unfold State.pop
  rw [hst]
  simp only [ha, Bool.not_true, Bool.false_eq_true, if_false, if_true]
  rfl

theorem State.comma_eq (hl : s.lexeme = .idle) (ha : s.awaiting = .commaOrClose) :
    s.comma = .ok (s.after ⟨[], .comma s.stack.length⟩ ⟨.next s.stack, s.stack⟩) := by
  unfold State.comma
  rw [if_pos ha]
  simp [State.after, State.emit, State.advance, hl]
  exact ⟨rfl, rfl, rfl⟩

theorem State.colon_eq (hl : s.lexeme = .idle) (ha : s.awaiting = .colon) :
    s.colon = .ok (s.after ⟨[], .colon s.stack.length⟩ ⟨.value, s.stack⟩) := by
  unfold State.colon
  rw [if_pos ha]
  simp [State.after, State.emit, State.advance, hl]
  exact ⟨rfl, rfl⟩

theorem Reads.keyword (w : Keyword) (hl : s.lexeme = .idle)
    (ha : s.awaiting.admitsValue limits.several) :
    Reads limits s w.spelling
      (s.after ⟨[], ⟨.word w, s.stack.length, w.spelling⟩⟩ s.control.endValue) := by
  obtain ⟨b, later, hw, hne, hb⟩ : ∃ b later, w.spelling = b :: later ∧ later ≠ [] ∧
      Lead.ofByte b = .word w := by cases w <;> exact ⟨_, _, rfl, nofun, rfl⟩
  have hfirst : s.read limits b = .ok (s.ahead 1 (.word s.pos w later)) := by
    rw [State.read_idle hl, hb, State.start, if_pos ha, hw]
    rfl
  have hlater : Reads limits (s.ahead 1 (.word s.pos w later)) later _ := Reads.letters hne rfl
  rw [State.ahead_ahead] at hlater
  have hend : s.after ⟨[], ⟨.word w, s.stack.length, w.spelling⟩⟩ s.control.endValue =
      ((s.ahead (1 + later.length) .idle).emit (.word w) s.pos
        ((s.ahead 1 (.word s.pos w later)).pos + later.length - s.pos)).endValue := by
    simp [State.after, State.ahead, State.emit, State.endValue, State.control, Control.endValue,
      Piece.text, Piece.token, Leaf.spelling, Leaf.isQuoted, hw]
    omega
  rw [hend, hw]
  exact .cons hfirst hlater

/-- A leaf that is no number is read to its end. -/
theorem Reads.leaf {l : Leaf} {c c' : Control} (hl : s.lexeme = .idle) (hc : s.control = c)
    (hsp : Spells l.kind l.content) (hs : Control.Step limits c l c') (hk : l.kind ≠ .number) :
    Reads limits s l.spelling (s.after ⟨[], l⟩ c') := by
  cases hs with
  | opening k ha hd =>
    subst hc
    refine .single ?_
    rw [State.read_idle hl, show Lead.ofByte k.opener = .opening k by cases k <;> rfl]
    exact State.push_eq hl ha hd k
  | closing k ha =>
    obtain ⟨rfl, hst⟩ := Control.mk.inj hc
    refine .single ?_
    rw [State.read_idle hl, show Lead.ofByte k.closer = .closing k by cases k <;> rfl]
    exact State.pop_eq hst ha
  | comma =>
    obtain ⟨ha, rfl⟩ := Control.mk.inj hc
    refine .single ?_
    rw [State.read_idle hl]
    exact State.comma_eq hl ha
  | colon =>
    obtain ⟨ha, rfl⟩ := Control.mk.inj hc
    refine .single ?_
    rw [State.read_idle hl]
    exact State.colon_eq hl ha
  | key name ha =>
    subst hc
    cases hsp with
    | key hc =>
      refine .quoted hl (by rw [Bool.or_eq_true]; exact .inl ha) hc ?_
      unfold State.endString
      rw [if_pos (show (s.ahead _ _).awaiting.admitsKey from ha)]
      simp [State.after, State.emit, State.advance, State.ahead, State.control, Piece.text,
        Piece.token, Leaf.spelling, Leaf.isQuoted, Leaf.key, FlatJson.quoted]
      omega
  | @scalar _ kind content hsc ha =>
    subst hc
    have hkey := Awaiting.not_admitsKey ha
    cases hsp with
    | string hc =>
      refine .quoted hl (by rw [Bool.or_eq_true]; exact .inr ha) hc ?_
      unfold State.endString
      rw [if_neg (show ¬ (s.ahead _ _).awaiting.admitsKey from hkey)]
      simp [State.after, State.emit, State.advance, State.ahead, State.endValue, State.control,
        Control.endValue, Piece.text, Piece.token, Leaf.spelling, Leaf.isQuoted, FlatJson.quoted]
      omega
    | number => exact absurd rfl hk
    | word w =>
      exact .keyword w hl ha
    | _ => cases hsc

/-- Settling twice is settling once. -/
theorem State.settle_settle (s : State) (next : Option UInt8) :
    (s.settle next).settle next = s.settle next := by
  cases hl : (s.settle next).lexeme with
  | number start part =>
    have hne := State.settle_settled hl
    rw [State.settle, hl]
    exact if_neg hne
  | _ => simp only [State.settle.eq_def (s.settle next), hl]

/-- It does not matter when a number is settled. -/
theorem scanFrom_settle (s : State) (rest : Bytes) :
    scanFrom limits (s.settle rest.head?) rest = scanFrom limits s rest := by
  cases rest with
  | nil => simp only [scanFrom, List.head?_nil, State.settle_settle]
  | cons b rest => simp only [scanFrom, List.head?_cons, State.settle_settle]

/-- A number is read to its end and settled, if what follows continues no number. -/
theorem scanFrom_number {content rest : Bytes} (hl : s.lexeme = .idle)
    (ha : s.awaiting.admitsValue limits.several) (hn : IsNumber content)
    (hrest : ∀ b, rest.head? = some b → ¬ NumberPart.continues b) :
    scanFrom limits s (content ++ rest) =
      scanFrom limits (s.after ⟨[], ⟨.number, s.stack.length, content⟩⟩ s.control.endValue)
        rest := by
  obtain ⟨b, t, p, q, rfl, hb, ht, hq⟩ := NumberPart.Reads.of_isNumber hn
  have hfirst : s.read limits b = .ok (s.ahead 1 (.number s.pos p)) := by
    rw [State.read_idle hl, hb, State.start, if_pos ha]
    rfl
  have hlater : Reads limits (s.ahead 1 (.number s.pos p)) t
      (s.ahead (1 + t.length) (.number s.pos q)) := by
    have h : Reads limits (s.ahead 1 (.number s.pos p)) t _ := Reads.number ht rfl
    rwa [State.ahead_ahead] at h
  -- The byte after the number settles it before being read.
  have hdone : q.read rest.head? = .done := NumberPart.read_done hq hrest
  have hsettle : (s.ahead (1 + t.length) (.number s.pos q)).settle rest.head? =
      s.after ⟨[], ⟨.number, s.stack.length, b :: t⟩⟩ s.control.endValue := by
    simp [State.settle, State.ahead, hdone, State.after, State.emit, State.endValue, State.control,
      Control.endValue, Piece.text, Piece.token, Leaf.spelling, Leaf.isQuoted]
    omega
  rw [(Reads.cons hfirst hlater).scanFrom_eq rest, ← scanFrom_settle, hsettle]

theorem scanFrom_leaf {l : Leaf} {c c' : Control} {rest : Bytes} (hl : s.lexeme = .idle)
    (hc : s.control = c) (hsp : Spells l.kind l.content) (hs : Control.Step limits c l c')
    (hnum : l.kind = .number → ∀ b, rest.head? = some b → ¬ NumberPart.continues b) :
    scanFrom limits s (l.spelling ++ rest) = scanFrom limits (s.after ⟨[], l⟩ c') rest := by
  by_cases hk : l.kind = .number
  · cases hs with
    | @scalar _ kind content hsc ha =>
      obtain rfl : kind = .number := hk
      subst hc
      cases hsp with
      | number hn => exact scanFrom_number hl ha hn (hnum rfl)
    | _ => cases hk
  · exact (Reads.leaf hl hc hsp hs hk).scanFrom_eq rest

theorem scanFrom_piece {p : Piece} {c : Control} {rest : Bytes} (hl : s.lexeme = .idle)
    (hp : p.Proper) (hs : Control.Step limits s.control p.leaf c)
    (hnum : p.leaf.kind = .number → ∀ b, rest.head? = some b → ¬ NumberPart.continues b) :
    scanFrom limits s (p.text ++ rest) = scanFrom limits (s.after p c) rest := by
  have hc : (s.ahead p.pad.length .idle).control = s.control := rfl
  rw [Piece.text, List.append_assoc, (Reads.blank hp.1 hl).scanFrom_eq,
    scanFrom_leaf rfl hc hp.2 hs hnum, State.after_ahead]

/-! ## Pieces in a row -/

theorem Control.Step.awaiting_of_number {c c' : Control} {l : Leaf} (h : Control.Step limits c l c')
    (hk : l.kind = .number) :
    c'.awaiting = .commaOrClose ∨ (c'.awaiting = .ending ∧ l.depth = 0) := by
  cases h with
  | scalar content hsc ha =>
    unfold Control.endValue
    by_cases hs : c.stack = []
    · exact .inr ⟨by rw [hs]; rfl, by rw [hs]; rfl⟩
    · exact .inl (if_neg (by simpa using hs))
  | _ => cases hk

theorem not_continues_of_isBlank : ∀ b, Byte.isBlank b → ¬ NumberPart.continues b := by
  decide +kernel

/-- After a value, nothing but a digit could continue a number. -/
theorem not_continues_of_run {c c' : Control} {ps : List Piece} {trail : Bytes}
    (h : Control.Run limits c (ps.map Piece.leaf) c') (hps : ∀ p ∈ ps, p.Proper)
    (ht : Blank trail) (hc : c.awaiting = .commaOrClose ∨
      (c.awaiting = .ending ∧ ¬ StartsWithDigit (spread ps ++ trail))) :
    ∀ b, (spread ps ++ trail).head? = some b → ¬ NumberPart.continues b := by
  intro b hb
  cases ps with
  | nil => exact not_continues_of_isBlank b (ht b (List.mem_of_mem_head? hb))
  | cons p ps =>
    obtain ⟨pad, l⟩ := p
    obtain ⟨hpad, hsp⟩ := hps _ List.mem_cons_self
    cases pad with
    | cons x pad =>
      obtain rfl : x = b := Option.some.inj hb
      exact not_continues_of_isBlank x (hpad x List.mem_cons_self)
    | nil =>
      -- Without blanks before it, the first byte of the leaf itself must not continue the number.
      cases h with
      | cons hs _ =>
        cases hs with
        | opening k => cases k <;> obtain rfl := Option.some.inj hb <;> decide
        | closing k => cases k <;> obtain rfl := Option.some.inj hb <;> decide
        | comma => obtain rfl := Option.some.inj hb; decide
        | colon => obtain rfl := Option.some.inj hb; decide
        | key => obtain rfl := Option.some.inj hb; decide
        | scalar content hsc ha =>
          rcases hc with hc | ⟨-, hnum⟩
          · rw [hc] at ha
            cases ha
          · cases hsp with
            | string => obtain rfl := Option.some.inj hb; decide
            | word w => cases w <;> obtain rfl := Option.some.inj hb <;> decide
            | number hn =>
              obtain ⟨x, t, p, q, rfl, hx, -, -⟩ := NumberPart.Reads.of_isNumber hn
              obtain rfl : x = b := Option.some.inj hb
              have hd : ¬ Byte.isDigit x := fun hd => hnum ⟨x, rfl, hd⟩
              have hother : ∀ b, NumberPart.continues b → ¬ Byte.isDigit b →
                  Lead.ofByte b = .other := by decide +kernel
              intro hcont
              rw [hother x hcont hd] at hx
              cases hx
            | _ => cases hsc

/-- The state after pieces that lead to what `c` says. -/
def State.afterAll (s : State) (ps : List Piece) (c : Control) : State :=
  ⟨s.pos + (spread ps).length, c.awaiting, c.stack, (tokensAt s.pos ps).reverse ++ s.emitted, .idle⟩

/-- **Pieces whose leaves the automaton runs through are read to their end.** -/
theorem scanFrom_pieces {c c' : Control} {ps : List Piece} {trail : Bytes} (hl : s.lexeme = .idle)
    (hc : s.control = c) (h : Control.Run limits c (ps.map Piece.leaf) c')
    (hps : ∀ p ∈ ps, p.Proper) (ht : Blank trail) (hapart : Apart ps trail) :
    scanFrom limits s (spread ps ++ trail) = scanFrom limits (s.afterAll ps c') trail := by
  induction ps generalizing s c with
  | nil =>
    cases h
    subst hc
    have hs : s.afterAll [] s.control = s := by
      obtain ⟨pos, awaiting, stack, emitted, lexeme⟩ := s
      subst hl
      rfl
    rw [hs, spread_nil, List.nil_append]
  | cons p ps ih =>
    subst hc
    cases h with
    | @cons _ c₁ _ _ _ hs hr =>
      have hps' : ∀ q ∈ ps, q.Proper := fun q hq => hps q (List.mem_cons_of_mem _ hq)
      -- Outside containers the pieces are apart, and inside them a comma or a bracket comes next.
      have hnum : p.leaf.kind = .number →
          ∀ b, (spread ps ++ trail).head? = some b → ¬ NumberPart.continues b := by
        intro hk
        refine not_continues_of_run hr hps' ht ?_
        rcases hs.awaiting_of_number hk with hc | ⟨hc, hd⟩
        · exact .inl hc
        · exact .inr ⟨hc, hapart.1 hk hd⟩
      have hp := scanFrom_piece hl (hps p List.mem_cons_self) hs hnum
      have hrest := ih (s := s.after p c₁) rfl rfl hr hps' hapart.2
      have hstate : (s.after p c₁).afterAll ps c' = s.afterAll (p :: ps) c' := by
        simp [State.after, State.afterAll, tokensAt, Nat.add_assoc]
      rw [spread_cons, List.append_assoc, hp, hrest, hstate]

/-! ## Whole texts -/

/-- **Every layout of values within the limits is accepted, and its tokens are those of its
pieces.** -/
theorem scan_of_laidText {roots : List Value} {ps : List Piece} {trail text : Bytes}
    (h : LaidText roots ps trail text) (hs : limits.several ∨ roots.length = 1)
    (hd : ∀ v ∈ roots, v.nesting ≤ limits.maxDepth) :
    scan limits text = ⟨tokensAt 0 ps, [], none⟩ := by
  have hrun : Control.Run limits {} (ps.map Piece.leaf) ⟨.ending, []⟩ := by
    rw [h.leaves]
    exact Control.Run.roots h.ne_nil hs hd rfl rfl
  have hps := scanFrom_pieces (s := {}) rfl rfl hrun h.proper h.blank h.apart
  have htrail : Reads limits (State.afterAll {} ps ⟨.ending, []⟩) trail _ := Reads.blank h.blank rfl
  have hend := htrail.scanFrom_eq []
  rw [List.append_nil] at hend
  rw [scan, h.text_eq, hps, hend]
  simp [scanFrom, State.settle, State.ahead, State.afterAll, State.outcome, State.finish]

/-- **The scanner accepts exactly the texts of the language.** -/
theorem scan_error_eq_none_iff (limits : Limits) (text : Bytes) :
    (scan limits text).error = none ↔ InLanguage limits text := by
  constructor
  · intro h
    obtain ⟨roots, ps, trail, hl, hs, hd, -⟩ := layout_of_scan h
    exact ⟨roots, hl.writtenText, hd, hs⟩
  · rintro ⟨roots, hw, hd, hs⟩
    obtain ⟨ps, trail, hl⟩ := hw.laidText
    rw [scan_of_laidText hl hs hd]

end FlatJson.Scan
