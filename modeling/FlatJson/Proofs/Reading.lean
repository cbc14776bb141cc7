import FlatJson.Proofs.Layout
import FlatJson.Proofs.Lexemes
import FlatJson.Proofs.Spot

/-!
# What the scanner has read

In every state the scanner gets to, the bytes read so far are complete pieces, whose tokens it has
emitted, and then the beginning of one more.

* `Begun` — the beginning of one more piece, for each lexeme.
* `Reading` — the invariant of the scanner.
* `Reads` — from state to state by some bytes.

`Reading.settle` and `Reading.feed` preserve the invariant, `Reads.reading` carries it through a
run, `scanFrom_stops` says where runs end, and `layout_of_scan` is what it comes to for a text
without an error.
-/

namespace FlatJson.Scan

/-! ## The invariant -/

/-- The part of a state that decides between tokens. -/
def State.control (s : State) : Control := ⟨s.awaiting, s.stack⟩

/-- What has been read since the last complete token, which ended at `start`. -/
inductive Begun (limits : Limits) (a : Awaiting) (start : Nat) : Lexeme → Bytes → Prop
  | idle {pad : Bytes} : Blank pad → Begun limits a start .idle pad
  | string {pad got : Bytes} {part : StringPart} :
      Blank pad → (a.admitsKey ∨ a.admitsValue limits.several) →
      part.Holds (start + pad.length + 1) got →
      Begun limits a start (.string (start + pad.length) part) (pad ++ Byte.quote :: got)
  | number {pad got : Bytes} {part : NumberPart} :
      Blank pad → a.admitsValue limits.several → part.Holds got →
      Begun limits a start (.number (start + pad.length) part) (pad ++ got)
  | word {pad got missing : Bytes} {w : Keyword} :
      Blank pad → a.admitsValue limits.several → got ++ missing = w.spelling →
      Begun limits a start (.word (start + pad.length) w missing) (pad ++ got)

/-- The scanner has read the pieces `ps` and then `tail`, and the text goes on with `rest`. -/
structure Reading (limits : Limits) (ps : List Piece) (tail rest : Bytes) (s : State) : Prop where
  pos : s.pos = (spread ps).length + tail.length
  emitted : s.emitted.reverse = tokensAt 0 ps
  proper : ∀ p ∈ ps, p.Proper
  run : Control.Run limits {} (ps.map Piece.leaf) s.control
  apart : Apart ps (tail ++ rest)
  begun : Begun limits s.awaiting (spread ps).length s.lexeme tail

namespace Reading

variable {limits : Limits} {ps : List Piece} {tail rest : Bytes} {s s' : State} {b : UInt8}

theorem initial (limits : Limits) (text : Bytes) : Reading limits [] [] text {} :=
  ⟨rfl, rfl, fun _ h => absurd h List.not_mem_nil, .nil _, trivial, .idle .nil⟩

theorem blank (h : Reading limits ps tail rest s) (hl : s.lexeme = .idle) : Blank tail := by
  have hb := h.begun
  rw [hl] at hb
  cases hb with
  | idle hp => exact hp

/-- One more piece is complete. -/
theorem piece {rest₀ : Bytes} (h : Reading limits ps tail rest₀ s) (p : Piece) (hp : p.Proper)
    (hrest : tail ++ rest₀ = p.text ++ rest)
    (hnum : p.leaf.kind = .number → ¬ StartsWithDigit rest)
    (hstep : Control.Step limits s.control p.leaf s'.control)
    (hpos : s'.pos = (spread ps).length + p.text.length)
    (hemit : s'.emitted = p.token (spread ps).length :: s.emitted)
    (hl : s'.lexeme = .idle) : Reading limits (ps ++ [p]) [] rest s' := by
  have hspread : spread (ps ++ [p]) = spread ps ++ p.text := by
    rw [spread_append, spread_cons, spread_nil, List.append_nil]
  refine ⟨?_, ?_, ?_, ?_, ?_, ?_⟩
  · rw [hpos, hspread, List.length_append, List.length_nil, Nat.add_zero]
  · rw [hemit, List.reverse_cons, h.emitted, tokensAt_append, Nat.zero_add]
    rfl
  · intro q hq
    rcases List.mem_append.1 hq with hq | hq
    · exact h.proper q hq
    · rwa [List.mem_singleton.1 hq]
  · rw [List.map_append]
    exact h.run.append (.single hstep)
  · rw [apart_append, spread_cons, spread_nil, List.append_nil, List.nil_append, ← hrest]
    exact ⟨h.apart, fun hk _ => hnum hk, trivial⟩
  · rw [hl]
    exact .idle .nil

/-! ## Between tokens -/

/-- A bracket, a comma or a colon is a piece of its own. -/
theorem mark (h : Reading limits ps tail (b :: rest) s) (hl : s.lexeme = .idle) (l : Leaf)
    (hc : l.content = [b]) (hsp : Spells l.kind l.content) (hk : ¬ l.kind.isScalar)
    (hq : l.isQuoted = false) (hstep : Control.Step limits s.control l s'.control)
    (hpos : s'.pos = s.pos + 1)
    (hemit : s'.emitted = ⟨l.kind, min l.depth maxReportedDepth, s.pos, 1⟩ :: s.emitted)
    (hl' : s'.lexeme = .idle) : Reading limits (ps ++ [⟨tail, l⟩]) [] rest s' := by
  have hsp' : l.spelling = [b] := by rw [Leaf.spelling, hq, ← hc]; rfl
  refine h.piece _ ⟨h.blank hl, hsp⟩ ?_ ?_ hstep ?_ ?_ hl'
  · rw [Piece.text, hsp', List.append_assoc]
    rfl
  · intro hn
    rw [hn] at hk
    exact absurd rfl hk
  · rw [hpos, h.pos, Piece.text, hsp', List.length_append, List.length_singleton, Nat.add_assoc]
  · rw [hemit, Piece.token, hq, hc, h.pos]
    rfl

theorem push (h : Reading limits ps tail (b :: rest) s) (hl : s.lexeme = .idle) {c : Container}
    (hb : b = c.opener) (hs : s.push limits c = .ok s') :
    Reading limits (ps ++ [⟨tail, .opening c s.stack.length⟩]) [] rest s' := by
  simp only [State.push] at hs
  split at hs
  · cases hs
  · rename_i ha
    split at hs
    · cases hs
    · rename_i hd
      have hstep : Control.Step limits ⟨s.awaiting, s.stack⟩ (.opening c s.stack.length)
          ⟨.inside c, c :: s.stack⟩ := .opening c (by simpa using ha) (Nat.lt_of_not_le hd)
      subst hb
      cases hs
      exact h.mark hl _ rfl (.opening c) nofun rfl (by cases c <;> exact hstep) rfl rfl hl

theorem pop (h : Reading limits ps tail (b :: rest) s) (hl : s.lexeme = .idle) {c : Container}
    (hb : b = c.closer) (hs : s.pop c = .ok s') :
    ∃ depth, Reading limits (ps ++ [⟨tail, .closing c depth⟩]) [] rest s' := by
  simp only [State.pop] at hs
  split at hs
  · cases hs
  · rename_i top outer hstack
    split at hs
    · cases hs
    · rename_i ha
      split at hs
      · rename_i htop
        subst htop hb
        have hstep : Control.Step limits ⟨s.awaiting, s.stack⟩ (.closing c outer.length)
            (Control.endValue ⟨s.awaiting, outer⟩) := by
          rw [hstack]
          exact .closing c (by simpa using ha)
        cases hs
        exact ⟨outer.length, h.mark hl _ rfl (.closing c) nofun rfl hstep rfl rfl rfl⟩
      · cases hs

theorem comma (h : Reading limits ps tail (0x2C :: rest) s) (hl : s.lexeme = .idle)
    (hs : s.comma = .ok s') :
    Reading limits (ps ++ [⟨tail, .comma s.stack.length⟩]) [] rest s' := by
  simp only [State.comma] at hs
  split at hs
  · rename_i ha
    have hstep : Control.Step limits ⟨s.awaiting, s.stack⟩ (.comma s.stack.length)
        ⟨.next s.stack, s.stack⟩ := by
      rw [ha]
      exact .comma
    cases hs
    exact h.mark hl _ rfl .comma nofun rfl hstep rfl rfl hl
  · cases hs

theorem colon (h : Reading limits ps tail (0x3A :: rest) s) (hl : s.lexeme = .idle)
    (hs : s.colon = .ok s') :
    Reading limits (ps ++ [⟨tail, .colon s.stack.length⟩]) [] rest s' := by
  simp only [State.colon] at hs
  split at hs
  · rename_i ha
    have hstep : Control.Step limits ⟨s.awaiting, s.stack⟩ (.colon s.stack.length)
        ⟨.value, s.stack⟩ := by
      rw [ha]
      exact .colon
    cases hs
    exact h.mark hl _ rfl .colon nofun rfl hstep rfl rfl hl
  · cases hs

/-- One more byte that completes no piece. -/
theorem more (h : Reading limits ps tail (b :: rest) s) {lexeme : Lexeme}
    (hb : Begun limits s.awaiting (spread ps).length lexeme (tail ++ [b])) :
    Reading limits ps (tail ++ [b]) rest { s.advance with lexeme := lexeme } := by
  refine ⟨?_, h.emitted, h.proper, h.run, ?_, hb⟩
  · rw [List.length_append, ← Nat.add_assoc, ← h.pos]
    rfl
  · rw [List.append_assoc]
    exact h.apart

/-- The first byte of a token, or a blank. -/
theorem start (h : Reading limits ps tail (b :: rest) s) (hl : s.lexeme = .idle)
    (hs : s.start limits (Lead.ofByte b) = .ok s') :
    ∃ ps' tail', Reading limits ps' tail' rest s' ∧
      spread ps' ++ tail' = spread ps ++ tail ++ [b] := by
  have hpad := h.blank hl
  have hpiece : ∀ l : Leaf, l.spelling = [b] →
      spread (ps ++ [⟨tail, l⟩]) ++ [] = spread ps ++ tail ++ [b] := by
    intro l hsp
    simp [Piece.text, hsp]
  cases hb : Lead.ofByte b with
  | blank =>
    rw [hb] at hs
    cases hs
    have hbl : Byte.isBlank b := (Lead.ofByte_eq_iff (by simp) b).1 hb
    have hmore : Reading limits ps (tail ++ [b]) rest { s.advance with lexeme := s.lexeme } := by
      refine h.more ?_
      rw [hl]
      exact .idle (hpad.append (fun c hc => by rwa [List.mem_singleton.1 hc]))
    exact ⟨ps, tail ++ [b], hmore, (List.append_assoc _ _ _).symm⟩
  | opening c =>
    rw [hb] at hs
    have hc : b = c.opener := eq_of_beq ((Lead.ofByte_eq_iff (by simp) b).1 hb)
    exact ⟨_, _, h.push hl hc hs, hpiece _ (by rw [hc]; rfl)⟩
  | closing c =>
    rw [hb] at hs
    have hc : b = c.closer := eq_of_beq ((Lead.ofByte_eq_iff (by simp) b).1 hb)
    obtain ⟨depth, hr⟩ := h.pop hl hc hs
    exact ⟨_, _, hr, hpiece _ (by rw [hc]; rfl)⟩
  | comma =>
    rw [hb] at hs
    obtain rfl : b = 0x2C := eq_of_beq ((Lead.ofByte_eq_iff (by simp) b).1 hb)
    exact ⟨_, _, h.comma hl hs, hpiece _ rfl⟩
  | colon =>
    rw [hb] at hs
    obtain rfl : b = 0x3A := eq_of_beq ((Lead.ofByte_eq_iff (by simp) b).1 hb)
    exact ⟨_, _, h.colon hl hs, hpiece _ rfl⟩
  | quote =>
    rw [hb] at hs
    obtain rfl : b = Byte.quote := eq_of_beq ((Lead.ofByte_eq_iff (by simp) b).1 hb)
    simp only [State.start] at hs
    split at hs
    · rename_i ha
      cases hs
      refine ⟨ps, tail ++ [Byte.quote], h.more ?_, (List.append_assoc _ _ _).symm⟩
      rw [h.pos]
      exact .string hpad (by simpa using ha) (.body .nil)
    · cases hs
  | number part =>
    rw [hb] at hs
    simp only [State.start] at hs
    split at hs
    · rename_i ha
      cases hs
      refine ⟨ps, tail ++ [b], h.more ?_, (List.append_assoc _ _ _).symm⟩
      rw [h.pos]
      exact .number hpad ha (.of_lead hb)
    · cases hs
  | word w =>
    rw [hb] at hs
    have hw : w.spelling.head? = some b := eq_of_beq ((Lead.ofByte_eq_iff (by simp) b).1 hb)
    simp only [State.start] at hs
    split at hs
    · rename_i ha
      cases hs
      refine ⟨ps, tail ++ [b], h.more ?_, (List.append_assoc _ _ _).symm⟩
      rw [h.pos]
      exact .word hpad ha (by cases w <;> cases hw <;> rfl)
    · cases hs
  | other =>
    rw [hb] at hs
    cases hs

/-! ## Inside a token -/

theorem endString {pad got : Bytes}
    (h : Reading limits ps (pad ++ Byte.quote :: got) (Byte.quote :: rest) s) (hp : Blank pad)
    (ha : s.awaiting.admitsKey ∨ s.awaiting.admitsValue limits.several) (hc : IsContent got) :
    ∃ ps' tail', Reading limits ps' tail' rest (s.endString ((spread ps).length + pad.length)) ∧
      spread ps' ++ tail' = spread ps ++ (pad ++ Byte.quote :: got) ++ [Byte.quote] := by
  have hpos : s.pos = (spread ps).length + pad.length + 1 + got.length := by
    rw [h.pos, List.length_append, List.length_cons]
    omega
  have htext : ∀ l : Leaf, l.spelling = quoted got → (Piece.mk pad l).text = pad ++ quoted got :=
    fun l hl => by rw [Piece.text, hl]
  have hlen : (pad ++ quoted got).length = pad.length + 1 + got.length + 1 := by
    simp [quoted]
    omega
  unfold State.endString
  split
  · rename_i hk
    have ht := htext (.key ⟨got⟩ s.stack.length) rfl
    refine ⟨ps ++ [⟨pad, .key ⟨got⟩ s.stack.length⟩], [], h.piece _ ⟨hp, .key hc⟩ ?_
      (fun hn => by cases hn) (.key ⟨got⟩ hk) ?_ ?_ rfl, ?_⟩
    · rw [ht]
      simp [quoted]
    · rw [ht, hlen]
      simp only [State.advance, State.emit, hpos]
      omega
    · simp [State.advance, State.emit, Piece.token, Leaf.key, Leaf.isQuoted, hpos]
      omega
    · simp [ht, quoted]
  · rename_i hk
    have hv : s.awaiting.admitsValue limits.several := ha.resolve_left hk
    have ht := htext ⟨.string, s.stack.length, got⟩ rfl
    refine ⟨ps ++ [⟨pad, ⟨.string, s.stack.length, got⟩⟩], [], h.piece _ ⟨hp, .string hc⟩ ?_
      (fun hn => by cases hn) (.scalar got rfl hv) ?_ ?_ rfl, ?_⟩
    · rw [ht]
      simp [quoted]
    · rw [ht, hlen]
      simp only [State.endValue, State.advance, State.emit, hpos]
      omega
    · simp [State.endValue, State.advance, State.emit, Piece.token, Leaf.isQuoted, hpos]
      omega
    · simp [ht, quoted]

theorem string (h : Reading limits ps tail (b :: rest) s) {start : Nat} {part : StringPart}
    (hl : s.lexeme = .string start part) (hs : s.inString start part b = .ok s') :
    ∃ ps' tail', Reading limits ps' tail' rest s' ∧
      spread ps' ++ tail' = spread ps ++ tail ++ [b] := by
  have hbegun := h.begun
  rw [hl] at hbegun
  cases hbegun with
  | @string pad got part hpad ha hp =>
    have hpos : s.pos = (spread ps).length + pad.length + 1 + got.length := by
      rw [h.pos, List.length_append, List.length_cons]
      omega
    rcases hp.inString hpos hs with ⟨rfl, hc, rfl⟩ | ⟨part', hp', rfl⟩
    · exact h.endString hpad ha hc
    · refine ⟨ps, pad ++ Byte.quote :: got ++ [b], h.more ?_, (List.append_assoc _ _ _).symm⟩
      rw [List.append_assoc]
      exact .string hpad ha hp'

theorem word (h : Reading limits ps tail (b :: rest) s) {start : Nat} {w : Keyword}
    {missing : Bytes} (hl : s.lexeme = .word start w missing)
    (hs : s.inWord start w missing b = .ok s') :
    ∃ ps' tail', Reading limits ps' tail' rest s' ∧
      spread ps' ++ tail' = spread ps ++ tail ++ [b] := by
  have hbegun := h.begun
  rw [hl] at hbegun
  cases hbegun with
  | @word pad got _ _ hpad ha hw =>
    cases missing with
    | nil => cases hs
    | cons next later =>
      simp only [State.inWord] at hs
      split at hs
      · rename_i hb
        subst hb
        split at hs
        · rename_i hlater
          obtain rfl : later = [] := List.isEmpty_iff.1 hlater
          have hlen : w.spelling.length = got.length + 1 := by
            rw [← hw, List.length_append, List.length_singleton]
          have hpos : s.pos = (spread ps).length + pad.length + got.length := by
            rw [h.pos, List.length_append, Nat.add_assoc]
          cases hs
          refine ⟨ps ++ [⟨pad, ⟨.word w, s.stack.length, w.spelling⟩⟩], [], h.piece _
            ⟨hpad, .word w⟩ ?_ nofun (.scalar _ rfl ha) ?_ ?_ rfl, ?_⟩
          · simp [Piece.text, Leaf.spelling, Leaf.isQuoted, ← hw]
          · simp only [State.endValue, State.advance, State.emit, Piece.text, Leaf.spelling,
              Leaf.isQuoted, Bool.false_eq_true, if_false, List.length_append, hpos, hlen]
            omega
          · simp [State.endValue, State.advance, State.emit, Piece.token, Leaf.isQuoted, hpos, hlen]
            omega
          · simp [Piece.text, Leaf.spelling, Leaf.isQuoted, ← hw]
        · cases hs
          refine ⟨ps, pad ++ got ++ [b], h.more ?_, (List.append_assoc _ _ _).symm⟩
          rw [List.append_assoc]
          exact .word hpad ha (by rw [List.append_assoc]; exact hw)
      · cases hs

/-- A number that ends before the bytes to come. -/
theorem settle (h : Reading limits ps tail rest s) :
    ∃ ps' tail', Reading limits ps' tail' rest (s.settle rest.head?) ∧
      spread ps' ++ tail' = spread ps ++ tail := by
  unfold State.settle
  split
  · rename_i start part hl
    split
    · rename_i hdone
      have hbegun := h.begun
      rw [hl] at hbegun
      cases hbegun with
      | @number pad got _ hpad ha hp =>
        have hnum : ¬ StartsWithDigit rest := by
          rintro ⟨b, hb, hd⟩
          rw [hb] at hdone
          exact NumberPart.not_isDigit_of_done hdone hd
        have hpos : s.pos = (spread ps).length + pad.length + got.length := by
          rw [h.pos, List.length_append, Nat.add_assoc]
        refine ⟨ps ++ [⟨pad, ⟨.number, s.stack.length, got⟩⟩], [], h.piece _
          ⟨hpad, .number (hp.isNumber hdone)⟩ rfl (fun _ => hnum) (.scalar _ rfl ha) ?_ ?_ rfl, ?_⟩
        · rw [Piece.text, List.length_append, ← Nat.add_assoc]
          exact hpos
        · simp [State.endValue, State.emit, Piece.token, Leaf.isQuoted, hpos]
        · simp [Piece.text, Leaf.spelling, Leaf.isQuoted]
    · exact ⟨ps, tail, h, rfl⟩
  · exact ⟨ps, tail, h, rfl⟩

/-- One byte that continues the lexeme or starts the next. -/
theorem feed (h : Reading limits ps tail (b :: rest) s)
    (hset : ∀ start part, s.lexeme = .number start part → part.read (some b) ≠ .done)
    (hs : s.feed limits b = .ok s') :
    ∃ ps' tail', Reading limits ps' tail' rest s' ∧
      spread ps' ++ tail' = spread ps ++ tail ++ [b] := by
  unfold State.feed at hs
  cases hl : s.lexeme with
  | idle =>
    rw [hl] at hs
    exact h.start hl hs
  | string start part =>
    rw [hl] at hs
    exact h.string hl hs
  | word start w missing =>
    rw [hl] at hs
    exact h.word hl hs
  | number start part =>
    have hbegun := h.begun
    rw [hl] at hs hbegun
    cases hbegun with
    | @number pad got _ hpad ha hp =>
      cases hread : part.read (some b) with
      | done => exact absurd hread (hset _ part hl)
      | wrong expected =>
        simp only [hread] at hs
        cases hs
      | more part' =>
        simp only [hread] at hs
        cases hs
        refine ⟨ps, pad ++ got ++ [b], h.more ?_, (List.append_assoc _ _ _).symm⟩
        rw [List.append_assoc]
        exact .number hpad ha (hp.read hread)

end Reading

/-! ## Runs -/

/-- A number goes on after settling only where the next byte does not end it. -/
theorem State.settle_settled {s : State} {next : Option UInt8} {start : Nat} {part : NumberPart}
    (h : (s.settle next).lexeme = .number start part) : part.read next ≠ .done := by
  unfold State.settle at h
  split at h
  · split at h
    · cases h
    · rename_i hl hread
      rw [hl] at h
      cases h
      exact hread
  · rename_i hl
    exact absurd h (hl start part)

/-- One byte, with the token that ends before it. -/
def State.read (limits : Limits) (s : State) (b : UInt8) : Except Refusal State :=
  (s.settle (some b)).feed limits b

/-- From state to state by some bytes. -/
inductive Reads (limits : Limits) : State → Bytes → State → Prop
  | nil (s : State) : Reads limits s [] s
  | cons {s s' s'' : State} {b : UInt8} {t : Bytes} :
      s.read limits b = .ok s' → Reads limits s' t s'' → Reads limits s (b :: t) s''

variable {limits : Limits} {s s' s'' : State} {t u rest : Bytes}

theorem Reads.append (h : Reads limits s t s') (h' : Reads limits s' u s'') :
    Reads limits s (t ++ u) s'' := by
  induction h with
  | nil => exact h'
  | cons hb _ ih => exact .cons hb (ih h')

theorem Reads.reading (h : Reads limits s t s') {ps : List Piece} {tail : Bytes}
    (hr : Reading limits ps tail (t ++ rest) s) :
    ∃ ps' tail', Reading limits ps' tail' rest s' ∧
      spread ps' ++ tail' = spread ps ++ tail ++ t := by
  induction h generalizing ps tail with
  | nil => exact ⟨ps, tail, hr, (List.append_nil _).symm⟩
  | @cons s s' s'' b t hb _ ih =>
    -- A number ends before the byte is fed, so settling is a step of its own.
    obtain ⟨ps₁, tail₁, hr₁, h₁⟩ := hr.settle
    obtain ⟨ps₂, tail₂, hr₂, h₂⟩ := hr₁.feed (fun _ _ => State.settle_settled) hb
    obtain ⟨ps₃, tail₃, hr₃, h₃⟩ := ih hr₂
    refine ⟨ps₃, tail₃, hr₃, ?_⟩
    rw [h₃, h₂, h₁, List.append_assoc _ [b]]
    rfl

/-- What has been read from the start. -/
theorem Reads.exists_reading (h : Reads limits {} t s) :
    ∃ ps tail, Reading limits ps tail [] s ∧ spread ps ++ tail = t := by
  have hinit : Reading limits [] [] (t ++ []) {} := Reading.initial limits _
  obtain ⟨ps, tail, hr, ht⟩ := h.reading hinit
  exact ⟨ps, tail, hr, ht⟩

/-- Bytes that are read leave the rest of the scan to the state they lead to. -/
theorem Reads.scanFrom_eq (h : Reads limits s t s') (rest : Bytes) :
    scanFrom limits s (t ++ rest) = scanFrom limits s' rest := by
  induction h with
  | nil => rfl
  | cons hb _ ih =>
    unfold State.read at hb
    rw [List.cons_append, scanFrom, hb]
    exact ih

/-- **A scan reads all of the text, or up to a byte that is refused.** -/
theorem scanFrom_stops (limits : Limits) (s : State) (text : Bytes) :
    (∃ s', Reads limits s text s' ∧
      scanFrom limits s text = (s'.settle none).outcome (s'.settle none).finish) ∨
    ∃ t b rest s' refusal, text = t ++ b :: rest ∧ Reads limits s t s' ∧
      s'.read limits b = .error refusal ∧
      scanFrom limits s text = (s'.settle (some b)).outcome
        (some (refusal.error (s'.settle (some b)).pos (b :: rest))) := by
  induction text generalizing s with
  | nil => exact .inl ⟨s, .nil s, rfl⟩
  | cons b rest ih =>
    cases hb : s.read limits b with
    | error refusal =>
      refine .inr ⟨[], b, rest, s, refusal, rfl, .nil s, hb, ?_⟩
      unfold State.read at hb
      rw [scanFrom, hb]
    | ok s' =>
      have hstep : scanFrom limits s (b :: rest) = scanFrom limits s' rest := by
        unfold State.read at hb
        rw [scanFrom, hb]
      rw [hstep]
      rcases ih s' with ⟨s'', hr, he⟩ | ⟨t, c, more, s'', refusal, rfl, hr, hc, he⟩
      · exact .inl ⟨s'', .cons hb hr, he⟩
      · exact .inr ⟨b :: t, c, more, s'', refusal, rfl, .cons hb hr, hc, he⟩

/-! ## Texts without an error -/

/-- Nothing is wrong at the end only between tokens, after a complete value. -/
theorem State.of_finish (h : (s.settle none).finish = none) :
    (s.settle none).lexeme = .idle ∧ (s.settle none).awaiting = .ending := by
  unfold State.finish at h
  split at h
  · rename_i hl
    refine ⟨hl, ?_⟩
    split at h
    · assumption
    · cases h
    · cases h
  · cases h
  · cases h
  · rename_i start part hl
    rcases part.read_none with hdone | ⟨expected, hwrong⟩
    · exact absurd hdone (State.settle_settled hl)
    · rw [hwrong] at h
      cases h
  · cases h

/-- **A text that is scanned without an error is the layout of values within the limits, and the
tokens are those of its pieces.** -/
theorem layout_of_scan {text : Bytes} (h : (scan limits text).error = none) :
    ∃ roots ps trail, LaidText roots ps trail text ∧ (limits.several ∨ roots.length = 1) ∧
      (∀ v ∈ roots, v.nesting ≤ limits.maxDepth) ∧ (scan limits text).tokens = tokensAt 0 ps := by
  unfold scan at h ⊢
  -- Only a scan that reads all of the text can end without an error.
  rcases scanFrom_stops limits {} text with ⟨s, hr, he⟩ | ⟨_, _, _, _, _, _, _, _, he⟩
  · rw [he] at h ⊢
    obtain ⟨ps₁, tail₁, hr₁, h₁⟩ := hr.exists_reading
    obtain ⟨ps, tail, hr₂, h₂⟩ := hr₁.settle
    obtain ⟨hl, ha⟩ := State.of_finish h
    have hspells := spells_of_proper hr₂.proper
    obtain ⟨roots, hne, hs, hd, hleaves⟩ := hr₂.run.of_ending hspells ha
    have happ := hr₂.apart
    rw [List.append_nil] at happ
    exact ⟨roots, ps, tail, ⟨hne, hleaves, hr₂.proper, hr₂.blank hl, happ, by rw [h₂, h₁]⟩, hs, hd,
      hr₂.emitted⟩
  · rw [he] at h
    cases h

end FlatJson.Scan
