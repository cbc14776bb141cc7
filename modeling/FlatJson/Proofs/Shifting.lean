import FlatJson.Proofs.Emission
import FlatJson.Proofs.Viability

/-!
# The same text further on

Where a text stands, and what has been emitted before it, does not matter to the scan: its tokens
and its error are the same, at places so much further on.

* `Token.shift`, `LexError.shift` — a token and an error so many bytes further on.
* `State.shift` — the state of a scan that started so many bytes further on, after other tokens.

`State.read_shift` is about one byte, `Reads.shift` about bytes in a row, and `scanFrom_shift` about
a whole text.
-/

namespace FlatJson

def Token.shift (n : Nat) (t : Token) : Token := { t with offset := t.offset + n }

def LexError.shift (n : Nat) (e : LexError) : LexError := { e with offset := e.offset + n }

namespace Scan

/-! ## Places further on -/

/-- The part of a string with its places `n` bytes further on. -/
def StringPart.shift (n : Nat) : StringPart → StringPart
  | .body => .body
  | .escape => .escape
  | .digits backslash missing => .digits (backslash + n) missing
  | .tainted byte offset => .tainted byte (offset + n)

def Lexeme.shift (n : Nat) : Lexeme → Lexeme
  | .idle => .idle
  | .string start part => .string (start + n) (part.shift n)
  | .number start part => .number (start + n) part
  | .word start w missing => .word (start + n) w missing

def Refusal.shift (n : Nat) : Refusal → Refusal
  | .character expected => .character expected
  | .escape => .escape
  | .because kind offset => .because kind (offset + n)

/-- The state `n` bytes further on, where other tokens had been emitted before. -/
def State.shift (n : Nat) (before : List Token) (s : State) : State :=
  { s with
    pos := s.pos + n
    emitted := s.emitted.map (Token.shift n) ++ before
    lexeme := s.lexeme.shift n }

def Outcome.shift (n : Nat) (before : List Token) (o : Outcome) : Outcome :=
  ⟨before.reverse ++ o.tokens.map (Token.shift n), o.unclosed, o.error.map (LexError.shift n)⟩

/-- The effect of a byte, `n` bytes further on. -/
def shiftEffect (n : Nat) (before : List Token) : Except Refusal State → Except Refusal State
  | .ok s => .ok (s.shift n before)
  | .error refusal => .error (refusal.shift n)

variable {limits : Limits} {s s' : State} {b : UInt8} {n : Nat} {before : List Token}
  {t u text : Bytes}

/-! ## The parts of a state -/

@[simp]
theorem State.shift_pos (s : State) : (s.shift n before).pos = s.pos + n := rfl

@[simp]
theorem State.shift_awaiting (s : State) : (s.shift n before).awaiting = s.awaiting := rfl

@[simp]
theorem State.shift_stack (s : State) : (s.shift n before).stack = s.stack := rfl

@[simp]
theorem State.shift_lexeme (s : State) : (s.shift n before).lexeme = s.lexeme.shift n := rfl

theorem State.emit_shift (s : State) (kind : TokenKind) (offset len : Nat) :
    (s.shift n before).emit kind (offset + n) len = (s.emit kind offset len).shift n before := rfl

theorem State.ahead_shift (s : State) (k : Nat) (x : Lexeme) :
    (s.shift n before).ahead k (x.shift n) = (s.ahead k x).shift n before := by
  simp [State.shift, State.ahead, Nat.add_right_comm]

theorem State.advance_shift (s : State) :
    (s.shift n before).advance = s.advance.shift n before := by
  simp [State.shift, State.advance, Nat.add_right_comm]

/-! ## One byte -/

theorem State.settle_shift (s : State) (next : Option UInt8) :
    (s.shift n before).settle next = (s.settle next).shift n before := by
  cases hl : s.lexeme with
  | number start part =>
    have hl' : (s.shift n before).lexeme = .number (start + n) part := by
      rw [State.shift_lexeme, hl]
      rfl
    by_cases hp : part.read next = .done
    · have hlen : s.pos + n - (start + n) = s.pos - start := Nat.add_sub_add_right _ _ _
      rw [State.settle_of_done hl hp, State.settle_of_done hl' hp, State.shift_pos, hlen]
      rfl
    · rw [State.settle_of_ne_done hl hp, State.settle_of_ne_done hl' hp]
  | _ => simp only [State.settle, State.shift_lexeme, Lexeme.shift, hl]

/-- A token of one byte. -/
theorem State.mark_shift (n : Nat) (before : List Token) (s : State) (kind : TokenKind) :
    ((s.shift n before).emit kind (s.pos + n) 1).advance =
      ((s.emit kind s.pos 1).advance).shift n before := by
  rw [State.emit_shift, State.advance_shift]

theorem State.push_shift (s : State) (c : Container) :
    (s.shift n before).push limits c = shiftEffect n before (s.push limits c) := by
  unfold State.push
  rw [State.shift_pos, State.mark_shift]
  by_cases ha : s.awaiting.admitsValue limits.several
  · by_cases hd : limits.maxDepth ≤ s.stack.length
    · simp only [ha, hd, State.shift_awaiting, State.shift_stack, Bool.not_true,
        Bool.false_eq_true, if_false, if_true]
      rfl
    · simp only [ha, hd, State.shift_awaiting, State.shift_stack, Bool.not_true,
        Bool.false_eq_true, if_false]
      rfl
  · simp only [ha, State.shift_awaiting, Bool.not_false, if_true]
    rfl

theorem State.pop_shift (s : State) (c : Container) :
    (s.shift n before).pop c = shiftEffect n before (s.pop c) := by
  unfold State.pop
  cases hs : s.stack with
  | nil =>
    simp only [State.shift_stack, hs]
    rfl
  | cons top outer =>
    simp only [State.shift_stack, State.shift_awaiting, State.shift_pos, hs]
    by_cases ha : s.awaiting.admitsClose
    · by_cases hc : c = top
      · have hmark := { s with stack := outer }.mark_shift n before (.closing c)
        simp only [ha, hc, Bool.not_true, Bool.false_eq_true, if_false, if_true] at hmark ⊢
        exact congrArg (fun s => Except.ok s.endValue) hmark
      · simp only [ha, hc, Bool.not_true, Bool.false_eq_true, if_false]
        rfl
    · simp only [ha, Bool.not_false, if_true]
      rfl

theorem State.comma_shift (s : State) :
    (s.shift n before).comma = shiftEffect n before s.comma := by
  unfold State.comma
  rw [State.shift_pos, State.mark_shift]
  by_cases ha : s.awaiting = .commaOrClose
  · simp only [ha, State.shift_awaiting, if_true]
    rfl
  · simp only [ha, State.shift_awaiting, if_false]
    rfl

theorem State.colon_shift (s : State) :
    (s.shift n before).colon = shiftEffect n before s.colon := by
  unfold State.colon
  rw [State.shift_pos, State.mark_shift]
  by_cases ha : s.awaiting = .colon
  · simp only [ha, State.shift_awaiting, if_true]
    rfl
  · simp only [ha, State.shift_awaiting, if_false]
    rfl

theorem State.start_shift (s : State) (lead : Lead) :
    (s.shift n before).start limits lead = shiftEffect n before (s.start limits lead) := by
  cases lead with
  | blank => exact congrArg Except.ok s.advance_shift
  | opening c => exact s.push_shift c
  | closing c => exact s.pop_shift c
  | comma => exact s.comma_shift
  | colon => exact s.colon_shift
  | quote =>
    simp only [State.start, State.shift_awaiting, State.advance_shift]
    split
    · rfl
    · rfl
  | number part | word w =>
    simp only [State.start, State.shift_awaiting, State.advance_shift]
    split
    · rfl
    · rfl
  | other => rfl

theorem State.endString_shift (s : State) (start : Nat) :
    (s.shift n before).endString (start + n) = (s.endString start).shift n before := by
  have hplace : start + n + 1 = start + 1 + n := Nat.add_right_comm _ _ _
  have hlen : s.pos + n - (start + n) - 1 = s.pos - start - 1 := by omega
  unfold State.endString
  simp only [State.shift_awaiting, State.shift_pos, hplace, hlen, State.emit_shift,
    State.advance_shift]
  split
  · rfl
  · rfl

/-- One byte of a string.  An escape names the place of its backslash, which has been read. -/
theorem State.inString_shift (s : State) (start : Nat) (part : StringPart) (b : UInt8)
    (hp : part = .escape → 0 < s.pos) :
    (s.shift n before).inString (start + n) (part.shift n) b =
      shiftEffect n before (s.inString start part b) := by
  have hgoOn : ∀ part' : StringPart,
      Except.ok { (s.shift n before).advance with lexeme := .string (start + n) (part'.shift n) } =
        shiftEffect n before (.ok { s.advance with lexeme := .string start part' }) := by
    intro part'
    rw [State.advance_shift]
    rfl
  cases part with
  | body =>
    simp only [StringPart.shift, State.inString]
    split
    · exact congrArg Except.ok (s.endString_shift start)
    · split
      · exact hgoOn .escape
      · split
        · exact hgoOn (.tainted b s.pos)
        · exact hgoOn .body
  | escape =>
    have hback : s.pos + n - 1 = s.pos - 1 + n := by
      have hpos := hp rfl
      omega
    simp only [StringPart.shift, State.inString, State.shift_pos, hback]
    split
    · exact hgoOn (.digits (s.pos - 1) 4)
    · split
      · exact hgoOn .body
      · rfl
  | digits backslash missing =>
    simp only [StringPart.shift, State.inString]
    split
    · split
      · exact hgoOn .body
      · exact hgoOn (.digits backslash (missing - 1))
    · rfl
  | tainted c offset =>
    simp only [StringPart.shift, State.inString]
    split
    · rfl
    · exact hgoOn (.tainted c offset)

theorem State.inWord_shift (s : State) (start : Nat) (w : Keyword) (missing : Bytes) (b : UInt8) :
    (s.shift n before).inWord (start + n) w missing b =
      shiftEffect n before (s.inWord start w missing b) := by
  cases missing with
  | nil => rfl
  | cons next later =>
    have hlen : s.pos + n + 1 - (start + n) = s.pos + 1 - start := by omega
    simp only [State.inWord, State.shift_pos, hlen, State.emit_shift, State.advance_shift]
    split
    · split
      · rfl
      · rfl
    · rfl

/-- **A byte has the same effect further on.** -/
theorem State.read_shift (s : State) (b : UInt8)
    (hp : ∀ start, s.lexeme = .string start .escape → 0 < s.pos) :
    (s.shift n before).read limits b = shiftEffect n before (s.read limits b) := by
  unfold State.read
  rw [State.settle_shift]
  cases hl : (s.settle (some b)).lexeme with
  | idle =>
    simp only [State.feed, State.shift_lexeme, hl, Lexeme.shift]
    exact State.start_shift _ _
  | string start part =>
    simp only [State.feed, State.shift_lexeme, hl, Lexeme.shift]
    refine State.inString_shift _ _ _ _ ?_
    rintro rfl
    rw [State.settle_pos]
    exact hp start (State.settle_string hl)
  | number start part =>
    simp only [State.feed, State.shift_lexeme, hl, Lexeme.shift]
    cases part.read (some b) with
    | done => exact State.start_shift _ _
    | more part' => exact congrArg Except.ok (State.ahead_shift _ 1 (.number start part'))
    | wrong expected => rfl
  | word start w missing =>
    simp only [State.feed, State.shift_lexeme, hl, Lexeme.shift]
    exact State.inWord_shift _ _ _ _ _

/-! ## The end of the text -/

theorem State.finish_shift (s : State) :
    (s.shift n before).finish = s.finish.map (LexError.shift n) := by
  cases hl : s.lexeme with
  | idle =>
    simp only [State.finish, State.shift_lexeme, hl, Lexeme.shift, State.shift_awaiting,
      State.shift_stack, State.shift_pos]
    split <;> rfl
  | string start part =>
    simp only [State.finish, State.shift_lexeme, hl, Lexeme.shift]
    cases part <;> rfl
  | number start part =>
    simp only [State.finish, State.shift_lexeme, hl, Lexeme.shift, State.shift_pos]
    split <;> rfl
  | word start w missing =>
    simp only [State.finish, State.shift_lexeme, hl, Lexeme.shift, State.shift_pos]
    rfl

theorem State.outcome_shift (s : State) (error : Option LexError) :
    (s.shift n before).outcome (error.map (LexError.shift n)) =
      (s.outcome error).shift n before := by
  simp [State.outcome, State.shift, Outcome.shift]

/-! ## Bytes in a row -/

/-- A backslash that has been read stands after the start of the text. -/
theorem Reads.pos_of_escape (h : Reads limits {} t s) {start : Nat}
    (hl : s.lexeme = .string start .escape) : 0 < s.pos := by
  have hlt := h.start_lt hl
  rw [h.pos_eq]
  omega

theorem Reads.shift (h₀ : Reads limits {} t s) (h : Reads limits s u s') :
    Reads limits (s.shift n before) u (s'.shift n before) := by
  induction h generalizing t with
  | nil => exact .nil _
  | @cons s s₁ s' b u hb _ ih =>
    have hread : (s.shift n before).read limits b = .ok (s₁.shift n before) := by
      rw [State.read_shift s b fun _ hl => h₀.pos_of_escape hl, hb]
      rfl
    exact .cons hread (ih (h₀.append (.single hb)))

theorem Refusal.error_shift {refusal : Refusal} {pos : Nat} (rest : Bytes)
    (hp : refusal = .escape → 0 < pos) :
    (refusal.shift n).error (pos + n) rest = (refusal.error pos rest).shift n := by
  cases refusal with
  | character expected => rfl
  | escape =>
    have hback : pos + n - 1 = pos - 1 + n := by
      have hpos := hp rfl
      omega
    simp only [Refusal.shift, Refusal.error, LexError.shift, hback]
  | because kind offset => rfl

/-- **A text is scanned further on as it is at the start.** -/
theorem scanFrom_shift (limits : Limits) (n : Nat) (before : List Token) (text : Bytes) :
    scanFrom limits (({} : State).shift n before) text = (scan limits text).shift n before := by
  have hstart : Reads limits {} [] {} := .nil _
  unfold scan
  rcases scanFrom_stops limits {} text with ⟨s, hr, he⟩ | ⟨t, b, rest, s, r, rfl, hr, hb, he⟩
  · have hshift : Reads limits (({} : State).shift n before) text (s.shift n before) :=
      hstart.shift hr
    have hscan := hshift.scanFrom_eq []
    rw [List.append_nil] at hscan
    rw [he, hscan, scanFrom, State.settle_shift, State.finish_shift, State.outcome_shift]
  · have hshift : Reads limits (({} : State).shift n before) t (s.shift n before) :=
      hstart.shift hr
    have hread : (s.shift n before).read limits b = .error (r.shift n) := by
      rw [State.read_shift s b fun _ hl => hr.pos_of_escape hl, hb]
      rfl
    have hpos : r = .escape → 0 < (s.settle (some b)).pos := by
      rintro rfl
      rw [State.settle_pos]
      cases State.refuses_of_read hb with
      | escape hl => exact hr.pos_of_escape hl
    unfold State.read at hread
    rw [State.settle_shift] at hread
    rw [he, hshift.scanFrom_eq, scanFrom, State.settle_shift, hread, State.shift_pos]
    simp only [Refusal.error_shift _ hpos]
    exact State.outcome_shift _ (some _)

end Scan

end FlatJson
