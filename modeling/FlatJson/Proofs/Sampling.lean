import FlatJson.Proofs.ArraySampling
import FlatJson.Proofs.Extents
import FlatJson.Proofs.Positions

/-!
# Parsing by position

The shape of an object and of a text by position is the one found byte by byte, so with the scan
the whole parse by position has a value for every text.

* `Cursor.envelope_eq`, `Cursor.sampleEnvelope_eq` — objects.
* `Cursor.detectShape_eq` — texts, with blanks around them.
* `Cursor.parse_eq`, `Tokenizer.parse_in_bounds` — what a tokenizer gives.
-/

namespace FlatJson

variable {text rest trail : Bytes} {pos limit : Nat}

/-! ## Objects -/

namespace Envelope

variable {settings : ShapeSettings} {e : Envelope} {b : UInt8} {w : Nat}

theorem run_nil : run settings w e [] = e := by
  cases w <;> rfl

theorem run_zero : run settings 0 e rest = e := by
  cases rest <;> rfl

theorem run_cons {e' : Envelope} (h : e.step settings b rest = some e') :
    run settings (w + 1) e (b :: rest) = run settings w e' rest := by
  rw [run, h]

theorem run_cons_none (h : e.step settings b rest = none) :
    run settings (w + 1) e (b :: rest) = e := by
  rw [run, h]

theorem step_string {escaped : Bool} (hp : e.place = Sample.stringPlace escaped) :
    e.step settings b rest = some
      (if escaped then { e with place := .string }
      else if b == Byte.quote then { e with place := .between }
      else { e with place := Sample.stringPlace (b == Byte.backslash) }) := by
  obtain ⟨place, depth, afterColon, best⟩ := e
  obtain rfl : place = Sample.stringPlace escaped := hp
  unfold Sample.stringPlace
  cases escaped with
  | true => rfl
  | false =>
    simp only [step, Bool.false_eq_true, if_false]
    split
    · rfl
    · split <;> rfl

/-- A string is read up to the quote that closes it, or else nothing more is found. -/
theorem run_string (settings : ShapeSettings) (e : Envelope) (w : Nat) (rest : Bytes) :
    (∀ i, quoteIn false (rest.take w) = some i → run settings w { e with place := .string } rest =
      run settings (w - (i + 1)) { e with place := .between } (rest.drop (i + 1))) ∧
    (quoteIn false (rest.take w) = none →
      (run settings w { e with place := .string } rest).best = e.best) := by
  have hstep : ∀ (escaped : Bool) (n w : Nat) (b : UInt8) (rest : Bytes),
      run settings (w + 1) { e with place := Sample.stringPlace escaped } (b :: rest) =
        run settings w (if escaped then { e with place := Sample.stringPlace false }
          else if b == Byte.quote then { e with place := .between }
          else { e with place := Sample.stringPlace (b == Byte.backslash) }) rest := by
    intro escaped n w b rest
    exact run_cons (step_string rfl)
  obtain ⟨hsome, hnone⟩ := run_quoteIn (run settings)
    (fun escaped _ => { e with place := Sample.stringPlace escaped })
    (fun _ => { e with place := .between }) (fun _ _ => run_nil) (fun _ _ => run_zero) hstep
    false 0 w rest
  refine ⟨hsome, fun hi => ?_⟩
  obtain ⟨escaped, n, hrun⟩ := hnone hi
  have hrun : run settings w { e with place := .string } rest =
    { e with place := Sample.stringPlace escaped } := hrun
  rw [hrun]

/-- A byte outside strings leads outside strings again. -/
theorem structural_place {e' : Envelope} (hq : b ≠ Byte.quote)
    (h : e.structural settings b rest = some e') : e'.place = e.place := by
  have hq : (b == Byte.quote) = false := by simpa using hq
  simp only [structural, hq, Bool.false_eq_true, if_false, offer] at h
  split_ifs at h
  all_goals
    cases h
    rfl

theorem structural_blank (hb : Byte.isBlank b) : e.structural settings b rest = some e := by
  simp only [Byte.isBlank, Bool.or_eq_true, beq_iff_eq] at hb
  rcases hb with ((rfl | rfl) | rfl) | rfl <;> simp [structural, Byte.isBlank, Byte.quote]

end Envelope

namespace Cursor

variable {settings : ShapeSettings} {e e' : Envelope} {b : UInt8} {w : Nat}

theorem envelope_done (h : envelopeToken settings text limit e pos = some (.inl e')) :
    envelope settings text limit e pos = some e' :=
  loop_done h

theorem envelope_again {next : Nat}
    (h : envelopeToken settings text limit e pos = some (.inr (e', next))) (hlt : pos < limit)
    (hnext : pos < next) :
    envelope settings text limit e pos = envelope settings text limit e' next := by
  refine loop_again h ?_
  show limit - next < limit - pos
  omega

/-- A byte outside strings by position. -/
theorem envelopeToken_structural (hlt : pos < limit) (hlimit : limit ≤ text.length)
    (hb : text[pos]? = some b) (hq : b ≠ Byte.quote) (htext : text.drop (pos + 1) = rest ++ trail)
    (htrail : Blank trail) (hrest : NoBlankEnd rest) :
    envelopeToken settings text limit e pos =
      match e.structural settings b rest with
      | some e => some (.inr (e, pos + 1))
      | none => some (.inl e) := by
  have hb : byteAt text pos = some b := hb
  have hq : (b == Byte.quote) = false := by simpa using hq
  have harray := sampleArray_eq settings (Nat.lt_of_lt_of_le hlt hlimit) htext htrail hrest
  rw [envelopeToken, if_pos hlt]
  simp only [Option.bind_eq_bind, hb, Option.bind_some, hq, Bool.false_eq_true, if_false]
  unfold Envelope.structural
  simp only [hq, Bool.false_eq_true, if_false]
  by_cases h₁ : b == 0x3A && e.depth == 0
  · rw [if_pos h₁, if_pos h₁]
    rfl
  rw [if_neg h₁, if_neg h₁]
  by_cases h₂ : b == 0x5B && e.depth == 0 && e.afterColon
  · have hopen : b == 0x7B || b == 0x5B := by simp_all
    rw [if_pos h₂, if_pos hopen, if_pos h₂, harray]
    rfl
  rw [if_neg h₂]
  by_cases h₃ : b == 0x7B || b == 0x5B
  · rw [if_pos h₃, if_pos h₃, if_neg h₂]
    rfl
  rw [if_neg h₃, if_neg h₃]
  by_cases h₄ : b == 0x7D || b == 0x5D
  · rw [if_pos h₄, if_pos h₄]
    by_cases hd : e.depth = 0
    · have hnone : minus e.depth 1 = none := if_neg (by omega)
      rw [hnone, if_pos hd]
      rfl
    · rw [minus_eq (Nat.one_le_iff_ne_zero.2 hd), if_neg hd]
      rfl
  rw [if_neg h₄, if_neg h₄]
  by_cases h₅ : Byte.isBlank b
  · rw [if_pos h₅, if_pos h₅]
    rfl
  · rw [if_neg h₅, if_neg h₅]
    rfl

theorem envelopeToken_quote (hlimit : limit ≤ text.length) (hlt : pos < limit)
    (hb : text[pos]? = some Byte.quote) :
    envelopeToken settings text limit e pos =
      match quoteIn false ((text.drop (pos + 1)).take (limit - (pos + 1))) with
      | some i => some (.inr ({ e with afterColon := false }, pos + 1 + i + 1))
      | none => some (.inl { e with afterColon := false }) := by
  have hb : byteAt text pos = some Byte.quote := hb
  rw [envelopeToken, if_pos hlt]
  simp only [Option.bind_eq_bind, hb, Option.bind_some, beq_self_eq_true, if_true,
    stringEnd_eq hlimit]
  cases quoteIn false ((text.drop (pos + 1)).take (limit - (pos + 1))) <;> rfl

/-- What only blanks follow changes no more. -/
theorem envelope_blank (hlimit : limit ≤ text.length) (hblank : Blank (text.drop pos)) :
    envelope settings text limit e pos = some e := by
  induction hn : limit - pos generalizing pos with
  | zero =>
    refine envelope_done ?_
    rw [envelopeToken, if_neg (by omega)]
    rfl
  | succ n ih =>
    have hlt : pos < limit := by omega
    obtain ⟨b, rest, hrest⟩ := exists_drop_of_lt (Nat.lt_of_lt_of_le hlt hlimit)
    rw [hrest] at hblank
    obtain ⟨hb, hmore⟩ := List.forall_mem_cons.1 hblank
    have hq : b ≠ Byte.quote := by
      rintro rfl
      exact absurd hb (by decide)
    have hnext : text.drop (pos + 1) = [] ++ rest := drop_add hrest 1
    have htoken : envelopeToken settings text limit e pos = _ :=
      envelopeToken_structural hlt hlimit (getElem?_of_drop hrest) hq hnext hmore nofun
    rw [Envelope.structural_blank hb] at htoken
    rw [envelope_again htoken hlt (Nat.lt_succ_self pos)]
    refine ih ?_ (by omega)
    rw [hnext]
    exact hmore

/-- Whether an object by position is seen as it is byte by byte. -/
def Sees (settings : ShapeSettings) (text : Bytes) (limit : Nat) (e : Envelope) (pos w : Nat)
    (rest : Bytes) : Prop :=
  ∃ e', envelope settings text limit e pos = some e' ∧
    e'.best = (Envelope.run settings w e rest).best

section

variable (h : Stands text limit pos (w + 1) (b :: rest) trail) (he : e.place = .between)
  (hlt : pos < limit) (hrest : NoBlankEnd (b :: rest))
  (ih : ∀ (e' : Envelope) (next w' : Nat) (rest' : Bytes), pos < next → e'.place = .between →
    Stands text limit next w' rest' trail → NoBlankEnd rest' →
    Sees settings text limit e' next w' rest')

include h he hlt hrest ih

theorem sees_quote (hb : b = Byte.quote) : Sees settings text limit e pos (w + 1) (b :: rest) := by
  subst hb
  have hstep : e.step settings Byte.quote rest =
      some { e with place := .string, afterColon := false } := by
    simp only [Envelope.step, he]
    rfl
  obtain ⟨hsome, hnone⟩ := Envelope.run_string settings { e with afterColon := false } w rest
  have htoken : envelopeToken settings text limit e pos = _ :=
    envelopeToken_quote h.limit_le hlt h.byte_eq
  rw [h.quoteIn_eq] at htoken
  unfold Sees
  rw [Envelope.run_cons hstep]
  cases hi : quoteIn false (rest.take w) with
  | none =>
    rw [hi] at htoken
    exact ⟨_, envelope_done htoken, (hnone hi).symm⟩
  | some i =>
    rw [hi] at htoken
    have hin := quoteIn_lt hi
    rw [List.length_take] at hin
    rw [envelope_again htoken hlt (by omega), hsome i hi, ← he]
    exact ih { e with afterColon := false } _ _ _ (by omega) he
      (h.later (by omega) (by omega) rfl) (hrest.tail.drop (i + 1))

theorem sees_structural (hq : b ≠ Byte.quote) :
    Sees settings text limit e pos (w + 1) (b :: rest) := by
  have hstep : e.step settings b rest = e.structural settings b rest := by
    simp only [Envelope.step, he]
  have htoken : envelopeToken settings text limit e pos = _ :=
    envelopeToken_structural hlt h.limit_le h.byte_eq hq h.next_eq h.blank hrest.tail
  unfold Sees
  cases hs : e.structural settings b rest with
  | none =>
    rw [hs] at htoken
    exact ⟨e, envelope_done htoken, by rw [Envelope.run_cons_none (hstep.trans hs)]⟩
  | some e' =>
    rw [hs] at htoken
    rw [envelope_again htoken hlt (Nat.lt_succ_self pos), Envelope.run_cons (hstep.trans hs)]
    have he' : e'.place = .between := (Envelope.structural_place hq hs).trans he
    exact ih e' _ _ _ (Nat.lt_succ_self pos) he' (h.later (Nat.zero_le _) (Nat.zero_le _) rfl)
      hrest.tail

end

/-- **An object by position is seen as it is byte by byte.** -/
theorem envelope_eq (settings : ShapeSettings) (h : Stands text limit pos w rest trail)
    (he : e.place = .between) (hrest : NoBlankEnd rest) :
    Sees settings text limit e pos w rest := by
  -- Every round moves the position on.
  induction hn : limit - pos using Nat.strongRecOn generalizing e pos rest w with
  | ind n ih =>
    subst hn
    by_cases hlt : pos < limit
    · have ih : ∀ (e' : Envelope) (next w' : Nat) (rest' : Bytes), pos < next →
          e'.place = .between → Stands text limit next w' rest' trail → NoBlankEnd rest' →
          Sees settings text limit e' next w' rest' := by
        intro e' next w' rest' hnext he' h' hrest'
        exact ih _ (by omega) h' he' hrest' rfl
      cases rest with
      | nil =>
        unfold Sees
        rw [Envelope.run_nil]
        refine ⟨e, envelope_blank h.limit_le ?_, rfl⟩
        rw [h.drop_eq]
        exact h.blank
      | cons b rest =>
        obtain ⟨w, rfl⟩ := h.exists_window hlt
        by_cases hq : b = Byte.quote
        · exact sees_quote h he hlt hrest ih hq
        · exact sees_structural h he hlt hrest ih hq
    · have hend : Envelope.run settings w e rest = e := by
        rcases h.ended (Nat.le_of_not_lt hlt) with rfl | rfl
        · exact Envelope.run_zero
        · exact Envelope.run_nil
      refine ⟨e, envelope_done ?_, by rw [hend]⟩
      rw [envelopeToken, if_neg hlt]
      rfl

/-! ## The shape of a text by position -/

theorem sampleEnvelope_eq (settings : ShapeSettings) {opening : Nat} (hopen : opening < text.length)
    (htext : text.drop (opening + 1) = rest ++ trail) (htrail : Blank trail)
    (hrest : NoBlankEnd rest) :
    sampleEnvelope settings text opening = some (FlatJson.sampleEnvelope settings rest) := by
  have hlen := congrArg List.length htext
  rw [List.length_drop, List.length_append] at hlen
  have hw : min text.length (opening + 1 + settings.envelopeWindow) - (opening + 1) =
      min (rest.length + trail.length) settings.envelopeWindow := by
    omega
  obtain ⟨e, he, hbest⟩ : Sees settings text _ {} (opening + 1) settings.envelopeWindow rest :=
    envelope_eq settings ⟨Nat.min_le_left _ _, htext, htrail, hw⟩ rfl hrest
  simp only [sampleEnvelope, FlatJson.sampleEnvelope, he, ← hbest]
  rfl

/-- What the blanks around a text leave of it. -/
theorem trimBlank_split (text : Bytes) :
    ∃ trail, skipBlank text = trimBlank text ++ trail ∧ Blank trail ∧
      NoBlankEnd (trimBlank text) := by
  refine ⟨(skipBlank text).rtakeWhile Byte.isBlank, ?_, ?_, ?_⟩
  · exact List.rdropWhile_append_rtakeWhile.symm
  · exact fun b hb => List.mem_rtakeWhile_imp hb
  · intro b hb
    obtain ⟨hne, rfl⟩ := List.mem_getLast?_eq_getLast hb
    exact List.rdropWhile_last_not Byte.isBlank (skipBlank text) hne

theorem detectShape_eq (settings : ShapeSettings) (text : Bytes) :
    detectShape settings text = some (FlatJson.detectShape settings text) := by
  obtain ⟨trail, hskip, htrail, hrest⟩ := trimBlank_split text
  have hsplit : text.takeWhile Byte.isBlank ++ skipBlank text = text :=
    List.takeWhile_append_dropWhile
  have hdrop : text.drop (text.takeWhile Byte.isBlank).length = skipBlank text :=
    (congrArg (List.drop _) hsplit.symm).trans List.drop_left
  unfold detectShape FlatJson.detectShape
  rw [skip_eq, List.drop_zero, Nat.zero_add]
  simp only [Option.bind_eq_bind, Option.bind_some]
  rw [getElem?_eq_head?, hdrop]
  cases hcore : trimBlank text with
  | nil =>
    -- What is left after the first blanks does not start with one, and has nothing else.
    have hhead := List.head?_dropWhile_not Byte.isBlank text
    rw [hcore, List.nil_append] at hskip
    rw [show text.dropWhile Byte.isBlank = trail from hskip] at hhead
    rw [hskip]
    cases trail with
    | nil => rfl
    | cons b trail =>
      have hb : Byte.isBlank b := htrail b List.mem_cons_self
      exact absurd hb (by simpa using hhead)
  | cons b rest =>
    rw [hcore] at hskip hrest
    have hlen := congrArg List.length (hdrop.trans hskip)
    rw [List.length_drop, List.length_append, List.length_cons] at hlen
    generalize (text.takeWhile Byte.isBlank).length = opening at hdrop hlen
    have hopen : opening < text.length := by omega
    have htext : text.drop (opening + 1) = rest ++ trail := drop_add (hdrop.trans hskip) 1
    rw [hskip, sampleArray_eq settings hopen htext htrail hrest.tail,
      sampleEnvelope_eq settings hopen htext htrail hrest.tail]
    simp only [List.cons_append, List.head?_cons]
    by_cases harray : b == 0x5B
    · rw [if_pos harray, if_pos harray]
    · rw [if_neg harray, if_neg harray]
      by_cases hobject : b == 0x7B
      · rw [if_pos hobject, if_pos hobject]
      · rw [if_neg hobject, if_neg hobject]
        rfl

/-! ## Tokenizers by position -/

/-- **By position the parse comes to the same result.**  So no index, slice, difference or
quotient of it is out of range, and it comes to an end. -/
theorem parse_eq (t : Tokenizer) (text : Bytes) :
    parse t.settings text = some (t.parse text).1 := by
  simp only [parse, Tokenizer.parse_fst, Tokenizer.findShape, scan_eq, detectShape_eq]
  cases t.settings.detectsShape <;> rfl

end Cursor

/-- **A parse comes to an end without an index, slice, difference or quotient out of range,
whatever the text and the settings.**  Its tokens, complete or partial, stand in order up to the
end of the text or to the place of the error, with only blanks between them, and they are no more
than bytes are before it.  What else can end a parse is that room is refused, before the scan; by
`Tokenizer.parse?_eq` that is so just when more is wanted than there is and than the limit. -/
theorem Tokenizer.parse_in_bounds (t : Tokenizer) (text : Bytes) :
    Cursor.parse t.settings text = some (t.parse text).1 ∧
      InOrder text (t.parse text).1.tokens ((t.parse text).1.stop text) ∧
      (t.parse text).1.tokens.length ≤ (t.parse text).1.stop text ∧
      (t.parse text).1.stop text ≤ text.length :=
  ⟨Cursor.parse_eq t text, t.inOrder_parse text⟩

end FlatJson
