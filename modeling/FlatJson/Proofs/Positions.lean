import FlatJson.Proofs.TokenParts

/-!
# The scan by position

The scan by position has a value for every text, and it is that of the scan.  `Agrees` says so of
one token; `agrees_token` goes through the kinds of tokens, and `run_eq` through all of them.
-/

namespace FlatJson.Cursor

open Scan

variable {limits : Limits} {text rest : Bytes} {s : State} {pos start : Nat} {b : UInt8}
  {part : NumberPart}

/-! ## Tokens -/

/-- What a token by position comes to, where a scan from `s` on comes to the same: an error, or a
further state between two tokens. -/
inductive Agrees (limits : Limits) (text : Bytes) (s : State) : Attempt State → Prop
  | ok {s' : State} :
      s'.lexeme = .idle → s.pos < s'.pos → s'.pos ≤ text.length →
      scanFrom limits s (text.drop s.pos) = scanFrom limits s' (text.drop s'.pos) →
      Agrees limits text s (pure s')
  | error {e : LexError} :
      scanFrom limits s (text.drop s.pos) = s.outcome (some e) → Agrees limits text s (throw e)

/-- A byte that starts no token is refused. -/
theorem agrees_refuse {refusal : Refusal} (hl : s.lexeme = .idle)
    (htext : text.drop s.pos = b :: rest)
    (h : s.start limits (Lead.ofByte b) = .error refusal) :
    Agrees limits text s (refuse text s.pos refusal) := by
  have hlen := length_of_drop htext
  have hne : refusal ≠ .escape := by
    rintro rfl
    cases State.refuses_of_start h with
    | escape hs =>
      rw [hl] at hs
      cases hs
  have hset : s.settle (some b) = s := by simp only [State.settle, hl]
  have hfeed : s.feed limits b = .error refusal := by
    simp only [State.feed, hl]
    exact h
  rw [refuse_eq (by omega) hne]
  refine .error ?_
  rw [htext, scanFrom, hset, hfeed]

/-- A bracket, a comma or a colon. -/
theorem agrees_mark {r : Except Refusal State} (hl : s.lexeme = .idle)
    (htext : text.drop s.pos = b :: rest) (h : s.start limits (Lead.ofByte b) = r)
    (hr : ∀ s', r = .ok s' → s'.lexeme = .idle ∧ s'.pos = s.pos + 1) :
    Agrees limits text s (mark text s r) := by
  cases r with
  | error refusal => exact agrees_refuse hl htext h
  | ok s' =>
    obtain ⟨hl', hpos⟩ := hr s' rfl
    have hlen := length_of_drop htext
    have hread : s.read limits b = .ok s' := (State.read_idle hl).trans h
    refine .ok hl' (by omega) (by omega) ?_
    rw [hpos, drop_add htext, htext, ← List.singleton_append, (Reads.single hread).scanFrom_eq]
    rfl

/-- The state after the string that is closed at a position. -/
theorem endString_eq (hl : s.lexeme = .idle) (stop : Nat) :
    (s.ahead (stop - s.pos) (.string s.pos .body)).endString s.pos =
      if s.awaiting.admitsKey then
        { s.emit .key (s.pos + 1) (s.pos + (stop - s.pos) - s.pos - 1) with
          pos := s.pos + (stop - s.pos) + 1, awaiting := .colon }
      else { s.emit .string (s.pos + 1) (s.pos + (stop - s.pos) - s.pos - 1) with
        pos := s.pos + (stop - s.pos) + 1 }.endValue := by
  by_cases ha : s.awaiting.admitsKey
  · simp [State.endString, State.ahead, State.emit, State.advance, ha, hl]
  · simp [State.endString, State.ahead, State.emit, State.advance, State.endValue, ha]

theorem agrees_string (hl : s.lexeme = .idle) (htext : text.drop s.pos = Byte.quote :: rest) :
    Agrees limits text s (string limits text s) := by
  have hlen := length_of_drop htext
  have hlead : Lead.ofByte Byte.quote = .quote := by decide
  unfold string
  by_cases ha : s.awaiting.admitsKey || s.awaiting.admitsValue limits.several
  · rw [if_pos ha]
    have hread : s.read limits Byte.quote = .ok (s.ahead 1 (.string s.pos .body)) := by
      rw [State.read_idle hl, hlead, State.start, if_pos ha]
      rfl
    have hclose : Leads limits text s
        (fun stop l => s.pos < stop ∧ text[stop]? = some Byte.quote ∧ l = .string s.pos .body)
        (closingQuote text s.pos (s.pos + 1)) := by
      exact .of_reads (.single hread) htext
        (closingQuote_leads rfl rfl (Nat.lt_succ_self _) (by omega))
    generalize closingQuote text s.pos (s.pos + 1) = r at hclose ⊢
    cases hclose with
    | error heq => exact .error heq
    | @ok stop l _ hstop hpost heq =>
      obtain ⟨hlt, hquote, rfl⟩ := hpost
      obtain ⟨v, hv⟩ := exists_drop_of_some hquote
      have hlast := length_of_drop hv
      -- The scan reads the closing quote as one more byte.
      have hend : (s.ahead (stop - s.pos) (.string s.pos .body)).read limits Byte.quote =
          .ok ((s.ahead (stop - s.pos) (.string s.pos .body)).endString s.pos) := by
        rw [State.read_string rfl]
        rfl
      have hscan : scanFrom limits s (text.drop s.pos) =
          scanFrom limits ((s.ahead (stop - s.pos) (.string s.pos .body)).endString s.pos)
            (text.drop (stop + 1)) := by
        rw [heq, drop_add hv, hv, ← List.singleton_append, (Reads.single hend).scanFrom_eq]
        rfl
      rw [endString_eq hl, show s.pos + (stop - s.pos) = stop by omega] at hscan
      rw [pure_bind, Attempt.lift_bind (minus_eq (by omega)),
        Attempt.lift_bind (minus_eq (by omega))]
      by_cases hk : s.awaiting.admitsKey
      · rw [if_pos hk] at hscan ⊢
        refine .ok hl ?_ ?_ hscan
        · show s.pos < stop + 1
          omega
        · show stop + 1 ≤ text.length
          omega
      · rw [if_neg hk] at hscan ⊢
        refine .ok rfl ?_ ?_ hscan
        · show s.pos < stop + 1
          omega
        · show stop + 1 ≤ text.length
          omega
  · rw [if_neg ha]
    refine agrees_refuse hl htext ?_
    rw [hlead, State.start, if_neg ha]

/-- The parts of a number after its sign, one after the other. -/
theorem parts_lead (hl : s.lexeme = .number start .sign) (hat : s.pos = pos)
    (hpos : pos ≤ text.length) :
    Leads limits text s
      (fun stop l => pos < stop ∧ ∃ part, l = .number start part ∧ part.read text[stop]? = .done)
      (wholeEnd text pos >>= fun stop => fractionEnd text stop >>= exponentEnd text) := by
  refine (wholeEnd_leads hl hat hpos).bind fun stop l hle hlen hpost => ?_
  obtain ⟨hlt, part, rfl, hpart, hno⟩ := hpost
  have hat' := Nat.add_sub_cancel' hle
  have hrest : Leads limits text (s.ahead (stop - s.pos) (.number start part))
      (fun stop l => ∃ part, l = .number start part ∧ part.read text[stop]? = .done)
      (fractionEnd text stop >>= exponentEnd text) := by
    refine (fractionEnd_leads rfl hat' hlen hpart hno).bind fun stop' l' hle' hlen' hpost' => ?_
    obtain ⟨part', rfl, hends⟩ := hpost'
    exact exponentEnd_leads rfl (Nat.add_sub_cancel' hle') hlen' hends
  refine hrest.mono fun stop' l' hle' hpost' => ⟨Nat.lt_of_lt_of_le hlt ?_, hpost'⟩
  rwa [show (s.ahead (stop - s.pos) (.number start part)).pos = stop from hat'] at hle'

/-- A number starts as after a sign, with or without one. -/
theorem NumberPart.sign_read_of_lead (hb : Lead.ofByte b = .number part) :
    (b = 0x2D ∧ part = .sign) ∨ (b ≠ 0x2D ∧ NumberPart.sign.read (some b) = .more part) := by
  have hstarts := (Lead.ofByte_eq_iff (by simp) b).1 hb
  cases part with
  | sign => exact .inl ⟨eq_of_beq hstarts, rfl⟩
  | zero =>
    obtain rfl : b = 0x30 := eq_of_beq hstarts
    exact .inr ⟨by decide, rfl⟩
  | whole =>
    simp only [Lead.starts, Bool.and_eq_true, bne_iff_ne] at hstarts
    refine .inr ⟨?_, ?_⟩
    · rintro rfl
      exact absurd hstarts.1 (by decide)
    · simp [NumberPart.read, needDigit, hstarts.1, hstarts.2]
  | _ => cases hstarts

theorem agrees_number (hl : s.lexeme = .idle) (htext : text.drop s.pos = b :: rest)
    (hb : Lead.ofByte b = .number part) : Agrees limits text s (number limits text s) := by
  have hlen := length_of_drop htext
  have hbyte : byteAt text s.pos = some b := getElem?_of_drop htext
  unfold number
  by_cases ha : s.awaiting.admitsValue limits.several
  · rw [if_pos ha, Attempt.lift_bind hbyte]
    have hread : s.read limits b = .ok (s.ahead 1 (.number s.pos part)) := by
      rw [State.read_idle hl, hb, State.start, if_pos ha]
      rfl
    have hparts : Leads limits text s
        (fun stop l => s.pos < stop ∧ ∃ part, l = .number s.pos part ∧
          part.read text[stop]? = .done)
        (wholeEnd text (if b == 0x2D then s.pos + 1 else s.pos) >>= fun stop =>
          fractionEnd text stop >>= exponentEnd text) := by
      rcases NumberPart.sign_read_of_lead hb with ⟨rfl, rfl⟩ | ⟨hne, hsign⟩
      · rw [if_pos (by decide)]
        refine .of_reads (.single hread) htext ?_
        have hle : s.pos + 1 ≤ text.length := by omega
        refine (parts_lead rfl rfl hle).mono fun stop l _ hpost => ⟨?_, hpost.2⟩
        exact Nat.lt_of_succ_lt hpost.1
      · rw [if_neg (by simpa using hne)]
        -- Without a sign the number is read as if one had stood before it.
        have hsame : scanFrom limits s (text.drop s.pos) =
            scanFrom limits (s.ahead 0 (.number s.pos .sign)) (text.drop s.pos) := by
          have hread' : (s.ahead 0 (.number s.pos .sign)).read limits b =
              .ok (s.ahead 1 (.number s.pos part)) := State.read_number rfl hsign
          rw [htext, ← List.singleton_append, (Reads.single hread).scanFrom_eq,
            (Reads.single hread').scanFrom_eq]
        have hle : s.pos ≤ text.length := by omega
        exact .of_scanFrom hsame (parts_lead rfl rfl hle)
    have hassoc : ∀ f : Nat → Attempt State, (wholeEnd text
        (if b == 0x2D then s.pos + 1 else s.pos) >>= fun x => fractionEnd text x >>= fun y =>
          exponentEnd text y >>= f) =
        (wholeEnd text (if b == 0x2D then s.pos + 1 else s.pos) >>= fun stop =>
          fractionEnd text stop >>= exponentEnd text) >>= f := by
      intro f
      simp only [bind_assoc]
    simp only [hassoc]
    generalize (wholeEnd text (if b == 0x2D then s.pos + 1 else s.pos) >>= fun stop =>
      fractionEnd text stop >>= exponentEnd text) = r at hparts ⊢
    cases hparts with
    | error heq => exact .error heq
    | @ok stop l hle hstop hpost heq =>
      obtain ⟨hlt, part', rfl, hdone⟩ := hpost
      rw [pure_bind, Attempt.lift_bind (minus_eq hle)]
      -- The byte after the number, or the end of the text, settles it.
      have hsettle : (s.ahead (stop - s.pos) (.number s.pos part')).settle (text.drop stop).head? =
          { s.emit .number s.pos (stop - s.pos) with pos := stop }.endValue := by
        rw [← getElem?_eq_head?, State.settle_of_done rfl hdone]
        simp [State.ahead, State.emit, State.endValue, Nat.add_sub_cancel' hle]
      refine .ok rfl hlt hstop ?_
      rw [heq, ← scanFrom_settle, hsettle]
      rfl
  · rw [if_neg ha]
    refine agrees_refuse hl htext ?_
    rw [hb, State.start, if_neg ha]

/-- The letters that a text has in common with what is missing of a keyword. -/
theorem common_split (rest missing : Bytes) :
    ∃ u v later, rest = u ++ v ∧ missing = u ++ later ∧
      ((rest.zip missing).takeWhile fun (found, wanted) => found == wanted).length = u.length ∧
      (later = [] ∨ v = [] ∨
        ∃ b v' c later', v = b :: v' ∧ later = c :: later' ∧ b ≠ c) := by
  induction rest generalizing missing with
  | nil => exact ⟨[], [], missing, rfl, rfl, rfl, .inr (.inl rfl)⟩
  | cons b rest ih =>
    cases missing with
    | nil => exact ⟨[], b :: rest, [], rfl, rfl, rfl, .inl rfl⟩
    | cons c missing =>
      by_cases hbc : b = c
      · subst hbc
        obtain ⟨u, v, later, rfl, rfl, hlen, hend⟩ := ih missing
        refine ⟨b :: u, v, later, rfl, rfl, ?_, hend⟩
        simpa using hlen
      · exact ⟨[], b :: rest, c :: missing, rfl, rfl, by simp [hbc],
          .inr (.inr ⟨b, rest, c, missing, rfl, rfl, hbc⟩)⟩

/-- Some letters of a keyword, but not all. -/
theorem reads_letters {w : Keyword} {u later : Bytes} (hl : s.lexeme = .word start w (u ++ later))
    (hne : later ≠ []) : Reads limits s u (s.ahead u.length (.word start w later)) := by
  induction u generalizing s with
  | nil =>
    have hl : s.lexeme = .word start w later := hl
    rw [List.length_nil, State.ahead_zero hl]
    exact .nil s
  | cons b u ih =>
    have hmore : ¬ (u ++ later).isEmpty := by simp [hne]
    have hread : s.read limits b = .ok (s.ahead 1 (.word start w (u ++ later))) := by
      rw [State.read_word hl, List.cons_append, State.inWord, if_pos rfl, if_neg hmore]
      rfl
    exact .cons_ahead hread (ih rfl)

/-- A keyword of which all letters are there, after its first one. -/
theorem scanFrom_word {w : Keyword} {u v : Bytes} (hne : u ≠ []) :
    scanFrom limits (s.ahead 1 (.word s.pos w u)) (u ++ v) = scanFrom limits
      { s.emit (.word w) s.pos (u.length + 1) with pos := s.pos + (u.length + 1) }.endValue v := by
  have hread : Reads limits (s.ahead 1 (.word s.pos w u)) u _ := Reads.letters hne rfl
  have hpos : s.pos + 1 + u.length = s.pos + (u.length + 1) := by omega
  rw [hread.scanFrom_eq]
  simp [State.ahead, State.emit, State.endValue, hpos]

/-- A keyword that the end of the text cuts. -/
theorem scanFrom_word_cut {w : Keyword} {u later : Bytes} (hne : later ≠ []) :
    scanFrom limits (s.ahead 1 (.word s.pos w (u ++ later))) u =
      s.outcome (some ⟨.unexpectedEnd (State.expectedWord w), s.pos + 1 + u.length⟩) := by
  have hread : Reads limits (s.ahead 1 (.word s.pos w (u ++ later))) u _ := reads_letters rfl hne
  have hscan := hread.scanFrom_eq []
  rw [List.append_nil] at hscan
  rw [hscan]
  simp [scanFrom, State.settle, State.finish, State.ahead, State.outcome, Nat.add_assoc]

/-- A keyword in which another byte stands than the next letter. -/
theorem scanFrom_word_other {w : Keyword} {u v later : Bytes} {c d : UInt8} (hne : c ≠ d) :
    scanFrom limits (s.ahead 1 (.word s.pos w (u ++ d :: later))) (u ++ c :: v) = s.outcome (some
      ((Refusal.character (State.expectedWord w)).error (s.pos + (u.length + 1)) (c :: v))) := by
  have hpos : s.pos + 1 + u.length = s.pos + (u.length + 1) := by omega
  rw [(reads_letters rfl (List.cons_ne_nil d later)).scanFrom_eq]
  simp [scanFrom, State.settle, State.feed, State.inWord, State.ahead, State.outcome, hne, hpos]

theorem agrees_word {w : Keyword} (hl : s.lexeme = .idle) (htext : text.drop s.pos = b :: rest)
    (hb : Lead.ofByte b = .word w) : Agrees limits text s (word limits text s w) := by
  have hlen := length_of_drop htext
  have hw : ∃ missing, w.spelling = b :: missing ∧ missing ≠ [] := by
    have hstarts := (Lead.ofByte_eq_iff (by simp) b).1 hb
    cases w <;> cases eq_of_beq hstarts <;> exact ⟨_, rfl, List.cons_ne_nil _ _⟩
  obtain ⟨missing, hspell, hmissing⟩ := hw
  unfold word
  by_cases ha : s.awaiting.admitsValue limits.several
  · have hread : s.read limits b = .ok (s.ahead 1 (.word s.pos w missing)) := by
      rw [State.read_idle hl, hb, State.start, if_pos ha, hspell]
      rfl
    have hfirst : scanFrom limits s (text.drop s.pos) =
        scanFrom limits (s.ahead 1 (.word s.pos w missing)) rest := by
      rw [htext, ← List.singleton_append, (Reads.single hread).scanFrom_eq]
    obtain ⟨u, v, later, rfl, rfl, hsame, hend⟩ := common_split rest missing
    rw [if_pos ha, Attempt.lift_bind (suffix_eq (by omega)), htext, hspell]
    have hcount : (((b :: (u ++ v)).zip (b :: (u ++ later))).takeWhile
        fun (found, wanted) => found == wanted).length = u.length + 1 := by
      simpa using hsame
    have hafter : text.drop (s.pos + (u.length + 1)) = v := by
      rw [drop_add htext, List.drop_succ_cons, List.drop_left]
    rw [List.length_append] at hlen
    simp only [hcount]
    by_cases hlater : later = []
    · subst hlater
      rw [List.append_nil] at hmissing hfirst
      rw [scanFrom_word hmissing] at hfirst
      rw [if_pos (by simp)]
      refine .ok rfl ?_ ?_ ?_
      · show s.pos < s.pos + (u.length + 1)
        omega
      · show s.pos + (u.length + 1) ≤ text.length
        omega
      · show _ = scanFrom limits _ (text.drop (s.pos + (u.length + 1)))
        rw [hfirst, hafter]
    · have hpos : 0 < later.length := List.length_pos_iff.2 hlater
      rw [if_neg (by simp; omega)]
      by_cases hv : v = []
      · subst hv
        rw [List.append_nil u, scanFrom_word_cut hlater] at hfirst
        rw [if_pos (by simp), hlen]
        exact .error hfirst
      · obtain ⟨c, v', d, later', rfl, rfl, hne⟩ := (hend.resolve_left hlater).resolve_left hv
        rw [scanFrom_word_other hne] at hfirst
        have hle : s.pos + (u.length + 1) ≤ text.length := by omega
        rw [if_neg (by simp), refuse_eq hle (by simp), hafter]
        exact .error hfirst
  · rw [if_neg ha]
    refine agrees_refuse hl htext ?_
    rw [hb, State.start, if_neg ha]

/-- **One token by position is one token of the scan.** -/
theorem agrees_token (hl : s.lexeme = .idle) (htext : text.drop s.pos = b :: rest)
    (hb : ¬ Byte.isBlank b) : Agrees limits text s (token limits text s b) := by
  unfold token
  cases hlead : Lead.ofByte b with
  | blank => exact absurd ((Lead.ofByte_eq_iff (by simp) b).1 hlead) hb
  | opening c =>
    refine agrees_mark hl htext (by rw [hlead, State.start]) fun s' h => ?_
    simp only [State.push] at h
    split at h
    · cases h
    · split at h
      · cases h
      · cases h
        exact ⟨hl, rfl⟩
  | closing c =>
    refine agrees_mark hl htext (by rw [hlead, State.start]) fun s' h => ?_
    simp only [State.pop] at h
    split at h
    · cases h
    · split at h
      · cases h
      · split at h
        · cases h
          exact ⟨rfl, rfl⟩
        · cases h
  | comma =>
    refine agrees_mark hl htext (by rw [hlead, State.start]) fun s' h => ?_
    simp only [State.comma] at h
    split at h
    · cases h
      exact ⟨hl, rfl⟩
    · cases h
  | colon =>
    refine agrees_mark hl htext (by rw [hlead, State.start]) fun s' h => ?_
    simp only [State.colon] at h
    split at h
    · cases h
      exact ⟨hl, rfl⟩
    · cases h
  | quote =>
    obtain rfl : b = Byte.quote := eq_of_beq ((Lead.ofByte_eq_iff (by simp) b).1 hlead)
    exact agrees_string hl htext
  | number part => exact agrees_number hl htext hlead
  | word w => exact agrees_word hl htext hlead
  | other => exact agrees_refuse hl htext (by rw [hlead, State.start])

/-! ## All tokens -/

/-- A round of the scan by position comes to the outcome, or to a state between two tokens further
on from where the scan is the same. -/
theorem round_agrees (hl : s.lexeme = .idle) (hpos : s.pos ≤ text.length) :
    round limits text s = some (.inl (scanFrom limits s (text.drop s.pos))) ∨
      ∃ t : State, round limits text s = some (.inr t) ∧ s.pos < t.pos ∧
        (t.lexeme = .idle ∧ t.pos ≤ text.length) ∧
        scanFrom limits t (text.drop t.pos) = scanFrom limits s (text.drop s.pos) := by
  obtain ⟨u, v, htext, hu, hv, hskip⟩ := skip_split Byte.isBlank text s.pos
  have hstate : { s with pos := s.pos + u.length } = s.ahead u.length .idle := by
    rw [State.ahead, ← hl]
  have hblank : scanFrom limits s (text.drop s.pos) =
      scanFrom limits (s.ahead u.length .idle) v := by
    rw [htext, (Reads.blank hu hl).scanFrom_eq]
  have hrest : text.drop (s.pos + u.length) = v := by rw [drop_add htext, List.drop_left]
  have hsplit := congrArg List.length htext
  rw [List.length_drop, List.length_append] at hsplit
  rw [round, hskip, hblank]
  simp only [Option.bind_eq_bind, Option.bind_some, hstate]
  rw [getElem?_eq_head?, hrest]
  cases v with
  | nil =>
    have hend : text.length = s.pos + u.length := by
      rw [List.length_nil] at hsplit
      omega
    simp only [List.head?_nil, hend, hstate]
    exact .inl rfl
  | cons b v =>
    have hb : ¬ Byte.isBlank b := by simpa using hv
    have htoken : Agrees limits text (s.ahead u.length .idle)
        (token limits text (s.ahead u.length .idle) b) := agrees_token rfl hrest hb
    simp only [List.head?_cons]
    generalize token limits text (s.ahead u.length .idle) b = r at htoken ⊢
    cases htoken with
    | error heq =>
      have heq : scanFrom limits (s.ahead u.length .idle) (text.drop (s.pos + u.length)) = _ := heq
      rw [hrest] at heq
      rw [heq]
      exact .inl rfl
    | @ok t ht hlt hle heq =>
      have heq : scanFrom limits (s.ahead u.length .idle) (text.drop (s.pos + u.length)) = _ := heq
      rw [hrest] at heq
      have hlt : s.pos + u.length < t.pos := hlt
      exact .inr ⟨t, rfl, by omega, ⟨ht, hle⟩, heq.symm⟩

/-- **The loop over all tokens ends, and finds what the scan finds.** -/
theorem run_eq (hl : s.lexeme = .idle) (hpos : s.pos ≤ text.length) :
    run limits text s = some (scanFrom limits s (text.drop s.pos)) := by
  refine loop_eq (fun s => s.lexeme = .idle ∧ s.pos ≤ text.length)
    (fun s => scanFrom limits s (text.drop s.pos)) ?_ ⟨hl, hpos⟩
  rintro s ⟨hl, hpos⟩
  rcases round_agrees hl hpos with hdone | ⟨t, ht, hlt, hinv, hsame⟩
  · exact .inl hdone
  · -- Every token moves the position on.
    refine .inr ⟨t, ht, ?_, hinv, hsame⟩
    have hle := hinv.2
    omega

/-- **The scan by position has a value for every text, and it is that of the scan.** -/
theorem scan_eq (limits : Limits) (text : Bytes) :
    scan limits text = some (Scan.scan limits text) :=
  run_eq rfl (Nat.zero_le _)

end FlatJson.Cursor
