import FlatJson.Cursor
import FlatJson.Proofs.Steps
import Mathlib.Data.List.TakeWhile

/-!
# The parts of a token by position

Where the scan looks at one byte after the other, the same work by position searches for the end
of a part and goes on from there.  A part of a string or number that is found so agrees with the
scan of its bytes: `Leads` relates the two, and its parts are put together with `Leads.bind`.

* `escape_leads`, `closingQuote_leads` — the end of an escape, and of a string.
* `wholeEnd_leads`, `fractionEnd_leads`, `exponentEnd_leads` — the ends of the parts of a number.
-/

namespace FlatJson.Cursor

open Scan

variable {limits : Limits} {text rest : Bytes} {s s' : State} {pos start n : Nat} {b : UInt8}
  {part : NumberPart} {e : LexError} {α β : Type}

/-! ## Checked operations -/

theorem Attempt.lift_bind {x : Option α} {a : α} (h : x = some a) (f : α → Attempt β) :
    ((liftM x : Attempt α) >>= f) = f a := by
  subst h
  rfl

theorem suffix_eq (h : pos ≤ text.length) : suffix text pos = some (text.drop pos) :=
  if_pos h

theorem before_eq (h : pos ≤ text.length) : before text pos = some (text.take pos) :=
  if_pos h

theorem minus_eq {a b : Nat} (h : b ≤ a) : minus a b = some (a - b) :=
  if_pos h

theorem loop_done {σ ρ : Type} {left : σ → Nat} {step : σ → Option (ρ ⊕ σ)} {s : σ} {r : ρ}
    (h : step s = some (.inl r)) : loop left step s = some r := by
  rw [loop, h]

theorem loop_again {σ ρ : Type} {left : σ → Nat} {step : σ → Option (ρ ⊕ σ)} {s t : σ}
    (h : step s = some (.inr t)) (hlt : left t < left s) :
    loop left step s = loop left step t := by
  rw [loop, h]
  exact if_pos hlt

/-- The result of a loop depends on where it starts, if every round comes to it or leads on to a
state with the same one. -/
theorem loop_eq {σ ρ : Type} {left : σ → Nat} {step : σ → Option (ρ ⊕ σ)} (inv : σ → Prop)
    (result : σ → ρ)
    (hround : ∀ s, inv s → step s = some (.inl (result s)) ∨
      ∃ t, step s = some (.inr t) ∧ left t < left s ∧ inv t ∧ result t = result s)
    {s : σ} (hs : inv s) : loop left step s = some (result s) := by
  induction hn : left s using Nat.strongRecOn generalizing s with
  | ind n ih =>
    subst hn
    rcases hround s hs with hr | ⟨t, ht, hlt, hinv, hsame⟩
    · exact loop_done hr
    · rw [loop_again ht hlt, ← hsame]
      exact ih (left t) hlt hinv rfl

theorem getElem?_eq_head? (text : Bytes) (pos : Nat) : text[pos]? = (text.drop pos).head? :=
  (List.head?_drop).symm

theorem charAt_eq (h : pos ≤ text.length) :
    charAt text pos = some (Utf8.firstChar (text.drop pos)) := by
  rw [charAt, suffix_eq h]
  rfl

/-- A refusal that is not about an escape becomes the error of the scan. -/
theorem refuse_eq {refusal : Refusal} (h : pos ≤ text.length) (hr : refusal ≠ .escape) :
    (refuse text pos refusal : Attempt α) = throw (refusal.error pos (text.drop pos)) := by
  cases refusal with
  | character expected => exact Attempt.lift_bind (charAt_eq h) _
  | escape => exact absurd rfl hr
  | because kind offset => rfl

theorem drop_add (h : text.drop pos = rest) (n : Nat) : text.drop (pos + n) = rest.drop n := by
  rw [← List.drop_drop, h]

theorem getElem?_of_drop (h : text.drop pos = b :: rest) : text[pos]? = some b := by
  rw [getElem?_eq_head?, h]
  rfl

theorem exists_drop_of_lt (h : pos < text.length) : ∃ b rest, text.drop pos = b :: rest :=
  ⟨text[pos], text.drop (pos + 1), List.drop_eq_getElem_cons h⟩

theorem exists_drop_of_some (h : text[pos]? = some b) : ∃ v, text.drop pos = b :: v := by
  rw [getElem?_eq_head?] at h
  exact List.head?_eq_some_iff.1 h

theorem length_of_drop (h : text.drop pos = b :: rest) : text.length = pos + 1 + rest.length := by
  have hlen := congrArg List.length h
  rw [List.length_drop, List.length_cons] at hlen
  omega

theorem skip_eq (inClass : UInt8 → Bool) (text : Bytes) (pos : Nat) :
    skip inClass text pos = some (pos + ((text.drop pos).takeWhile inClass).length) := by
  refine loop_eq (fun _ => True) (fun pos => pos + ((text.drop pos).takeWhile inClass).length) ?_
    trivial
  intro pos _
  cases h : text.drop pos with
  | nil =>
    refine .inl ?_
    rw [getElem?_eq_head?, h]
    rfl
  | cons b rest =>
    have hlen := length_of_drop h
    have hnext : text.drop (pos + 1) = rest := drop_add h 1
    rw [getElem?_of_drop h, Option.any_some, List.takeWhile_cons]
    cases hb : inClass b with
    | true =>
      refine .inr ⟨pos + 1, rfl, by omega, trivial, ?_⟩
      rw [hnext, if_pos rfl, List.length_cons, Nat.add_assoc, Nat.add_comm 1]
    | false => exact .inl rfl

/-- The bytes of a class that are skipped, and what the text goes on with. -/
theorem skip_split (inClass : UInt8 → Bool) (text : Bytes) (pos : Nat) :
    ∃ u v, text.drop pos = u ++ v ∧ (∀ b ∈ u, inClass b) ∧ v.head?.any inClass = false ∧
      skip inClass text pos = some (pos + u.length) := by
  refine ⟨(text.drop pos).takeWhile inClass, (text.drop pos).dropWhile inClass,
    List.takeWhile_append_dropWhile.symm, ?_, ?_, skip_eq inClass text pos⟩
  · exact fun b hb => List.mem_takeWhile_imp hb
  · have hhead := List.head?_dropWhile_not inClass (text.drop pos)
    cases hv : ((text.drop pos).dropWhile inClass).head? with
    | none => rfl
    | some b =>
      rw [hv] at hhead
      simpa using hhead

/-- The bytes before the first one of a kind, or all if there is none. -/
theorem findIdx?_cases (p : UInt8 → Bool) (text : Bytes) :
    (text.findIdx? p = none ∧ ∀ b ∈ text, ¬ p b) ∨
      ∃ u b v, text = u ++ b :: v ∧ (∀ c ∈ u, ¬ p c) ∧ p b ∧ text.findIdx? p = some u.length := by
  induction text with
  | nil => exact .inl ⟨rfl, nofun⟩
  | cons b text ih =>
    rw [List.findIdx?_cons]
    by_cases hb : p b
    · exact .inr ⟨[], b, text, rfl, nofun, hb, if_pos hb⟩
    · rw [if_neg hb]
      rcases ih with ⟨hnone, hall⟩ | ⟨u, c, v, rfl, hu, hc, hsome⟩
      · exact .inl ⟨by rw [hnone]; rfl, List.forall_mem_cons.2 ⟨hb, hall⟩⟩
      · exact .inr ⟨b :: u, c, v, rfl, List.forall_mem_cons.2 ⟨hb, hu⟩, hc, by rw [hsome]; rfl⟩

/-! ## Parts of a token -/

/-- What a part of the scan by position comes to, where a scan from `s` on comes to the same: an
error, or a further position, where the scan is inside the token `post` tells. -/
inductive Leads (limits : Limits) (text : Bytes) (s : State) (post : Nat → Lexeme → Prop) :
    Attempt Nat → Prop
  | ok {stop : Nat} {lexeme : Lexeme} :
      s.pos ≤ stop → stop ≤ text.length → post stop lexeme →
      scanFrom limits s (text.drop s.pos) =
        scanFrom limits (s.ahead (stop - s.pos) lexeme) (text.drop stop) →
      Leads limits text s post (pure stop)
  | error {e : LexError} :
      scanFrom limits s (text.drop s.pos) = s.outcome (some e) → Leads limits text s post (throw e)

variable {post post' : Nat → Lexeme → Prop} {lexeme : Lexeme} {r : Attempt Nat}

/-- A part may be seen from a later state of the same scan. -/
theorem Leads.of_scanFrom (h : scanFrom limits s (text.drop s.pos) =
      scanFrom limits (s.ahead n lexeme) (text.drop (s.pos + n)))
    (hr : Leads limits text (s.ahead n lexeme) post r) : Leads limits text s post r := by
  cases hr with
  | @ok stop lexeme' hle hlen hpost heq =>
    have hpos : s.pos + n ≤ stop := hle
    have hn : n + (stop - (s.ahead n lexeme).pos) = stop - s.pos := by
      show n + (stop - (s.pos + n)) = stop - s.pos
      omega
    refine .ok (by omega) hlen hpost ?_
    rw [h, ← hn, ← State.ahead_ahead s n _ lexeme]
    exact heq
  | error heq => exact .error (h.trans heq)

/-- What is read first leads on to what the rest leads to. -/
theorem Leads.of_reads {u : Bytes} (h : Reads limits s u (s.ahead u.length lexeme))
    (hu : text.drop s.pos = u ++ rest)
    (hr : Leads limits text (s.ahead u.length lexeme) post r) : Leads limits text s post r := by
  refine .of_scanFrom ?_ hr
  rw [drop_add hu, List.drop_left, hu, h.scanFrom_eq]

/-- A part that comes to the position after some bytes that are read. -/
theorem Leads.of_read {u : Bytes} (hpos : s.pos ≤ text.length) (hu : text.drop s.pos = u ++ rest)
    (h : Reads limits s u (s.ahead u.length lexeme)) (hpost : post (s.pos + u.length) lexeme) :
    Leads limits text s post (pure (s.pos + u.length)) := by
  have hlen := congrArg List.length hu
  rw [List.length_drop, List.length_append] at hlen
  refine .ok (Nat.le_add_right _ _) (by omega) hpost ?_
  rw [drop_add hu, List.drop_left, Nat.add_sub_cancel_left, hu, h.scanFrom_eq]

theorem Leads.mono (h : Leads limits text s post r)
    (hpost : ∀ stop l, s.pos ≤ stop → post stop l → post' stop l) :
    Leads limits text s post' r := by
  cases h with
  | ok hle hlen hstop heq => exact .ok hle hlen (hpost _ _ hle hstop) heq
  | error heq => exact .error heq

/-- One part after another. -/
theorem Leads.bind {f : Nat → Attempt Nat} (h : Leads limits text s post r)
    (hf : ∀ stop lexeme, s.pos ≤ stop → stop ≤ text.length → post stop lexeme →
      Leads limits text (s.ahead (stop - s.pos) lexeme) post' (f stop)) :
    Leads limits text s post' (r >>= f) := by
  cases h with
  | error heq => exact .error heq
  | @ok stop lexeme hle hlen hpost heq =>
    have hpos : (s.ahead (stop - s.pos) lexeme).pos = stop := Nat.add_sub_cancel' hle
    have hnext := hf stop lexeme hle hlen hpost
    rw [pure_bind]
    generalize f stop = r at hnext ⊢
    cases hnext with
    | @ok stop' lexeme' hle' hlen' hpost' heq' =>
      rw [hpos] at hle' heq'
      refine .ok (Nat.le_trans hle hle') hlen' hpost' ?_
      have hn : stop - s.pos + (stop' - stop) = stop' - s.pos := by omega
      rw [heq, heq', State.ahead_ahead, hn]
    | error heq' =>
      rw [hpos] at heq'
      exact .error (heq.trans heq')

/-! ## Strings -/

/-- Where a string is not closed. -/
theorem scanFrom_unterminated {part : StringPart} (hl : s.lexeme = .string start part)
    (hp : part = .body ∨ ∃ c offset, part = .tainted c offset)
    (hrest : ∀ b ∈ rest, ¬ (b == Byte.quote || b == Byte.backslash)) :
    scanFrom limits s rest = s.outcome (some ⟨.unterminatedString, start⟩) := by
  induction rest generalizing s part with
  | nil => rcases hp with rfl | ⟨c, offset, rfl⟩ <;> simp [scanFrom, State.settle, State.finish, hl]
  | cons b rest ih =>
    obtain ⟨hb, hrest⟩ := List.forall_mem_cons.1 hrest
    obtain ⟨part', hp', hread⟩ : ∃ part', (part' = .body ∨ ∃ c offset, part' = .tainted c offset) ∧
        s.read limits b = .ok (s.ahead 1 (.string start part')) := by
      rw [State.read_string hl]
      rcases hp with rfl | ⟨c, offset, rfl⟩
      · simp only [Bool.or_eq_true, not_or] at hb
        by_cases hc : Byte.isControl b
        · refine ⟨.tainted b s.pos, .inr ⟨b, s.pos, rfl⟩, ?_⟩
          rw [State.inString, if_neg hb.1, if_neg hb.2, if_pos hc]
          rfl
        · refine ⟨.body, .inl rfl, ?_⟩
          rw [State.inString, if_neg hb.1, if_neg hb.2, if_neg hc]
          rfl
      · refine ⟨.tainted c offset, .inr ⟨c, offset, rfl⟩, ?_⟩
        rw [State.inString, if_neg hb]
        rfl
    rw [← List.singleton_append, (Reads.single hread).scanFrom_eq, ih rfl hp' hrest]
    rfl

/-- Bytes of a string that are neither quotes nor backslashes nor control bytes. -/
theorem reads_plain {u : Bytes} (hl : s.lexeme = .string start .body)
    (hu : ∀ b ∈ u, ¬ (b == Byte.quote || b == Byte.backslash))
    (hc : ∀ b ∈ u, ¬ Byte.isControl b) :
    Reads limits s u (s.ahead u.length (.string start .body)) := by
  refine Reads.content (IsContent.of_forall fun b hb => ?_) hl
  have hq := hu b hb
  simp only [Bool.or_eq_true, beq_iff_eq, not_or] at hq
  exact ⟨not_isControl_iff.1 (hc b hb), hq.1, hq.2⟩

/-- A control byte in a string is reported at the quote or backslash after it. -/
theorem scanFrom_control {u : Bytes} {c : UInt8} {offset : Nat}
    (hl : s.lexeme = .string start (.tainted c offset))
    (hu : ∀ b ∈ u, ¬ (b == Byte.quote || b == Byte.backslash))
    (hb : b == Byte.quote || b == Byte.backslash) :
    scanFrom limits s (u ++ b :: rest) = s.outcome (some ⟨.controlCharacter c, offset⟩) := by
  induction u generalizing s with
  | nil =>
    have hset : s.settle (some b) = s := by simp only [State.settle, hl]
    have hfeed : s.feed limits b = .error (.because (.controlCharacter c) offset) := by
      simp only [State.feed, hl, State.inString, hb, if_true]
    rw [List.nil_append, scanFrom, hset, hfeed]
    rfl
  | cons d u ih =>
    obtain ⟨hd, hu⟩ := List.forall_mem_cons.1 hu
    have hread : s.read limits d = .ok (s.ahead 1 (.string start (.tainted c offset))) := by
      rw [State.read_string hl, State.inString, if_neg hd]
      rfl
    rw [List.cons_append, ← List.singleton_append, (Reads.single hread).scanFrom_eq, ih rfl hu]
    rfl

/-- The first control byte in a string that goes on to a quote or backslash. -/
theorem scanFrom_of_control {u₁ u₂ : Bytes} {c : UInt8} (hl : s.lexeme = .string start .body)
    (hu : ∀ b ∈ u₁ ++ c :: u₂, ¬ (b == Byte.quote || b == Byte.backslash))
    (hu₁ : ∀ b ∈ u₁, ¬ Byte.isControl b) (hc : Byte.isControl c)
    (hb : b == Byte.quote || b == Byte.backslash) :
    scanFrom limits s (u₁ ++ c :: u₂ ++ b :: rest) =
      s.outcome (some ⟨.controlCharacter c, s.pos + u₁.length⟩) := by
  obtain ⟨hplain, hlater⟩ := List.forall_mem_append.1 hu
  obtain ⟨hcq, hjunk⟩ := List.forall_mem_cons.1 hlater
  have hread : Reads limits s u₁ (s.ahead u₁.length (.string start .body)) :=
    reads_plain hl hplain hu₁
  have htaint : (s.ahead u₁.length (.string start .body)).read limits c =
      .ok (s.ahead (u₁.length + 1) (.string start (.tainted c (s.pos + u₁.length)))) := by
    simp only [Bool.or_eq_true, not_or] at hcq
    rw [State.read_string rfl, State.inString, if_neg hcq.1, if_neg hcq.2, if_pos hc]
    rfl
  have hsplit : u₁ ++ c :: u₂ ++ b :: rest = u₁ ++ ([c] ++ (u₂ ++ b :: rest)) := by simp
  rw [hsplit, hread.scanFrom_eq, (Reads.single htaint).scanFrom_eq]
  exact scanFrom_control rfl hjunk hb

theorem hexDigit_eq : ∀ b, hexDigit b = some ((Byte.hexValue b).map UInt8.toNat) := by
  decide +kernel

/-- Digits make a number if they are hexadecimal. -/
theorem unit_eq (code : Nat) (digits : Bytes) :
    ∃ o, unit code digits = some o ∧ (o.isSome ↔ ∀ b ∈ digits, Byte.isHexDigit b) := by
  induction digits generalizing code with
  | nil => exact ⟨some code, rfl, by simp⟩
  | cons b digits ih =>
    rw [unit, hexDigit_eq]
    cases hb : Byte.hexValue b with
    | none => exact ⟨none, rfl, by simp [Byte.isHexDigit, hb]⟩
    | some d =>
      obtain ⟨o, ho, hiff⟩ := ih (code * 16 + d.toNat)
      exact ⟨o, ho, by simp [Byte.isHexDigit, hb, hiff]⟩

/-- The digits of a numeric escape are read if all of them are there. -/
theorem reads_digits {backslash missing : Nat} {digits : Bytes}
    (hl : s.lexeme = .string start (.digits backslash missing)) (hlen : digits.length = missing)
    (hm : 0 < missing) (hx : ∀ b ∈ digits, Byte.isHexDigit b) :
    Reads limits s digits (s.ahead missing (.string start .body)) := by
  induction missing generalizing s digits with
  | zero => exact absurd hm (Nat.lt_irrefl 0)
  | succ missing ih =>
    cases digits with
    | nil => cases hlen
    | cons b digits =>
      obtain ⟨hb, hx⟩ := List.forall_mem_cons.1 hx
      rw [List.length_cons, Nat.add_right_cancel_iff] at hlen
      by_cases hzero : missing = 0
      · obtain rfl : digits = [] := List.length_eq_zero_iff.1 (hlen.trans hzero)
        subst hzero
        refine Reads.single ?_
        rw [State.read_string hl, State.inString, if_pos hb]
        rfl
      · have hread : s.read limits b =
            .ok (s.ahead 1 (.string start (.digits backslash missing))) := by
          rw [State.read_string hl, State.inString, if_pos hb, if_neg (by omega)]
          rfl
        have hrest : Reads limits (s.ahead 1 (.string start (.digits backslash missing))) digits _ :=
          ih rfl hlen (Nat.pos_of_ne_zero hzero) hx
        rw [State.ahead_ahead, Nat.add_comm] at hrest
        exact .cons hread hrest

/-- Where a digit of a numeric escape is missing. -/
theorem scanFrom_not_digits {backslash missing : Nat}
    (hl : s.lexeme = .string start (.digits backslash missing)) (hm : 0 < missing)
    (hx : ¬ (missing ≤ rest.length ∧ ∀ b ∈ rest.take missing, Byte.isHexDigit b)) :
    scanFrom limits s rest = s.outcome (some ⟨.invalidUnicodeEscape, backslash⟩) := by
  induction rest generalizing s missing with
  | nil => simp [scanFrom, State.settle, State.finish, hl]
  | cons b rest ih =>
    obtain ⟨missing, rfl⟩ : ∃ n, missing = n + 1 := ⟨missing - 1, by omega⟩
    by_cases hb : Byte.isHexDigit b
    · have hmissing : 0 < missing := by
        refine Nat.pos_of_ne_zero fun hzero => hx ?_
        subst hzero
        exact ⟨by simp, by simpa using hb⟩
      have hread : s.read limits b =
          .ok (s.ahead 1 (.string start (.digits backslash missing))) := by
        rw [State.read_string hl, State.inString, if_pos hb, if_neg (by omega)]
        rfl
      have hrest : ¬ (missing ≤ rest.length ∧ ∀ b ∈ rest.take missing, Byte.isHexDigit b) := by
        rintro ⟨hlen, hall⟩
        refine hx ⟨by simpa using hlen, ?_⟩
        rw [List.take_succ_cons]
        exact List.forall_mem_cons.2 ⟨hb, hall⟩
      rw [← List.singleton_append, (Reads.single hread).scanFrom_eq, ih rfl hmissing hrest]
      rfl
    · have hset : s.settle (some b) = s := by simp only [State.settle, hl]
      have hfeed : s.feed limits b = .error (.because .invalidUnicodeEscape backslash) := by
        simp only [State.feed, hl, State.inString, if_neg hb]
      rw [scanFrom, hset, hfeed]
      rfl

/-- The four bytes of a numeric escape, if the text goes on so far. -/
theorem between_eq (h : text.drop pos = rest) (hpos : pos ≤ text.length) (n : Nat) :
    between text pos (pos + n) = if n ≤ rest.length then some (rest.take n) else none := by
  have hlen : rest.length = text.length - pos := by rw [← h, List.length_drop]
  unfold between
  by_cases hn : n ≤ rest.length
  · rw [if_pos (by omega), if_pos hn, h, Nat.add_sub_cancel_left]
  · rw [if_neg (by omega), if_neg hn]

/-- A numeric escape after its `u`. -/
theorem escape_unit_leads {v : Bytes} (hl : s.lexeme = .string start .body)
    (h : text.drop s.pos = Byte.backslash :: 0x75 :: v) :
    Leads limits text s (fun stop l => s.pos < stop ∧ l = .string start .body)
      (escape text start s.pos) := by
  have hlen := length_of_drop h
  rw [List.length_cons] at hlen
  have hnext : text[s.pos + 1]? = some 0x75 := by
    rw [getElem?_eq_head?, drop_add h]
    rfl
  have hdigits : text.drop (s.pos + 2) = v := by
    rw [drop_add h]
    rfl
  have hread : Reads limits s [Byte.backslash, 0x75]
      (s.ahead 2 (.string start (.digits s.pos 4))) :=
    .cons (State.read_backslash hl) (.single (State.read_unit rfl))
  have hbetween := between_eq hdigits (by omega) 4
  have hscan : scanFrom limits s (text.drop s.pos) =
      scanFrom limits (s.ahead 2 (.string start (.digits s.pos 4))) v := by
    rw [h]
    exact hread.scanFrom_eq v
  simp only [escape, hnext, show isShortEscape 0x75 = false by decide, Bool.false_eq_true, if_false,
    beq_self_eq_true, if_true, hbetween]
  by_cases hfour : 4 ≤ v.length
  · obtain ⟨o, ho, hiff⟩ := unit_eq 0 (v.take 4)
    simp only [if_pos hfour, Attempt.lift_bind ho]
    cases o with
    | none =>
      refine .error ?_
      rw [hscan]
      refine scanFrom_not_digits rfl (by decide) fun hall => ?_
      exact absurd (hiff.2 hall.2) Bool.false_ne_true
    | some code =>
      have hx : ∀ b ∈ v.take 4, Byte.isHexDigit b := hiff.1 rfl
      have hfive : Reads limits (s.ahead 2 (.string start (.digits s.pos 4))) (v.take 4)
          ((s.ahead 2 (.string start (.digits s.pos 4))).ahead 4 (.string start .body)) :=
        reads_digits rfl (List.length_take_of_le hfour) (by decide) hx
      have hsix : text.drop (s.pos + 6) = v.drop 4 := by
        rw [show s.pos + 6 = s.pos + 2 + 4 from rfl, drop_add hdigits]
      refine .ok (by omega) (by omega) ⟨by omega, rfl⟩ ?_
      rw [hscan, hsix]
      have hall := hfive.scanFrom_eq (v.drop 4)
      rw [List.take_append_drop, State.ahead_ahead] at hall
      rw [hall, Nat.add_sub_cancel_left]
  · rw [if_neg hfour]
    refine .error ?_
    rw [hscan]
    exact scanFrom_not_digits rfl (by decide) fun hall => hfour hall.1

theorem escape_leads (hl : s.lexeme = .string start .body) (hat : s.pos = pos)
    (h : text.drop pos = Byte.backslash :: rest) :
    Leads limits text s (fun stop l => pos < stop ∧ l = .string start .body)
      (escape text start pos) := by
  subst hat
  have hfirst : s.read limits Byte.backslash = .ok (s.ahead 1 (.string start .escape)) :=
    State.read_backslash hl
  have hlen := length_of_drop h
  have hnext : text[s.pos + 1]? = rest.head? := by
    rw [getElem?_eq_head?, drop_add h]
    rfl
  cases rest with
  | nil =>
    simp only [escape, hnext, List.head?_nil]
    refine .error ?_
    rw [h, ← List.append_nil [Byte.backslash], (Reads.single hfirst).scanFrom_eq]
    rfl
  | cons b v =>
    rw [List.length_cons] at hlen
    by_cases hu : b = 0x75
    · subst hu
      exact escape_unit_leads hl h
    · have hne : (b == 0x75) = false := by simpa using hu
      simp only [escape, hnext, List.head?_cons, hne, Bool.false_eq_true, if_false]
      have hset : (s.ahead 1 (.string start .escape)).settle (some b) =
          s.ahead 1 (.string start .escape) := rfl
      by_cases hshort : isShortEscape b
      · rw [if_pos hshort]
        have hread : Reads limits s [Byte.backslash, b] (s.ahead 2 (.string start .body)) := by
          refine .cons hfirst (.single ?_)
          rw [State.read_string rfl, State.inString, if_neg (by simpa using hu), if_pos hshort]
          rfl
        have hrest : text.drop (s.pos + 2) = v := by
          rw [drop_add h]
          rfl
        refine .ok (by omega) (by omega) ⟨by omega, rfl⟩ ?_
        rw [h, hrest, Nat.add_sub_cancel_left]
        exact hread.scanFrom_eq v
      · rw [if_neg hshort]
        have hafter : text.drop (s.pos + 1) = b :: v := by
          rw [drop_add h]
          rfl
        have hchar : charAt text (s.pos + 1) = some (Utf8.firstChar (b :: v)) := by
          rw [charAt_eq (by omega), hafter]
        simp only [Attempt.lift_bind hchar]
        refine .error ?_
        have hfeed : (s.ahead 1 (.string start .escape)).feed limits b = .error .escape := by
          simp only [State.feed, State.ahead, State.inString, hne, Bool.false_eq_true, if_false,
            if_neg hshort]
        rw [h, ← List.singleton_append, (Reads.single hfirst).scanFrom_eq, scanFrom, hset, hfeed]
        rfl

/-- What a stretch of a string comes to, where a scan from `s` on comes to the same: an error, the
place of the closing quote, or a place inside the string further on. -/
inductive StretchLeads (limits : Limits) (text : Bytes) (s : State) (start : Nat) :
    Attempt (Nat ⊕ Nat) → Prop
  | quote {close : Nat} : s.pos ≤ close → text[close]? = some Byte.quote →
      scanFrom limits s (text.drop s.pos) =
        scanFrom limits (s.ahead (close - s.pos) (.string start .body)) (text.drop close) →
      StretchLeads limits text s start (pure (.inl close))
  | escape {next : Nat} : s.pos < next → next ≤ text.length →
      scanFrom limits s (text.drop s.pos) =
        scanFrom limits (s.ahead (next - s.pos) (.string start .body)) (text.drop next) →
      StretchLeads limits text s start (pure (.inr next))
  | error {e : LexError} : scanFrom limits s (text.drop s.pos) = s.outcome (some e) →
      StretchLeads limits text s start (throw e)

theorem stretch_leads (hl : s.lexeme = .string start .body) (hpos : s.pos ≤ text.length) :
    StretchLeads limits text s start (stretch text start s.pos) := by
  rw [stretch, Attempt.lift_bind (suffix_eq hpos)]
  rcases findIdx?_cases (fun b => b == Byte.quote || b == Byte.backslash) (text.drop s.pos) with
    ⟨hnone, hall⟩ | ⟨u, b, v, htext, hu, hb, hsome⟩
  · rw [hnone]
    exact .error (scanFrom_unterminated hl (.inl rfl) hall)
  have hbefore : before (text.drop s.pos) u.length = some u := by
    rw [htext, before_eq (by simp), List.take_left]
  have hlast : text.drop (s.pos + u.length) = b :: v := by rw [drop_add htext, List.drop_left]
  have hbyte : byteAt text (s.pos + u.length) = some b := getElem?_of_drop hlast
  rw [hsome]
  simp only [Attempt.lift_bind hbefore]
  rcases findIdx?_cases Byte.isControl u with ⟨hnone, hall⟩ | ⟨u₁, c, u₂, rfl, hu₁, hc, hfirst⟩
  · have hread : Reads limits s u (s.ahead u.length (.string start .body)) :=
      reads_plain hl hu hall
    simp only [hnone, Attempt.lift_bind hbyte]
    by_cases hq : b == Byte.quote
    · rw [if_pos hq]
      rw [eq_of_beq hq] at hlast hbyte htext
      refine .quote (Nat.le_add_right _ _) hbyte ?_
      rw [htext, hread.scanFrom_eq, hlast, Nat.add_sub_cancel_left]
    · have hback : b = Byte.backslash := by simpa [hq] using hb
      subst hback
      rw [if_neg hq]
      have hescape : Leads limits text s (fun stop l => s.pos + u.length < stop ∧
          l = .string start .body) (escape text start (s.pos + u.length)) :=
        .of_reads hread htext (escape_leads rfl rfl hlast)
      generalize escape text start (s.pos + u.length) = r at hescape ⊢
      cases hescape with
      | error heq => exact .error heq
      | ok _ hlen hpost heq =>
        obtain ⟨hlt, rfl⟩ := hpost
        exact .escape (by omega) hlen heq
  · have hbyte : byteAt (text.drop s.pos) u₁.length = some c := by
      rw [byteAt, htext]
      simp
    simp only [hfirst, Attempt.lift_bind hbyte]
    refine .error ?_
    rw [htext]
    exact scanFrom_of_control hl hu hu₁ hc hb

theorem closingQuote_done {close : Nat} (h : stretch text start pos = pure (.inl close)) :
    closingQuote text start pos = pure close := by
  refine loop_done ?_
  rw [h]
  rfl

theorem closingQuote_error (h : stretch text start pos = throw e) :
    closingQuote text start pos = throw e := by
  refine loop_done ?_
  rw [h]
  rfl

theorem closingQuote_again {next : Nat} (h : stretch text start pos = pure (.inr next))
    (hlt : pos < next) (hnext : next ≤ text.length) :
    closingQuote text start pos = closingQuote text start next := by
  refine loop_again ?_ ?_
  · rw [h]
    rfl
  · show text.length - next < text.length - pos
    omega

/-- The end of a string. -/
theorem closingQuote_leads (hl : s.lexeme = .string start .body) (hat : s.pos = pos)
    (hstart : start < pos) (hpos : pos ≤ text.length) :
    Leads limits text s
      (fun stop l => start < stop ∧ text[stop]? = some Byte.quote ∧ l = .string start .body)
      (closingQuote text start pos) := by
  -- Every escape moves the position on.
  induction hn : text.length - pos using Nat.strongRecOn generalizing s pos with
  | ind n ih =>
    subst hn hat
    have hstretch : StretchLeads limits text s start (stretch text start s.pos) :=
      stretch_leads hl hpos
    generalize hr : stretch text start s.pos = r at hstretch
    cases hstretch with
    | error heq =>
      rw [closingQuote_error hr]
      exact .error heq
    | quote hle hquote heq =>
      rw [closingQuote_done hr]
      obtain ⟨v, hv⟩ := exists_drop_of_some hquote
      have hlen := length_of_drop hv
      exact .ok hle (by omega) ⟨by omega, hquote, rfl⟩ heq
    | @escape next hlt hlen heq =>
      rw [closingQuote_again hr hlt hlen]
      have hnext : s.pos + (next - s.pos) = next := by omega
      have hsame : scanFrom limits s (text.drop s.pos) =
          scanFrom limits (s.ahead (next - s.pos) (.string start .body))
            (text.drop (s.pos + (next - s.pos))) := by
        rw [hnext]
        exact heq
      exact .of_scanFrom hsame (ih (text.length - next) (by omega) rfl hnext (by omega) hlen rfl)

/-! ## Numbers -/

/-- Whether no digit stands at a position. -/
def NoDigit (text : Bytes) (pos : Nat) : Prop :=
  text[pos]?.any Byte.isDigit = false

/-- A number that goes on wrongly, or not at all. -/
theorem scanFrom_malformed {expected : String} (hl : s.lexeme = .number start part)
    (hp : part.read rest.head? = .wrong expected) :
    scanFrom limits s rest = s.outcome (some ⟨.malformedNumber expected, s.pos⟩) := by
  have hne : part.read rest.head? ≠ .done := by
    rw [hp]
    exact nofun
  have hset := State.settle_of_ne_done hl hne
  cases rest with
  | nil =>
    rw [List.head?_nil] at hset hp
    rw [scanFrom, hset]
    simp only [State.finish, hl, hp]
  | cons b rest =>
    rw [List.head?_cons] at hset hp
    have hfeed : s.feed limits b = .error (.because (.malformedNumber expected) s.pos) := by
      simp only [State.feed, hl, hp]
    rw [scanFrom, hset, hfeed]
    rfl

/-- The digits at a position, which no further digit follows. -/
theorem skip_digits (text : Bytes) (pos : Nat) :
    ∃ u v, text.drop pos = u ++ v ∧ AllDigits u ∧ NoDigit text (pos + u.length) ∧
      skip Byte.isDigit text pos = some (pos + u.length) := by
  obtain ⟨u, v, htext, hu, hv, hskip⟩ := skip_split Byte.isDigit text pos
  refine ⟨u, v, htext, hu, ?_, hskip⟩
  rw [NoDigit, getElem?_eq_head?, drop_add htext, List.drop_left]
  exact hv

/-- Where digits are needed. -/
theorem digitsEnd_leads {expected : String} {part' : NumberPart}
    (hl : s.lexeme = .number start part) (hat : s.pos = pos) (hpos : pos ≤ text.length)
    (hmore : ∀ d, Byte.isDigit d → part.read (some d) = .more part')
    (hwrong : NoDigit text pos → part.read text[pos]? = .wrong expected)
    (hp : part' = .whole ∨ part' = .fraction ∨ part' = .exponentDigits) :
    Leads limits text s (fun stop l => l = .number start part' ∧ NoDigit text stop)
      (digitsEnd expected text pos) := by
  subst hat
  obtain ⟨u, v, htext, hu, hno, hskip⟩ := skip_digits text s.pos
  rw [digitsEnd, Attempt.lift_bind hskip]
  cases u with
  | nil =>
    rw [List.length_nil, if_pos (Nat.add_zero _)]
    have hbad := hwrong hno
    rw [getElem?_eq_head?] at hbad
    exact .error (scanFrom_malformed hl hbad)
  | cons d u =>
    obtain ⟨hd, hu⟩ := List.forall_mem_cons.1 hu
    rw [if_neg (by simp)]
    have hread : NumberPart.Reads part (d :: u) part' := .cons (hmore d hd) (.digits hp hu)
    exact .of_read hpos htext (Reads.number hread hl) ⟨rfl, hno⟩

/-- The whole digits of a number, as they are read after its sign. -/
theorem wholeEnd_leads (hl : s.lexeme = .number start .sign) (hat : s.pos = pos)
    (hpos : pos ≤ text.length) :
    Leads limits text s
      (fun stop l => pos < stop ∧ ∃ part, l = .number start part ∧
        (part = .zero ∨ part = .whole) ∧ NoDigit text stop)
      (wholeEnd text pos) := by
  subst hat
  have hbad : NumberPart.sign.read text[s.pos]? = .wrong "a digit" →
      Leads limits text s (fun stop l => s.pos < stop ∧ ∃ part, l = .number start part ∧
        (part = .zero ∨ part = .whole) ∧ NoDigit text stop)
        (throw ⟨.malformedNumber "a digit", s.pos⟩) := by
    intro h
    rw [getElem?_eq_head?] at h
    exact .error (scanFrom_malformed hl h)
  unfold wholeEnd
  cases hrest : text.drop s.pos with
  | nil =>
    have hbyte : text[s.pos]? = none := by
      rw [getElem?_eq_head?, hrest]
      rfl
    rw [hbyte] at hbad ⊢
    exact hbad rfl
  | cons b v =>
    have hbyte := getElem?_of_drop hrest
    rw [hbyte] at hbad
    simp only [hbyte]
    by_cases hzero : b = 0x30
    · subst hzero
      have hread : Reads limits s [0x30] (s.ahead 1 (.number start .zero)) :=
        .single (State.read_number hl rfl)
      rw [if_pos (by decide)]
      by_cases hdigit : text[s.pos + 1]?.any Byte.isDigit
      · rw [if_pos hdigit]
        have hafter : text.drop (s.pos + 1) = v := drop_add hrest 1
        rw [getElem?_eq_head?, hafter] at hdigit
        have hwrong : NumberPart.zero.read v.head? = .wrong "no digits after a leading zero" :=
          if_pos hdigit
        refine .error ?_
        rw [hrest, ← List.singleton_append, hread.scanFrom_eq]
        exact scanFrom_malformed rfl hwrong
      · rw [if_neg hdigit]
        exact .of_read hpos hrest hread
          ⟨by simp, .zero, rfl, .inl rfl, by simpa [NoDigit] using hdigit⟩
    · rw [if_neg (by simpa using hzero)]
      by_cases hdigit : Byte.isDigit b
      · rw [if_pos hdigit]
        obtain ⟨u, w, htext, hu, hno, hskip⟩ := skip_digits text s.pos
        cases u with
        | nil =>
          have hno : NoDigit text s.pos := hno
          rw [NoDigit, hbyte, Option.any_some, hdigit] at hno
          cases hno
        | cons c u =>
          obtain ⟨rfl, -⟩ : b = c ∧ v = u ++ w := List.cons.inj (hrest.symm.trans htext)
          have hfirst : NumberPart.sign.read (some b) = .more .whole := by
            simp [NumberPart.read, needDigit, hzero, hdigit]
          have hread : NumberPart.Reads .sign (b :: u) .whole :=
            .cons hfirst (.digits (.inl rfl) (List.forall_mem_cons.1 hu).2)
          have hstop : (liftM (skip Byte.isDigit text s.pos) : Attempt Nat) =
              pure (s.pos + (b :: u).length) := by
            rw [hskip]
            rfl
          rw [hstop]
          exact .of_read hpos htext (Reads.number hread hl) ⟨by simp, .whole, rfl, .inr rfl, hno⟩
      · rw [if_neg hdigit]
        refine hbad ?_
        simp [NumberPart.read, needDigit, hzero, hdigit]

theorem needDigit_of_noDigit {expected : String} (h : NoDigit text pos) :
    needDigit part expected text[pos]? = .wrong expected := by
  unfold NoDigit at h
  cases hb : text[pos]? with
  | none => rfl
  | some b =>
    rw [hb, Option.any_some] at h
    simp [needDigit, h]

/-- What may follow a number before its exponent. -/
def EndsOrExponent (text : Bytes) (stop : Nat) (part : NumberPart) : Prop :=
  part.read text[stop]? = if text[stop]?.any isExponentLetter then .more .exponent else .done

theorem fractionEnd_leads (hl : s.lexeme = .number start part) (hat : s.pos = pos)
    (hpos : pos ≤ text.length) (hp : part = .zero ∨ part = .whole) (hno : NoDigit text pos) :
    Leads limits text s
      (fun stop l => ∃ part', l = .number start part' ∧ EndsOrExponent text stop part')
      (fractionEnd text pos) := by
  subst hat
  have hafter : part.read text[s.pos]? = afterWhole text[s.pos]? := by
    have hdigit : text[s.pos]?.any Byte.isDigit = false := hno
    rcases hp with rfl | rfl <;> simp [NumberPart.read, hdigit]
  unfold fractionEnd
  by_cases hpoint : text[s.pos]? = some 0x2E
  · obtain ⟨v, htext⟩ := exists_drop_of_some hpoint
    have hlen := length_of_drop htext
    rw [hpoint] at hafter
    have hread : Reads limits s [0x2E] (s.ahead 1 (.number start .point)) :=
      .single (State.read_number hl hafter)
    rw [if_pos hpoint]
    refine .of_reads hread htext ?_
    have hdigits : Leads limits text (s.ahead 1 (.number start .point))
        (fun stop l => l = .number start .fraction ∧ NoDigit text stop)
        (digitsEnd "a digit after the decimal point" text (s.pos + 1)) := by
      refine digitsEnd_leads rfl rfl ?_ (fun d hd => if_pos hd) needDigit_of_noDigit
        (.inr (.inl rfl))
      omega
    refine hdigits.mono fun stop l _ hpost => ⟨.fraction, hpost.1, ?_⟩
    have hdigit : text[stop]?.any Byte.isDigit = false := hpost.2
    simp [EndsOrExponent, NumberPart.read, hdigit]
  · rw [if_neg hpoint]
    have hread : Reads limits s [] (s.ahead 0 (.number start part)) := by
      rw [State.ahead_zero hl]
      exact .nil s
    refine .of_read hpos rfl hread ⟨part, rfl, ?_⟩
    show part.read text[s.pos]? = _
    rw [hafter]
    cases hb : text[s.pos]? with
    | none => rfl
    | some b =>
      have hne : b ≠ 0x2E := by
        rintro rfl
        exact hpoint hb
      simp [afterWhole, hne]

/-- The digits of an exponent. -/
theorem exponentDigits_leads (hl : s.lexeme = .number start part) (hat : s.pos = pos)
    (hpos : pos ≤ text.length)
    (hp : (part = .exponent ∧ ¬ (text[pos]? = some 0x2B ∨ text[pos]? = some 0x2D)) ∨
      part = .exponentSign) :
    Leads limits text s
      (fun stop l => ∃ part', l = .number start part' ∧ part'.read text[stop]? = .done)
      (digitsEnd "a digit in the exponent" text pos) := by
  have hdigits : Leads limits text s
      (fun stop l => l = .number start .exponentDigits ∧ NoDigit text stop)
      (digitsEnd "a digit in the exponent" text pos) := by
    refine digitsEnd_leads hl hat hpos ?_ ?_ (.inr (.inr rfl))
    · have hplain : ∀ d, Byte.isDigit d →
          NumberPart.exponent.read (some d) = .more .exponentDigits := by decide +kernel
      rcases hp with ⟨rfl, -⟩ | rfl
      · exact hplain
      · exact fun d hd => if_pos hd
    · intro hno
      rcases hp with ⟨rfl, hsign⟩ | rfl
      · rw [NumberPart.read, if_neg hsign]
        exact needDigit_of_noDigit hno
      · exact needDigit_of_noDigit hno
  refine hdigits.mono fun stop l _ hpost => ⟨.exponentDigits, hpost.1, ?_⟩
  have hdigit : text[stop]?.any Byte.isDigit = false := hpost.2
  simp [NumberPart.read, hdigit]

theorem exponentEnd_leads (hl : s.lexeme = .number start part) (hat : s.pos = pos)
    (hpos : pos ≤ text.length) (hp : EndsOrExponent text pos part) :
    Leads limits text s
      (fun stop l => ∃ part', l = .number start part' ∧ part'.read text[stop]? = .done)
      (exponentEnd text pos) := by
  subst hat
  unfold exponentEnd
  unfold EndsOrExponent at hp
  by_cases hletter : text[s.pos]?.any isExponentLetter
  · rw [if_pos hletter] at hp ⊢
    obtain ⟨b, hb, -⟩ := (Option.any_eq_true _ _).1 hletter
    obtain ⟨v, htext⟩ := exists_drop_of_some hb
    rw [hb] at hp
    have hread : s.read limits b = .ok (s.ahead 1 (.number start .exponent)) :=
      State.read_number hl hp
    have hlen := length_of_drop htext
    by_cases hsign : text[s.pos + 1]? = some 0x2B ∨ text[s.pos + 1]? = some 0x2D
    · rw [if_pos hsign]
      obtain ⟨c, hc, hcb⟩ : ∃ c, text[s.pos + 1]? = some c ∧
          NumberPart.exponent.read (some c) = .more .exponentSign := by
        rcases hsign with hc | hc
        · exact ⟨_, hc, rfl⟩
        · exact ⟨_, hc, rfl⟩
      obtain ⟨w, hw⟩ := exists_drop_of_some hc
      have hlater := length_of_drop hw
      rw [drop_add htext] at hw
      obtain rfl : v = c :: w := hw
      have hread' : Reads limits s [b, c] (s.ahead 2 (.number start .exponentSign)) :=
        .cons hread (.single (State.read_number rfl hcb))
      exact .of_reads hread' htext (exponentDigits_leads rfl rfl (by omega) (.inr rfl))
    · rw [if_neg hsign]
      exact .of_reads (.single hread) htext
        (exponentDigits_leads rfl rfl (by omega) (.inl ⟨rfl, hsign⟩))
  · rw [if_neg hletter] at hp ⊢
    have hread : Reads limits s [] (s.ahead 0 (.number start part)) := by
      rw [State.ahead_zero hl]
      exact .nil s
    exact .of_read hpos rfl hread ⟨part, rfl, hp⟩

end FlatJson.Cursor
