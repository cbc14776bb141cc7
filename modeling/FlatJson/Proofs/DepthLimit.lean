import FlatJson.Proofs.Emission
import FlatJson.Tokenizer
import Mathlib.Algebra.Group.Nat.Defs

/-!
# One text under two depth limits

A scan asks for the depth limit only where a container opens.  Under a higher limit it goes the
same way, until a container opens that the lower limit does not admit; there the lower limit ends
the scan, and nothing before it was any different.

* `LimitsApart` — the effects of one byte under two limits.

`State.read_apart` is about one byte, `Reads.higher` about bytes in a row, `scan_higher` about a
whole text, and `Tokenizer.depth_limit_cuts` about a tokenizer.
-/

namespace FlatJson

namespace Scan

variable {limits : Limits} {d d' : Nat} {several : Bool} {s s' : State} {b : UInt8}
  {t text : Bytes}

/-! ## One byte -/

/-- The effects of one byte under the limit `d` and under a higher limit `d'`: the same, or the
lower limit refuses a container that the higher one admits while it is below it. -/
inductive LimitsApart (d d' : Nat) (s : State) :
    (lower higher : Except Refusal State) → Prop
  | same (r : Except Refusal State) : LimitsApart d d' s r r
  | cut {higher : Except Refusal State} :
      d ≤ s.stack.length →
      (s.stack.length < d' → ∃ c s', higher = .ok s' ∧
        s'.emitted = ⟨.opening c, min s.stack.length maxReportedDepth, s.pos, 1⟩ :: s.emitted) →
      LimitsApart d d' s (.error (.because (.depthLimitExceeded d) s.pos)) higher

theorem State.push_apart (hd : d < d') (s : State) (c : Container) :
    LimitsApart d d' s (s.push ⟨d, several⟩ c) (s.push ⟨d', several⟩ c) := by
  unfold State.push
  by_cases ha : s.awaiting.admitsValue several
  · by_cases hs : d ≤ s.stack.length
    · simp only [ha, hs, Bool.not_true, Bool.false_eq_true, if_false, if_true]
      refine .cut hs ?_
      intro hs'
      rw [if_neg (Nat.not_le_of_lt hs')]
      exact ⟨c, _, rfl, rfl⟩
    · have hs' : ¬ d' ≤ s.stack.length := by omega
      simp only [ha, hs, hs', Bool.not_true, Bool.false_eq_true, if_false]
      exact .same _
  · simp only [ha, Bool.not_false, if_true]
    exact .same _

theorem State.start_apart (hd : d < d') (s : State) (lead : Lead) :
    LimitsApart d d' s (s.start ⟨d, several⟩ lead) (s.start ⟨d', several⟩ lead) := by
  cases lead with
  | opening c => exact s.push_apart hd c
  | _ => exact .same _

/-- Two limits part only where a container opens. -/
theorem State.read_apart (hd : d < d') (s : State) (b : UInt8) :
    LimitsApart d d' (s.settle (some b)) (s.read ⟨d, several⟩ b) (s.read ⟨d', several⟩ b) := by
  unfold State.read State.feed
  cases (s.settle (some b)).lexeme with
  | idle => exact State.start_apart hd _ _
  | string => exact .same _
  | number start part =>
    dsimp only
    cases part.read (some b) with
    | done => exact State.start_apart hd _ _
    | _ => exact .same _
  | word => exact .same _

/-! ## Bytes in a row -/

theorem State.read_higher (hd : d < d') (h : s.read ⟨d, several⟩ b = .ok s') :
    s.read ⟨d', several⟩ b = .ok s' := by
  have hapart : LimitsApart d d' _ (s.read ⟨d, several⟩ b) (s.read ⟨d', several⟩ b) :=
    s.read_apart hd b
  rw [h] at hapart
  generalize s.read ⟨d', several⟩ b = r at hapart
  cases hapart
  rfl

/-- What is read under a limit is read in the same way under a higher one. -/
theorem Reads.higher (hd : d < d') (h : Reads ⟨d, several⟩ s t s') :
    Reads ⟨d', several⟩ s t s' := by
  induction h with
  | nil => exact .nil _
  | cons hb _ ih => exact .cons (State.read_higher hd hb) ih

theorem Control.Step.length_le {c c' : Control} {l : Leaf} (h : Control.Step limits c l c')
    (hc : c.stack.length ≤ limits.maxDepth) : c'.stack.length ≤ limits.maxDepth := by
  cases h with
  | opening k ha hlt => exact hlt
  | closing k ha => exact Nat.le_of_succ_le hc
  | _ => exact hc

/-- No more containers are open than the limit allows. -/
theorem Control.Run.length_le {c c' : Control} {ls : List Leaf} (h : Control.Run limits c ls c')
    (hc : c.stack.length ≤ limits.maxDepth) : c'.stack.length ≤ limits.maxDepth := by
  induction h with
  | nil => exact hc
  | cons hs _ ih => exact ih (hs.length_le hc)

theorem State.settle_stack (s : State) (next : Option UInt8) : (s.settle next).stack = s.stack := by
  unfold State.settle
  split
  · split <;> rfl
  · rfl

theorem Reads.stack_length_le (h : Reads limits {} t s) : s.stack.length ≤ limits.maxDepth := by
  obtain ⟨ps, tail, hr, -⟩ := h.exists_reading
  exact hr.run.length_le (Nat.zero_le _)

/-! ## Whole texts -/

theorem exists_piece_of_mem {tok : Token} {ps : List Piece} {start : Nat}
    (h : tok ∈ tokensAt start ps) : ∃ p ∈ ps, ∃ place, tok = p.token place := by
  induction ps generalizing start with
  | nil => cases h
  | cons p ps ih =>
    rw [tokensAt, List.mem_cons] at h
    rcases h with rfl | h
    · exact ⟨p, List.mem_cons_self, start, rfl⟩
    · obtain ⟨q, hq, place, rfl⟩ := ih h
      exact ⟨q, List.mem_cons_of_mem _ hq, place, rfl⟩

/-- The containers of a text open below the limit. -/
theorem scan_opening_depth_lt (limits : Limits) (text : Bytes) :
    ∀ tok ∈ (scan limits text).tokens, tok.kind.isOpening → tok.depth < limits.maxDepth := by
  intro tok htok hk
  obtain ⟨ps, rest, c, ht, -, hrun, -⟩ := scan_tokens limits text
  rw [ht] at htok
  obtain ⟨p, hp, place, rfl⟩ := exists_piece_of_mem htok
  have hlt : p.leaf.depth < limits.maxDepth := hrun.depth_lt _ (List.mem_map_of_mem hp) hk
  exact Nat.lt_of_le_of_lt (Nat.min_le_left _ _) hlt

/-- **Under a higher limit a text is scanned with the same outcome, or it has a container that
opens at the lower limit, and the lower limit ends the scan right there.** -/
theorem scan_higher (hd : d < d') (several : Bool) (text : Bytes) :
    scan ⟨d, several⟩ text = scan ⟨d', several⟩ text ∨
      ∃ c offset after, (scan ⟨d', several⟩ text).tokens =
          (scan ⟨d, several⟩ text).tokens ++
            ⟨.opening c, min d maxReportedDepth, offset, 1⟩ :: after ∧
        (scan ⟨d, several⟩ text).error = some ⟨.depthLimitExceeded d, offset⟩ := by
  rcases scanFrom_stops ⟨d, several⟩ {} text with ⟨s, hr, -⟩ | ⟨t, b, rest, s, r, rfl, hr, hb, -⟩
  · refine .inl ?_
    rw [hr.scan_eq, (hr.higher hd).scan_eq]
  · have hapart : LimitsApart d d' _ (s.read ⟨d, several⟩ b) (s.read ⟨d', several⟩ b) :=
      s.read_apart hd b
    have hhigher := hr.higher hd
    have hlow := hr.scan_eq_of_refused hb rest
    rw [hb] at hapart
    generalize hb' : s.read ⟨d', several⟩ b = r' at hapart
    cases hapart with
    | same =>
      refine .inl ?_
      rw [hlow, hhigher.scan_eq_of_refused hb' rest]
    | cut hle hadmit =>
      have hlen : (s.settle (some b)).stack.length = d := by
        have hge : s.stack.length ≤ d := hr.stack_length_le
        rw [State.settle_stack] at hle ⊢
        omega
      obtain ⟨c, s', rfl, hs'⟩ := hadmit (hlen ▸ hd)
      have hread : Reads ⟨d', several⟩ {} (t ++ [b]) s' := hhigher.append (.single hb')
      obtain ⟨after, hafter⟩ := scanFrom_tokens ⟨d', several⟩ s' rest
      refine .inr ⟨c, (s.settle (some b)).pos, after, ?_, ?_⟩
      · have hscan : scan ⟨d', several⟩ (t ++ b :: rest) = scanFrom ⟨d', several⟩ s' rest := by
          rw [scan, ← hread.scanFrom_eq, List.append_assoc]
          rfl
        rw [hscan, hlow, ← hafter, hs', hlen, List.reverse_cons, List.append_assoc]
        rfl
      · rw [hlow]
        rfl

end Scan

/-! ## Tokenizers -/

/-- The tokenizer with another limit for the nesting of containers. -/
def Tokenizer.withDepthLimit (t : Tokenizer) (limit : Nat) : Tokenizer :=
  { t with settings := { t.settings with maxDepth := limit } }

/-- The limit has no say in the room that is wanted. -/
theorem Tokenizer.wanted_withDepthLimit (t : Tokenizer) (limit : Nat) (text : Bytes) :
    (t.withDepthLimit limit).wanted text = t.wanted text := by
  rw [wanted, wanted, parse_fst, parse_fst]
  rfl

/-- **A depth limit cuts exactly.**  If no container opens at the lower limit or deeper, both
limits give the same tokens and the same error.  If one does, the lower limit ends the scan at the
first of them, and the tokens are those before it.  Both want the same room, by
`Tokenizer.wanted_withDepthLimit`, so that there is a result under both limits or under neither. -/
theorem Tokenizer.depth_limit_cuts (t : Tokenizer) {d d' : Nat} (hd : d < d') (h32 : d < 2 ^ 32)
    (text : Bytes) :
    ((∀ tok ∈ ((t.withDepthLimit d').parse text).1.tokens, tok.kind.isOpening → tok.depth < d) →
      ((t.withDepthLimit d).parse text).1.tokens = ((t.withDepthLimit d').parse text).1.tokens ∧
      ((t.withDepthLimit d).parse text).1.error = ((t.withDepthLimit d').parse text).1.error) ∧
    ((∃ tok ∈ ((t.withDepthLimit d').parse text).1.tokens, tok.kind.isOpening ∧ d ≤ tok.depth) →
      ∃ before tok after,
        ((t.withDepthLimit d').parse text).1.tokens = before ++ tok :: after ∧
        tok.kind.isOpening ∧ tok.depth = d ∧
        (∀ u ∈ before, u.kind.isOpening → u.depth < d) ∧
        ((t.withDepthLimit d).parse text).1.error = some ⟨.depthLimitExceeded d, tok.offset⟩ ∧
        ((t.withDepthLimit d).parse text).1.tokens = before) := by
  have hbelow : ∀ tok ∈ ((t.withDepthLimit d).parse text).1.tokens,
      tok.kind.isOpening → tok.depth < d :=
    Scan.scan_opening_depth_lt ⟨d, t.settings.allowsSeveral⟩ text
  rcases Scan.scan_higher hd t.settings.allowsSeveral text with heq | ⟨c, offset, after, ht, he⟩
  · have htokens : ((t.withDepthLimit d).parse text).1.tokens =
        ((t.withDepthLimit d').parse text).1.tokens := congrArg Scan.Outcome.tokens heq
    have herror : ((t.withDepthLimit d).parse text).1.error =
        ((t.withDepthLimit d').parse text).1.error := congrArg Scan.Outcome.error heq
    constructor
    · intro _
      exact ⟨htokens, herror⟩
    · rintro ⟨tok, htok, hk, hge⟩
      have hlt := hbelow tok (htokens ▸ htok) hk
      omega
  · have hdepth : min d maxReportedDepth = d := by
      unfold maxReportedDepth
      omega
    have htokens : ((t.withDepthLimit d').parse text).1.tokens =
        ((t.withDepthLimit d).parse text).1.tokens ++ ⟨.opening c, d, offset, 1⟩ :: after := by
      rw [hdepth] at ht
      exact ht
    constructor
    · intro hnone
      have hmem : (⟨.opening c, d, offset, 1⟩ : Token) ∈
          ((t.withDepthLimit d').parse text).1.tokens := by
        rw [htokens]
        simp
      exact absurd (hnone _ hmem rfl) (Nat.lt_irrefl d)
    · intro _
      exact ⟨_, _, after, htokens, rfl, rfl, hbelow, he, rfl⟩

/-- The text `[[1]` with room for one container and for two. -/
theorem Tokenizer.depth_limit_cuts_array :
    1 < 2 ∧ 1 < 2 ^ 32 ∧
      ((({} : Tokenizer).withDepthLimit 2).parse [0x5B, 0x5B, 0x31, 0x5D]).1.tokens =
        [⟨.opening .array, 0, 0, 1⟩, ⟨.opening .array, 1, 1, 1⟩, ⟨.number, 2, 2, 1⟩,
          ⟨.closing .array, 1, 3, 1⟩] ∧
      ∃ before tok after,
        ((({} : Tokenizer).withDepthLimit 2).parse [0x5B, 0x5B, 0x31, 0x5D]).1.tokens =
          before ++ tok :: after ∧
        tok.kind.isOpening ∧ tok.depth = 1 ∧ (∀ u ∈ before, u.kind.isOpening → u.depth < 1) ∧
        ((({} : Tokenizer).withDepthLimit 1).parse [0x5B, 0x5B, 0x31, 0x5D]).1.error =
          some ⟨.depthLimitExceeded 1, tok.offset⟩ ∧
        ((({} : Tokenizer).withDepthLimit 1).parse [0x5B, 0x5B, 0x31, 0x5D]).1.tokens = before :=
  ⟨by decide, by decide, by decide,
    (Tokenizer.depth_limit_cuts {} (by decide) (by decide) _).2
      ⟨⟨.opening .array, 1, 1, 1⟩, by decide, rfl, Nat.le_refl 1⟩⟩

end FlatJson
