import FlatJson.Proofs.Emission
import FlatJson.Proofs.Tokens
import FlatJson.Proofs.Viability
import Mathlib.Data.List.Chain

/-!
# Where the tokens of a scan stand

Whether a scan fails or not, its tokens stand inside the text in order, apart from each other and
with nothing but blanks between them, and an error is never found before the end of a token.

* `Token.InPlace` — the span and the extent of a token fit its kind and the text.
* `InOrder` — tokens in place, in order, up to some position.
* `Parsed.stop` — the end of the text, or the place of the error.
* `Tokenizer.exists_run` — the tokens stand for leaves that the automaton reads.

`inOrder_tokensAt` says this of pieces, and `Tokenizer.inOrder_parse` of what a tokenizer gives.
-/

namespace FlatJson

/-! ## Tokens in place -/

/-- The extent of a token is its span, with one quote on each side if it is a string. -/
structure Token.InPlace (text : Bytes) (t : Token) : Prop where
  offset_eq : t.offset = t.first + t.quotes
  stop_le : t.stop ≤ text.length
  nonempty : t.first < t.past
  past_le : t.past ≤ text.length
  extent_eq : slice text t.first t.past =
    if t.quotes = 0 then slice text t.offset t.stop else quoted (slice text t.offset t.stop)

/-- Tokens in place whose extents follow each other up to `stop`, and only blanks are between two
of them. -/
structure InOrder (text : Bytes) (tokens : List Token) (stop : Nat) : Prop where
  inPlace : ∀ t ∈ tokens, t.InPlace text
  past_le : ∀ t ∈ tokens, t.past ≤ stop
  disjoint : tokens.Pairwise fun t u => t.past ≤ u.first
  blank : tokens.IsChain fun t u => Blank (slice text t.past u.first)

variable {text : Bytes} {tokens : List Token} {start : Nat}

theorem slice_take {a b n : Nat} (h : b ≤ n) : slice (text.take n) a b = slice text a b := by
  unfold slice
  rw [List.drop_take, List.take_take, Nat.min_eq_left (Nat.sub_le_sub_right h a)]

/-- What covers a text covers no less of it than its tokens are many. -/
theorem Covered.add_length_le (h : Covered text start tokens) (hs : start ≤ text.length) :
    start + tokens.length ≤ text.length := by
  induction tokens generalizing start with
  | nil => exact hs
  | cons t ts ih =>
    obtain ⟨hfirst, hne, hpast, -, hrest⟩ := h
    have hle := ih hrest hpast
    rw [List.length_cons]
    omega

theorem Covered.bounds (h : Covered text start tokens) :
    ∀ t ∈ tokens, start ≤ t.first ∧ t.first < t.past ∧ t.past ≤ text.length := by
  induction tokens generalizing start with
  | nil => exact nofun
  | cons t ts ih =>
    obtain ⟨hfirst, hne, hpast, -, hrest⟩ := h
    intro u hu
    rcases List.mem_cons.1 hu with rfl | hu
    · exact ⟨hfirst, hne, hpast⟩
    · obtain ⟨hfirst', hne', hpast'⟩ := ih hrest u hu
      exact ⟨by omega, hne', hpast'⟩

theorem Covered.disjoint (h : Covered text start tokens) :
    tokens.Pairwise fun t u => t.past ≤ u.first := by
  induction tokens generalizing start with
  | nil => exact .nil
  | cons t ts ih =>
    obtain ⟨-, -, -, -, hrest⟩ := h
    exact .cons (fun u hu => (hrest.bounds u hu).1) (ih hrest)

theorem Covered.blank (h : Covered text start tokens) :
    tokens.IsChain fun t u => Blank (slice text t.past u.first) := by
  induction tokens generalizing start with
  | nil => exact .nil
  | cons t ts ih =>
    obtain ⟨-, -, -, -, hrest⟩ := h
    cases ts with
    | nil => exact .singleton t
    | cons u us => exact .cons_cons hrest.2.2.2.1 (ih hrest)

/-! ## Tokens of pieces -/

theorem Piece.token_offset (p : Piece) (start : Nat) :
    (p.token start).offset = (p.token start).first + (p.token start).quotes := by
  rw [p.token_first, p.token_quotes]
  rfl

/-- The token of a piece is in place. -/
theorem Piece.Proper.inPlace {p : Piece} (hp : p.Proper) {pre post : Bytes}
    (h : text = pre ++ (p.text ++ post)) : (p.token pre.length).InPlace text := by
  have hshows : Shows ⟨[], text.toArray, .notLarge⟩ (p.token pre.length) p.leaf := hp.shows h
  have hlen : p.text.length = p.pad.length + p.leaf.spelling.length := List.length_append
  have hpos : 0 < p.leaf.spelling.length := List.length_pos_iff.2 hp.2.spelling_ne_nil
  have hpast : (p.token pre.length).past ≤ text.length := by
    rw [p.token_past, h, List.length_append, List.length_append]
    omega
  have hstop : (p.token pre.length).stop ≤ text.length :=
    Nat.le_trans (Nat.le_add_right _ _) hpast
  refine ⟨p.token_offset pre.length, hstop, ?_, hpast, ?_⟩
  · rw [p.token_first, p.token_past]
    omega
  · have hcontent : slice text (p.token pre.length).offset (p.token pre.length).stop =
        p.leaf.content := (Window.lexeme_eq _ _ hstop).symm.trans hshows.lexeme
    have hextent : slice text (p.token pre.length).first (p.token pre.length).past =
        p.leaf.spelling := hshows.extent
    rw [hcontent, hextent, p.token_quotes, Leaf.spelling]
    cases p.leaf.isQuoted <;> rfl

theorem inPlace_tokensAt {ps : List Piece} (hps : ∀ p ∈ ps, p.Proper) {pre post : Bytes}
    (h : text = pre ++ (spread ps ++ post)) : ∀ t ∈ tokensAt pre.length ps, t.InPlace text := by
  induction ps generalizing pre with
  | nil => exact nofun
  | cons p ps ih =>
    rw [spread_cons, List.append_assoc] at h
    have hrest : text = (pre ++ p.text) ++ (spread ps ++ post) := by
      rw [h, List.append_assoc]
    have htail := ih (fun q hq => hps q (List.mem_cons_of_mem _ hq)) hrest
    rw [List.length_append] at htail
    intro t ht
    rcases List.mem_cons.1 ht with rfl | ht
    · exact (hps p List.mem_cons_self).inPlace h
    · exact htail t ht

/-- Proper pieces at the start of a text have their tokens in order, up to where they end. -/
theorem inOrder_tokensAt {ps : List Piece} {rest : Bytes} (hps : ∀ p ∈ ps, p.Proper)
    (h : text = spread ps ++ rest) :
    InOrder text (tokensAt 0 ps) (spread ps).length ∧
      (tokensAt 0 ps).length ≤ (spread ps).length := by
  have hcov : Covered (spread ps) 0 (tokensAt 0 ps) :=
    covered_tokensAt ps [] (List.append_nil _).symm hps .nil
  have hplace : ∀ t ∈ tokensAt ([] : Bytes).length ps, t.InPlace text := inPlace_tokensAt hps h
  have htake : spread ps = text.take (spread ps).length := by rw [h, List.take_left]
  have hblank := hcov.blank
  rw [htake] at hblank
  refine ⟨⟨hplace, ?_, hcov.disjoint, ?_⟩, ?_⟩
  · exact fun t ht => (hcov.bounds t ht).2.2
  · -- Between two tokens the text is that of the pieces.
    refine hblank.imp_of_mem_imp fun t u _ hu hb => ?_
    obtain ⟨-, hne, hpast⟩ := hcov.bounds u hu
    rwa [slice_take (by omega)] at hb
  · have hle := hcov.add_length_le (Nat.zero_le _)
    omega

theorem InOrder.of_le {m n : Nat} (h : InOrder text tokens m) (hn : m ≤ n) :
    InOrder text tokens n :=
  ⟨h.inPlace, fun t ht => Nat.le_trans (h.past_le t ht) hn, h.disjoint, h.blank⟩

/-! ## What a tokenizer gives -/

/-- Where the work on a text stopped: at its end, or at the error. -/
def Parsed.stop (p : Parsed) (text : Bytes) : Nat :=
  match p.error with
  | none => text.length
  | some e => e.offset

/-- The tokens of a scan, whether the text was accepted or not, are read by the automaton. -/
theorem Tokenizer.exists_run (t : Tokenizer) (text : Bytes) : ∃ ls c,
    List.Forall₂ (Shows ((t.parse text).1.window text)) ((t.parse text).1.window text).tokens ls ∧
      Scan.Control.Run t.settings.limits {} ls c := by
  obtain ⟨ps, rest, c, htokens, hproper, hrun, htext⟩ := Scan.scan_tokens t.settings.limits text
  refine ⟨_, c, ?_, hrun⟩
  have hw : ((t.parse text).1.window text).text.toList = [] ++ (spread ps ++ rest) := htext
  have hshows := shows_tokensAt hproper hw
  rwa [show tokensAt ([] : Bytes).length ps = ((t.parse text).1.window text).tokens from
    htokens.symm] at hshows

/-- Each of the tokens stands for a leaf. -/
theorem Tokenizer.exists_shows (t : Tokenizer) {text : Bytes} {tok : Token}
    (h : tok ∈ (t.parse text).1.tokens) : ∃ l, Shows ((t.parse text).1.window text) tok l := by
  obtain ⟨ls, -, hshows, -⟩ := t.exists_run text
  obtain ⟨l, -, hl⟩ := exists_of_forall₂ hshows h
  exact ⟨l, hl⟩

/-- **The tokens of any text, complete or partial, stand in order up to the end of the text or to
the place of the error, and they are no more than bytes are before it.** -/
theorem Tokenizer.inOrder_parse (t : Tokenizer) (text : Bytes) :
    InOrder text (t.parse text).1.tokens ((t.parse text).1.stop text) ∧
      (t.parse text).1.tokens.length ≤ (t.parse text).1.stop text ∧
      (t.parse text).1.stop text ≤ text.length := by
  obtain ⟨ps, rest, -, htokens, hps, -, htext, herr⟩ := Scan.scan_pieces t.settings.limits text
  obtain ⟨hord, hlen⟩ := inOrder_tokensAt hps htext
  have hstop : (spread ps).length ≤ (t.parse text).1.stop text ∧
      (t.parse text).1.stop text ≤ text.length := by
    unfold Parsed.stop
    cases he : (t.parse text).1.error with
    | none =>
      refine ⟨?_, Nat.le_refl _⟩
      rw [htext, List.length_append]
      exact Nat.le_add_right _ _
    | some e => exact ⟨herr e he, (Scan.scan_error_located he).le_length⟩
  have htok : (t.parse text).1.tokens = tokensAt 0 ps := htokens
  rw [htok]
  exact ⟨hord.of_le hstop.1, Nat.le_trans hlen hstop.1, hstop.2⟩

end FlatJson
