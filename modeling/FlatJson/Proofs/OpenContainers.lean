import FlatJson.Proofs.ValueEnds
import Mathlib.Data.List.Infix

/-!
# Open containers

What is awaited and which containers are open are changed apart from each other, by each kind of
token in its own way.  Both can be told from the tokens emitted: brackets are matched there by
counting, and what is awaited goes with the innermost open container and the latest token.

* `Balanced`, `Roots` — brackets that all have their partners, and whole values in a row.
* `leftOpen` — the brackets that are not closed, the outermost first.
* `Awaiting.Fits` — what can be awaited in which container after which token.
* `Opened` — tokens that leave just these containers open.
* `Control.Fits` — the invariant of the automaton.
* `Passes`, `State.Consistent` — the states of the scanner, and what holds in all of them.

`Control.Fits.step` and `Control.Fits.run` carry the invariant, and `Tokenizer.open_containers` says
what it comes to for a tokenizer.
-/

namespace FlatJson

/-! ## Brackets without partners -/

/-- All brackets have their partners. -/
structure Balanced (ks : List TokenKind) : Prop where
  inside : Inside ks
  closings_eq : closings ks = openings ks

/-- Whole values in a row. -/
inductive Roots : List TokenKind → Prop
  | nil : Roots []
  | snoc {ks ms : List TokenKind} : Roots ks → OneValue ms → Roots (ks ++ ms)

instance (ks : List TokenKind) : Decidable (Inside ks) :=
  decidable_of_iff (∀ read ∈ ks.inits, closings read ≤ openings read)
    (forall_congr' fun read => by rw [List.mem_inits])

instance : DecidablePred StaysOpen
  | [] => .isFalse id
  | k :: ks => inferInstanceAs (Decidable (k.isOpening ∧ Inside ks))

/-- The brackets that are not closed, the outermost first. -/
def leftOpen : List TokenKind → List TokenKind
  | [] => []
  | k :: ks => if StaysOpen (k :: ks) then k :: leftOpen ks else leftOpen ks

variable {ks ms : List TokenKind} {k : TokenKind}

theorem inside_nil : Inside [] := by
  intro read hread
  rw [List.prefix_nil.1 hread]
  exact Nat.le_refl _

theorem Inside.concat (hks : Inside ks) (h : closings (ks ++ [k]) ≤ openings (ks ++ [k])) :
    Inside (ks ++ [k]) := by
  intro read hread
  rcases List.prefix_concat_iff.1 hread with rfl | hread
  · exact h
  · exact hks read hread

theorem Inside.append (hks : Inside ks) (hms : Inside ms) : Inside (ks ++ ms) := by
  rintro read ⟨later, h⟩
  rcases List.append_eq_append_iff.1 h with ⟨rest, rfl, -⟩ | ⟨rest, rfl, hrest⟩
  · exact hks read (List.prefix_append read rest)
  · rw [openings_append, closings_append]
    exact Nat.add_le_add (hks ks (List.prefix_refl ks)) (hms rest ⟨later, hrest.symm⟩)

theorem Inside.of_append (h : Inside (ks ++ ms)) : Inside ks :=
  fun read hread => h read (hread.trans (List.prefix_append ks ms))

theorem inside_opening (c : Container) (hms : Inside ms) : Inside (.opening c :: ms) :=
  Inside.append (Inside.concat (k := .opening c) inside_nil (Nat.zero_le _)) hms

/-! ## Balanced brackets -/

theorem balanced_nil : Balanced [] := ⟨inside_nil, rfl⟩

theorem Balanced.append (hks : Balanced ks) (hms : Balanced ms) : Balanced (ks ++ ms) := by
  refine ⟨hks.inside.append hms.inside, ?_⟩
  rw [openings_append, closings_append, hks.closings_eq, hms.closings_eq]

/-- What is no bracket needs no partner. -/
theorem balanced_mark (hopen : ¬ k.isOpening) (hclose : ¬ k.isClosing) : Balanced [k] := by
  have hcount : closings [k] = openings [k] := by simp [closings, openings, hopen, hclose]
  exact ⟨Inside.concat inside_nil (Nat.le_of_eq hcount), hcount⟩

theorem OneValue.balanced (h : OneValue ks) : Balanced ks := by
  cases h with
  | scalar hk =>
    exact balanced_mark (TokenKind.not_isOpening_of_isScalar hk)
      (TokenKind.not_isClosing_of_isScalar hk)
  | @container c ks hin hcount =>
    have hcount' : closings (.opening c :: (ks ++ [.closing c])) =
        openings (.opening c :: (ks ++ [.closing c])) := by
      rw [openings_enclosed, closings_enclosed, hcount]
    exact ⟨(inside_opening c hin).concat (Nat.le_of_eq hcount'), hcount'⟩

theorem Roots.balanced (h : Roots ks) : Balanced ks := by
  induction h with
  | nil => exact balanced_nil
  | snoc _ hms ih => exact ih.append hms.balanced

/-! ## What is not closed -/

/-- What follows an opening bracket stays inside if it closes no more than it opens. -/
theorem staysOpen_append (hms : Inside ms) :
    StaysOpen (k :: (ks ++ ms)) ↔ StaysOpen (k :: ks) :=
  and_congr_right fun _ => ⟨Inside.of_append, fun hks => hks.append hms⟩

theorem leftOpen_append (ks : List TokenKind) (hms : Inside ms) :
    leftOpen (ks ++ ms) = leftOpen ks ++ leftOpen ms := by
  induction ks with
  | nil => rfl
  | cons k ks ih =>
    rw [List.cons_append, leftOpen, leftOpen, if_congr (staysOpen_append hms) rfl rfl, ih]
    split <;> rfl

theorem StaysOpen.closings_lt (h : StaysOpen ks) : closings ks < openings ks := by
  cases ks with
  | nil => cases h
  | cons k ks =>
    obtain ⟨hk, hks⟩ := h
    have hle := hks ks (List.prefix_refl ks)
    have hclose : ¬ k.isClosing := by
      cases k <;> simp_all [TokenKind.isOpening, TokenKind.isClosing]
    rw [closings, openings, List.countP_cons_of_neg hclose, List.countP_cons_of_pos hk]
    exact Nat.lt_succ_of_le hle

theorem StaysOpen.inside (h : StaysOpen ks) : Inside ks := by
  cases ks with
  | nil => cases h
  | cons k ks =>
    obtain ⟨hk, hks⟩ := h
    cases k with
    | opening c => exact inside_opening c hks
    | _ => cases hk

/-- No bracket is left open where from no place on more brackets open than close. -/
theorem leftOpen_eq_nil (h : ∀ later, later <:+ ks → openings later ≤ closings later) :
    leftOpen ks = [] := by
  induction ks with
  | nil => rfl
  | cons k ks ih =>
    have hclosed : ¬ StaysOpen (k :: ks) :=
      fun hopen => Nat.not_le_of_lt hopen.closings_lt (h _ (List.suffix_refl _))
    rw [leftOpen, if_neg hclosed]
    exact ih fun later hlater => h later (hlater.trans (List.suffix_cons k ks))

theorem Balanced.leftOpen_eq (h : Balanced ks) : leftOpen ks = [] := by
  refine leftOpen_eq_nil fun later => ?_
  rintro ⟨before, rfl⟩
  have hle := h.inside before (List.prefix_append before later)
  have heq := h.closings_eq
  rw [openings_append, closings_append] at heq
  omega

/-- Before a balanced part, a bracket is the innermost open one. -/
theorem leftOpen_opening (c : Container) (h : Balanced ms) :
    leftOpen (.opening c :: ms) = [.opening c] := by
  have hopen : StaysOpen (.opening c :: ms) := ⟨rfl, h.inside⟩
  rw [leftOpen, if_pos hopen, h.leftOpen_eq]

/-! ## The stack -/

/-- Tokens that leave these containers open, the innermost first. -/
inductive Opened : List TokenKind → List Container → Prop
  | roots {ks : List TokenKind} : Roots ks → Opened ks []
  | inside {ks ms : List TokenKind} {stack : List Container} (c : Container) :
      Opened ks stack → Balanced ms → Opened (ks ++ .opening c :: ms) (c :: stack)

namespace Opened

variable {stack : List Container} {c : Container}

/-- Within a container, balanced tokens change nothing. -/
theorem append (h : Opened ks (c :: stack)) (hms : Balanced ms) :
    Opened (ks ++ ms) (c :: stack) := by
  cases h with
  | @inside ks between _ _ hks hbetween =>
    rw [List.append_assoc, List.cons_append]
    exact hks.inside c (hbetween.append hms)

/-- A value leaves all containers open that were. -/
theorem value (h : Opened ks stack) (hms : OneValue ms) : Opened (ks ++ ms) stack := by
  cases stack with
  | nil =>
    cases h with
    | roots hks => exact .roots (hks.snoc hms)
  | cons c stack => exact h.append hms.balanced

theorem opening (h : Opened ks stack) (c : Container) :
    Opened (ks ++ [.opening c]) (c :: stack) :=
  h.inside c balanced_nil

/-- A bracket closes the innermost container, which is a value then. -/
theorem closing (h : Opened ks (c :: stack)) : Opened (ks ++ [.closing c]) stack := by
  cases h with
  | @inside ks ms _ _ hks hms =>
    rw [List.append_assoc, List.cons_append]
    exact hks.value (.container c hms.inside hms.closings_eq)

/-- **The open containers are those whose brackets are not closed.** -/
theorem leftOpen_eq (h : Opened ks stack) : leftOpen ks = stack.reverse.map .opening := by
  induction h with
  | roots hks => exact hks.balanced.leftOpen_eq
  | @inside ks ms stack c _ hms ih =>
    rw [leftOpen_append ks (inside_opening c hms.inside), ih, leftOpen_opening c hms,
      List.reverse_cons, List.map_append]
    rfl

example : leftOpen [.opening .array, .opening .object, .closing .object, .comma, .opening .object,
    .key] = [.opening .array, .opening .object] := by decide

theorem openings_eq (h : Opened ks stack) : openings ks = closings ks + stack.length := by
  induction h with
  | roots hks => exact hks.balanced.closings_eq.symm
  | @inside ks ms stack c _ hms ih =>
    have hopen : openings (.opening c :: ms) = openings ms + 1 := List.countP_cons_of_pos rfl
    have hclose : closings (.opening c :: ms) = closings ms :=
      List.countP_cons_of_neg Bool.false_ne_true
    have heq := hms.closings_eq
    rw [openings_append, closings_append, hopen, hclose, ih, List.length_cons]
    omega

/-- Before the outermost open bracket there are whole values. -/
theorem exists_roots (h : Opened ks stack) :
    ∃ roots since, ks = roots ++ since ∧ Roots roots ∧ (since = [] ∨ StaysOpen since) := by
  induction h with
  | @roots ks hks => exact ⟨ks, [], (List.append_nil ks).symm, hks, .inl rfl⟩
  | @inside ks ms stack c _ hms ih =>
    obtain ⟨roots, since, rfl, hroots, hsince⟩ := ih
    refine ⟨roots, since ++ .opening c :: ms, List.append_assoc _ _ _, hroots, .inr ?_⟩
    rcases hsince with rfl | hsince
    · exact ⟨rfl, hms.inside⟩
    · cases since with
      | nil => cases hsince
      | cons k since => exact (staysOpen_append (inside_opening c hms.inside)).2 hsince

/-- **Since the last whole value at the root, the brackets not closed are the open containers.** -/
theorem exists_since (h : Opened ks stack) : ∃ roots since, ks = roots ++ since ∧ Roots roots ∧
    (since = [] ∨ StaysOpen since) ∧ stack.reverse.map .opening = leftOpen since := by
  obtain ⟨roots, since, rfl, hroots, hsince⟩ := h.exists_roots
  refine ⟨roots, since, rfl, hroots, hsince, ?_⟩
  have hin : Inside since := by
    rcases hsince with rfl | hopen
    · exact inside_nil
    · exact hopen.inside
  rw [← h.leftOpen_eq, leftOpen_append roots hin, hroots.balanced.leftOpen_eq, List.nil_append]

end Opened

namespace Scan

/-! ## What is awaited -/

/-- What can be awaited in the innermost of some open containers, after the latest token. -/
inductive Awaiting.Fits : Awaiting → List Container → Option TokenKind → Prop
  | document : Awaiting.Fits .document [] none
  | ending {k : TokenKind} : k.isScalar ∨ k.isClosing → Awaiting.Fits .ending [] (some k)
  | itemOrClose {outer : List Container} :
      Awaiting.Fits .itemOrClose (.array :: outer) (some (.opening .array))
  | keyOrClose {outer : List Container} :
      Awaiting.Fits .keyOrClose (.object :: outer) (some (.opening .object))
  | key {outer : List Container} : Awaiting.Fits .key (.object :: outer) (some .comma)
  | colon {outer : List Container} : Awaiting.Fits .colon (.object :: outer) (some .key)
  | item {outer : List Container} : Awaiting.Fits .value (.array :: outer) (some .comma)
  | member {outer : List Container} : Awaiting.Fits .value (.object :: outer) (some .colon)
  | commaOrClose {c : Container} {outer : List Container} {k : TokenKind} :
      k.isScalar ∨ k.isClosing → Awaiting.Fits .commaOrClose (c :: outer) (some k)

variable {limits : Limits} {c c' : Control} {ks : List TokenKind} {k : TokenKind} {l : Leaf}
  {ls : List Leaf} {stack : List Container} {a : Awaiting} {last : Option TokenKind}

theorem Awaiting.Fits.of_admitsKey (h : a.Fits stack last) (ha : a.admitsKey) :
    ∃ outer, stack = .object :: outer := by
  cases h with
  | keyOrClose | key => exact ⟨_, rfl⟩
  | _ => cases ha

theorem Awaiting.Fits.of_colon (h : Awaiting.colon.Fits stack last) :
    ∃ outer, stack = .object :: outer := by
  cases h with
  | colon => exact ⟨_, rfl⟩

theorem Awaiting.Fits.of_commaOrClose (h : Awaiting.commaOrClose.Fits stack last) :
    ∃ c outer, stack = c :: outer := by
  cases h with
  | commaOrClose => exact ⟨_, _, rfl⟩

/-- The first value is awaited before all tokens, and never after one. -/
theorem Awaiting.Fits.document_iff (h : a.Fits stack last) : a = .document ↔ last = none := by
  cases h <;> simp

/-- After the last token of a value, what is awaited depends only on whether a container is open. -/
theorem Control.fits_endValue (c : Control) (hk : k.isScalar ∨ k.isClosing) :
    c.endValue.awaiting.Fits c.stack (some k) := by
  obtain ⟨a, stack⟩ := c
  cases stack with
  | nil => exact .ending hk
  | cons => exact .commaOrClose hk

/-- What the tokens read so far say about the automaton. -/
structure Control.Fits (limits : Limits) (ks : List TokenKind) (c : Control) : Prop where
  opened : Opened ks c.stack
  awaiting : c.awaiting.Fits c.stack ks.getLast?
  depth_le : c.stack.length ≤ limits.maxDepth

theorem Control.fits_initial (limits : Limits) : Control.Fits limits [] {} :=
  ⟨.roots .nil, .document, Nat.zero_le _⟩

/-- One token. -/
theorem Control.Fits.step (h : Control.Fits limits ks c) (hs : Control.Step limits c l c') :
    Control.Fits limits (ks ++ [l.kind]) c' := by
  obtain ⟨hopened, hawaiting, hdepth⟩ := h
  cases hs with
  | opening k ha hd =>
    refine ⟨hopened.opening k, ?_, hd⟩
    rw [List.getLast?_concat]
    cases k with
    | object => exact .keyOrClose
    | array => exact .itemOrClose
  | @closing a stack k ha =>
    -- The container is one value now, wherever it stands.
    refine ⟨hopened.closing, ?_, Nat.le_of_succ_le hdepth⟩
    rw [List.getLast?_concat]
    exact Control.fits_endValue ⟨a, stack⟩ (.inr rfl)
  | comma =>
    -- Without an open container no comma is awaited, so the array is never a default.
    obtain ⟨k, outer, rfl⟩ := hawaiting.of_commaOrClose
    refine ⟨hopened.append (balanced_mark Bool.false_ne_true Bool.false_ne_true), ?_, hdepth⟩
    rw [List.getLast?_concat]
    cases k with
    | object => exact .key
    | array => exact .item
  | colon =>
    obtain ⟨outer, rfl⟩ := hawaiting.of_colon
    refine ⟨hopened.append (balanced_mark Bool.false_ne_true Bool.false_ne_true), ?_, hdepth⟩
    rw [List.getLast?_concat]
    exact .member
  | key name ha =>
    obtain ⟨outer, hstack⟩ := hawaiting.of_admitsKey ha
    rw [hstack] at hopened hdepth ⊢
    refine ⟨hopened.append (balanced_mark Bool.false_ne_true Bool.false_ne_true), ?_, hdepth⟩
    rw [List.getLast?_concat]
    exact .colon
  | scalar content hk ha =>
    refine ⟨hopened.value (.scalar hk), ?_, hdepth⟩
    rw [List.getLast?_concat]
    exact c.fits_endValue (.inl hk)

/-- **The tokens read so far tell which containers are open, and what can be awaited.** -/
theorem Control.Fits.run (h : Control.Fits limits ks c) (hr : Control.Run limits c ls c') :
    Control.Fits limits (ks ++ ls.map Leaf.kind) c' := by
  induction hr generalizing ks with
  | nil =>
    rw [List.map_nil, List.append_nil]
    exact h
  | cons hs _ ih =>
    have hlast := ih (h.step hs)
    rwa [List.append_assoc, List.singleton_append, ← List.map_cons] at hlast

/-! ## The scanner -/

/-- The scanner gets to a state on its way through a text, also by settling a number there. -/
def Passes (limits : Limits) (text : Bytes) (s : State) : Prop :=
  ∃ read rest s₀, text = read ++ rest ∧ Reads limits {} read s₀ ∧
    (s = s₀ ∨ s = s₀.settle rest.head?)

/-- The kinds of the tokens emitted, in order. -/
def State.kinds (s : State) : List TokenKind := s.emitted.reverse.map Token.kind

/-- What the tokens emitted say about a state. -/
structure State.Consistent (limits : Limits) (s : State) : Prop where
  /-- The stack holds the brackets not closed since the last whole value at the root. -/
  stack_eq : ∃ roots since, s.kinds = roots ++ since ∧ Roots roots ∧
    (since = [] ∨ StaysOpen since) ∧ s.stack.reverse.map .opening = leftOpen since
  awaiting : s.awaiting.Fits s.stack s.kinds.getLast?
  document_iff : s.awaiting = .document ↔ s.emitted = []
  depth_le : s.stack.length ≤ limits.maxDepth

variable {text rest tail : Bytes} {s : State} {ps : List Piece}

theorem kinds_tokensAt (start : Nat) (ps : List Piece) :
    (tokensAt start ps).map Token.kind = (ps.map Piece.leaf).map Leaf.kind := by
  induction ps generalizing start with
  | nil => rfl
  | cons p ps ih =>
    rw [tokensAt, List.map_cons, List.map_cons, List.map_cons, ih]
    rfl

theorem Reading.fits (h : Reading limits ps tail rest s) :
    Control.Fits limits s.kinds s.control := by
  have hfits := (Control.fits_initial limits).run h.run
  rwa [List.nil_append, ← kinds_tokensAt 0, ← h.emitted] at hfits

theorem Passes.fits (h : Passes limits text s) : Control.Fits limits s.kinds s.control := by
  obtain ⟨read, rest, s₀, rfl, hreads, hs⟩ := h
  obtain ⟨ps, tail, hread, -⟩ := hreads.reading (Reading.initial limits (read ++ rest))
  rcases hs with rfl | rfl
  · exact hread.fits
  · obtain ⟨ps', tail', hsettled, -⟩ := hread.settle
    exact hsettled.fits

/-- **In every state of the scanner, the stack and what is awaited fit the tokens emitted.** -/
theorem Passes.consistent (h : Passes limits text s) : s.Consistent limits := by
  obtain ⟨hopened, hawaiting, hdepth⟩ := h.fits
  refine ⟨hopened.exists_since, hawaiting, ?_, hdepth⟩
  have hkinds : s.kinds.getLast? = none ↔ s.emitted = [] := by
    rw [List.getLast?_eq_none_iff, State.kinds, List.map_eq_nil_iff, List.reverse_eq_nil_iff]
  exact hawaiting.document_iff.trans hkinds

/-- A bracket is missing at the end only if a container is open, which it would close. -/
theorem State.of_unclosedBracket {expected : Char} {depth offset : Nat}
    (h : s.finish = some ⟨.unclosedBracket expected depth, offset⟩) :
    ∃ c outer, s.stack = c :: outer ∧ expected = byteChar c.closer ∧ depth = s.stack.length := by
  unfold State.finish at h
  split at h
  · split at h
    · cases h
    · next c outer hstack _ =>
      cases h
      exact ⟨c, outer, hstack, rfl, rfl⟩
    · cases h
  · cases h
  · cases h
  · split at h <;> cases h
  · cases h

/-- **Where a bracket is missing at the end, it is the one that closes the innermost open container,
and so many are missing as have been opened and not closed.** -/
theorem Passes.of_unclosedBracket {expected : Char} {depth offset : Nat} (hs : Passes limits text s)
    (h : s.finish = some ⟨.unclosedBracket expected depth, offset⟩) :
    openings s.kinds = closings s.kinds + depth ∧
      ∃ c, (leftOpen s.kinds).getLast? = some (.opening c) ∧ expected = byteChar c.closer := by
  have hopened : Opened s.kinds s.stack := hs.fits.opened
  obtain ⟨c, outer, hstack, rfl, rfl⟩ := State.of_unclosedBracket h
  refine ⟨hopened.openings_eq, c, ?_, rfl⟩
  rw [hopened.leftOpen_eq, hstack, List.reverse_cons, List.map_append]
  exact List.getLast?_concat

/-- A scan stops in one of these states, and a bracket can be missing only in the last of them. -/
theorem exists_passes (limits : Limits) (text : Bytes) : ∃ s error, Passes limits text s ∧
    scan limits text = s.outcome error ∧ ∀ expected depth offset,
      error = some ⟨.unclosedBracket expected depth, offset⟩ →
        s.finish = some ⟨.unclosedBracket expected depth, offset⟩ := by
  unfold scan
  rcases scanFrom_stops limits {} text with ⟨s, hr, he⟩ | ⟨t, b, rest, s, r, rfl, hr, hb, he⟩
  · exact ⟨_, _, ⟨text, [], s, (List.append_nil text).symm, hr, .inr rfl⟩, he, fun _ _ _ => id⟩
  · refine ⟨_, _, ⟨t, b :: rest, s, rfl, hr, .inr rfl⟩, he, fun _ _ _ herror => ?_⟩
    cases State.refuses_of_read hb <;> cases herror

end Scan

/-- **In every state of the scanner the open containers are the brackets not closed since the last
whole value at the root, no more than are allowed, and what is awaited fits the innermost one and
the latest token.**  Where the closing bracket is missing at the end, the depth reported is by how
many brackets more have opened than closed, and the bracket expected is that of the innermost one
not closed.  The scan starts once its room is reserved. -/
theorem Tokenizer.open_containers (t : Tokenizer) (text : Bytes) :
    (∀ s, Scan.Passes t.settings.limits text s → s.Consistent t.settings.limits) ∧
    (∃ s, Scan.Passes t.settings.limits text s ∧ (t.parse text).1.tokens = s.emitted.reverse ∧
      (t.parse text).2.1.unclosed = s.stack.reverse) ∧
    ∀ expected depth offset,
      (t.parse text).1.error = some ⟨.unclosedBracket expected depth, offset⟩ →
        openings ((t.parse text).1.tokens.map Token.kind) =
          closings ((t.parse text).1.tokens.map Token.kind) + depth ∧
        ∃ c, (leftOpen ((t.parse text).1.tokens.map Token.kind)).getLast? = some (.opening c) ∧
          expected = byteChar c.closer := by
  obtain ⟨s, error, hs, hscan, hmissing⟩ := Scan.exists_passes t.settings.limits text
  have htokens : (t.parse text).1.tokens = s.emitted.reverse := by
    rw [t.parse_fst, hscan]
    rfl
  have hunclosed : (t.parse text).2.1.unclosed = s.stack.reverse := by
    have hparse : (t.parse text).2.1.unclosed = (Scan.scan t.settings.limits text).unclosed := rfl
    rw [hparse, hscan]
    rfl
  refine ⟨fun _ => Scan.Passes.consistent, ⟨s, hs, htokens, hunclosed⟩, ?_⟩
  intro expected depth offset herror
  rw [t.parse_fst, hscan] at herror
  rw [htokens]
  exact hs.of_unclosedBracket (hmissing _ _ _ herror)

/-- The text `[{"a":`, in which the object is the innermost of two open containers. -/
theorem Tokenizer.open_containers_two :
    (({} : Tokenizer).parse [0x5B, 0x7B, 0x22, 0x61, 0x22, 0x3A]).1.error =
      some ⟨.unclosedBracket '}' 2, 6⟩ ∧
    (∃ c, (leftOpen ((({} : Tokenizer).parse [0x5B, 0x7B, 0x22, 0x61, 0x22, 0x3A]).1.tokens.map
      Token.kind)).getLast? = some (.opening c) ∧ '}' = byteChar c.closer) ∧
    ∃ s, Scan.State.Consistent ({} : Tokenizer).settings.limits s ∧
      s.stack.reverse = [.array, .object] := by
  obtain ⟨hall, ⟨s, hs, -, hunclosed⟩, hmissing⟩ :=
    Tokenizer.open_containers {} [0x5B, 0x7B, 0x22, 0x61, 0x22, 0x3A]
  refine ⟨by decide, (hmissing '}' 2 6 (by decide)).2, s, hall s hs, ?_⟩
  rw [← hunclosed]
  decide

end FlatJson
