import FlatJson.Proofs.Cutting
import Mathlib.Algebra.Group.Nat.Defs

/-!
# Where values end

A value is cut off at the first closing bracket that reports the depth of its opening one.  Neither
the kind of that bracket nor the brackets between the two are looked at.  In the tokens of a scan,
and in any run of them, it is the matching bracket all the same: brackets are counted here, and the
stack of the automaton keeps count.

* `OneValue`, `StaysOpen` — one value, and a container that is not closed, by counting brackets.
* `OneValue.unique` — at most one value starts in a place.
* `Scan.Control.Run.balance` — the open containers are the brackets opened and not closed.
* `Value.oneValue` — the leaves of a value are one value in this sense.
* `Window.Spans`, `Window.Holds` — a value from one index up to another, by brackets and as a tree.
* `Tokenizer.valueEnd_exact` — the ends that are found, in every window of every text.
-/

namespace FlatJson

open Scan (Limits Control)

/-! ## Matching brackets -/

/-- How many brackets open. -/
def openings (ks : List TokenKind) : Nat := ks.countP TokenKind.isOpening

/-- How many brackets close. -/
def closings (ks : List TokenKind) : Nat := ks.countP TokenKind.isClosing

/-- What may follow an opening bracket without closing it: nowhere have more brackets closed than
opened. -/
def Inside (ks : List TokenKind) : Prop := ∀ read, read <+: ks → closings read ≤ openings read

/-- One value: a scalar, or an opening bracket up to the one that matches it. -/
inductive OneValue : List TokenKind → Prop
  | scalar {k : TokenKind} : k.isScalar → OneValue [k]
  | container (c : Container) {ks : List TokenKind} :
      Inside ks → closings ks = openings ks → OneValue (.opening c :: (ks ++ [.closing c]))

/-- A container that is not closed. -/
def StaysOpen : List TokenKind → Prop
  | [] => False
  | k :: ks => k.isOpening ∧ Inside ks

theorem openings_append (ks ms : List TokenKind) :
    openings (ks ++ ms) = openings ks + openings ms := List.countP_append

theorem closings_append (ks ms : List TokenKind) :
    closings (ks ++ ms) = closings ks + closings ms := List.countP_append

theorem openings_enclosed (c : Container) (ks : List TokenKind) :
    openings (.opening c :: (ks ++ [.closing c])) = openings ks + 1 := by
  rw [← List.singleton_append, openings_append, openings_append, Nat.add_comm]
  rfl

theorem closings_enclosed (c : Container) (ks : List TokenKind) :
    closings (.opening c :: (ks ++ [.closing c])) = closings ks + 1 := by
  rw [← List.singleton_append, closings_append, closings_append, Nat.add_comm]
  rfl

variable {ks ms rest rest' : List TokenKind}

/-- After as many closing brackets as opening ones, one more closes the container. -/
theorem not_inside (c : Container) (h : closings ks = openings ks) (rest : List TokenKind) :
    ¬ Inside (ks ++ .closing c :: rest) := by
  intro hin
  have hle := hin (ks ++ [.closing c]) ⟨rest, by simp⟩
  rw [closings_append, openings_append, h] at hle
  have hclose : closings [.closing c] = 1 := rfl
  have hopen : openings [.closing c] = 0 := rfl
  omega

/-- **At most one value starts in a place**, whatever comes after it. -/
theorem OneValue.unique (h : OneValue ks) (h' : OneValue ms) (he : ks ++ rest = ms ++ rest') :
    ks = ms := by
  cases h with
  | @scalar k hk =>
    cases h' with
    | scalar => rw [(List.cons.inj he).1]
    | container c =>
      rw [(List.cons.inj he).1] at hk
      cases hk
  | @container c ks hin hcount =>
    cases h' with
    | @scalar k hk =>
      rw [← (List.cons.inj he).1] at hk
      cases hk
    | @container c' ms hin' hcount' =>
      obtain ⟨hfirst, he⟩ := List.cons.inj he
      obtain rfl : c = c' := TokenKind.opening.inj hfirst
      have he : ks ++ .closing c :: rest = ms ++ .closing c :: rest' := by simpa using he
      -- If one of them were longer, the other would end in the middle of it.
      rcases List.append_eq_append_iff.1 he with ⟨z, rfl, hz⟩ | ⟨z, rfl, hz⟩
      · cases z with
        | nil => rw [List.append_nil]
        | cons d z =>
          obtain ⟨rfl, -⟩ := List.cons.inj hz
          exact absurd hin' (not_inside c hcount z)
      · cases z with
        | nil => rw [List.append_nil]
        | cons d z =>
          obtain ⟨rfl, -⟩ := List.cons.inj hz
          exact absurd hin (not_inside c hcount' z)

/-- What starts with a value does not start with a container that is not closed. -/
theorem OneValue.not_staysOpen (h : OneValue ks) (rest : List TokenKind) :
    ¬ StaysOpen (ks ++ rest) := by
  rintro hopen
  cases h with
  | scalar hk => exact TokenKind.not_isOpening_of_isScalar hk hopen.1
  | container c hin hcount =>
    have hinside := hopen.2
    simp only [List.append_eq, List.append_assoc, List.singleton_append] at hinside
    exact not_inside c hcount rest hinside

theorem OneValue.exists_first (h : OneValue ks) : ∃ k ms, ks = k :: ms ∧ k.startsValue := by
  cases h with
  | @scalar k hk => exact ⟨k, [], rfl, by simp [TokenKind.startsValue, hk]⟩
  | container c hin hcount => exact ⟨_, _, rfl, rfl⟩

/-! ## Brackets and the stack -/

namespace Scan

variable {limits : Limits} {c c' : Control} {l : Leaf} {ls : List Leaf} {k : Container}
  {stack : List Container}

/-- A leaf that opens or closes a container is on the stack or comes off it. -/
theorem Control.Step.balance (h : Control.Step limits c l c') :
    c'.stack.length + closings [l.kind] = c.stack.length + openings [l.kind] := by
  cases h with
  | scalar content hk ha =>
    have hopen := TokenKind.not_isOpening_of_isScalar hk
    have hclose := TokenKind.not_isClosing_of_isScalar hk
    simp [openings, closings, hopen, hclose, Control.endValue]
  | _ => rfl

/-- **The open containers are as many as the brackets opened and not closed.** -/
theorem Control.Run.balance (h : Control.Run limits c ls c') :
    c'.stack.length + closings (ls.map Leaf.kind) =
      c.stack.length + openings (ls.map Leaf.kind) := by
  induction h with
  | nil => rfl
  | @cons c c₁ c₂ l ls hs _ ih =>
    have hstep := hs.balance
    have hclose := closings_append [l.kind] (ls.map Leaf.kind)
    have hopen := openings_append [l.kind] (ls.map Leaf.kind)
    rw [List.singleton_append] at hclose hopen
    rw [List.map_cons, hclose, hopen]
    omega

/-- As long as no bracket closes at the depth of a container, the container stays open. -/
theorem Control.Run.isInside (h : Control.Run limits ⟨.inside k, k :: stack⟩ ls c)
    (hl : ∀ l ∈ ls, l.kind.isClosing → l.depth ≠ stack.length) : Inside (ls.map Leaf.kind) := by
  rintro read ⟨later, hread⟩
  obtain ⟨ls₁, ls₂, rfl, rfl, -⟩ := List.map_eq_append_iff.1 hread.symm
  obtain ⟨c₁, h₁, -⟩ := h.of_append
  have hbase : Control.stack ⟨.inside k, k :: stack⟩ = [k] ++ stack := rfl
  obtain ⟨-, up, hup, hstack⟩ := h₁.inside hbase (List.cons_ne_nil k [])
    fun m hm => hl m (List.mem_append_left _ hm)
  have hbalance := h₁.balance
  have hpos := List.length_pos_iff.2 hup
  rw [hstack, hbase, List.length_append, List.length_append, List.length_singleton] at hbalance
  omega

end Scan

/-- The leaves of a container are one value. -/
theorem Value.oneValue_container {v : Value} {depth : Nat} {k : Container} {ls : List Leaf}
    (hv : v.leaves depth = .opening k depth :: (ls ++ [.closing k depth]))
    (hl : ∀ l ∈ ls, depth < l.depth) : OneValue ((v.leaves depth).map Leaf.kind) := by
  have hlen : (List.replicate depth Container.array).length = depth := List.length_replicate
  have hrun := v.run_leaves depth
  generalize List.replicate depth Container.array = stack at hlen hrun
  subst hlen
  have hkinds : (v.leaves stack.length).map Leaf.kind =
      .opening k :: (ls.map Leaf.kind ++ [.closing k]) := by
    rw [hv, List.map_cons, List.map_append]
    rfl
  have hbalance := hrun.balance
  rw [hkinds] at hbalance ⊢
  rw [hv] at hrun
  cases hrun with
  | cons hopen hin =>
    cases hopen with
    | opening k' ha hd =>
      obtain ⟨c, hin, -⟩ := hin.of_append
      refine .container k (hin.isInside fun l hmem _ => Nat.ne_of_gt (hl l hmem)) ?_
      -- The stack is the same as before, and the two outer brackets make up for each other.
      rw [openings_enclosed, closings_enclosed] at hbalance
      simp only [Control.endValue] at hbalance
      omega
    | scalar content hk ha => cases hk

/-- **The leaves of a value are one value.** -/
theorem Value.oneValue (v : Value) (depth : Nat) : OneValue ((v.leaves depth).map Leaf.kind) := by
  cases v with
  | array items =>
    refine oneValue_container rfl fun l hl => ?_
    exact itemLeaves_le_depth l hl
  | object members =>
    refine oneValue_container rfl fun l hl => ?_
    exact memberLeaves_le_depth l hl
  | bool b => cases b <;> exact .scalar rfl
  | _ => exact .scalar rfl

/-! ## Tokens of a scan -/

section

variable {w : Window} {limits : Limits} {c : Control} {ts us value after : List Token}
  {ls : List Leaf} {depth : Nat} {v : Value}

theorem kinds_eq_of_shows (h : List.Forall₂ (Shows w) ts ls) :
    ts.map Token.kind = ls.map Leaf.kind := by
  induction h with
  | nil => rfl
  | cons hs _ ih => rw [List.map_cons, List.map_cons, hs.kind, ih]

theorem oneValue_of_shows (h : List.Forall₂ (Shows w) ts (v.leaves depth)) :
    OneValue (ts.map Token.kind) := by
  rw [kinds_eq_of_shows h]
  exact v.oneValue depth

theorem ReadFrom.of_append (h : ReadFrom w limits c (ts ++ us)) :
    ReadFrom w limits c ts ∧ ∃ c', ReadFrom w limits c' us := by
  obtain ⟨ls, c', hs, hr⟩ := h
  obtain ⟨ls₁, ls₂, rfl, hs₁, hs₂⟩ := forall₂_append_left hs
  obtain ⟨c₁, hr₁, hr₂⟩ := hr.of_append
  exact ⟨⟨ls₁, c₁, hs₁, hr₁⟩, c₁, ls₂, c', hs₂, hr₂⟩

theorem ReadFrom.drop (h : ReadFrom w limits c ts) (n : Nat) :
    ∃ c', ReadFrom w limits c' (ts.drop n) := by
  rw [← List.take_append_drop n ts] at h
  exact h.of_append.2

theorem ReadFrom.of_infix (h : ReadFrom w limits c ts) (hu : us <:+: ts) :
    ∃ c', ReadFrom w limits c' us := by
  obtain ⟨before, later, rfl⟩ := hu
  obtain ⟨c', hus⟩ := h.of_append.1.of_append.2
  exact ⟨c', hus⟩

theorem ReadFrom.onto (h : ReadFrom w limits c ts) (us : List Token) :
    ReadFrom (w.onto us) limits c ts := by
  obtain ⟨ls, c', hs, hr⟩ := h
  exact ⟨ls, c', hs.imp fun _ _ hshows => hshows.onto us, hr⟩

/-- A bracket that opens a container reports how many are open around it. -/
theorem ReadFrom.depth_of_opening {t : Token} {k : Container} (h : ReadFrom w limits c (t :: ts))
    (hmax : limits.maxDepth ≤ maxReportedDepth) (hk : t.kind = .opening k) :
    t.depth = c.stack.length := by
  obtain ⟨ls, c', hs, hr⟩ := h
  cases hs with
  | cons hl hs =>
    rw [hl.kind] at hk
    cases hr with
    | cons hstep hr =>
      cases hstep with
      | opening k' ha hd => exact hl.depth_of_lt (Nat.lt_of_lt_of_le hd hmax)
      | scalar content hsc ha =>
        obtain rfl : _ = TokenKind.opening k := hk
        cases hsc
      | _ => cases hk

/-- Tokens after an opening bracket, none of which reports that it closes at its depth, leave the
container open. -/
theorem ReadFrom.inside {k : Container} {stack : List Container}
    (h : ReadFrom w limits ⟨.inside k, k :: stack⟩ ts) (hd : stack.length < maxReportedDepth)
    (hclose : ∀ t ∈ ts, ¬ t.closesAt stack.length) : Inside (ts.map Token.kind) := by
  obtain ⟨ls, c', hs, hr⟩ := h
  rw [kinds_eq_of_shows hs]
  refine hr.isInside fun l hl hk hdepth => ?_
  obtain ⟨t, ht, hshows⟩ := exists_of_forall₂ hs.flip hl
  exact hclose t ht ((Shows.closesAt_iff hshows hd).2 ⟨hk, hdepth⟩)

theorem splitClosing_eq_none (h : splitClosing depth ts = none) :
    ∀ t ∈ ts, ¬ t.closesAt depth := by
  unfold splitClosing at h
  split at h
  · cases h
  · next hdrop =>
    intro t ht
    have hall := List.dropWhile_eq_nil_iff.1 hdrop t ht
    simpa using hall

/-- **Nothing is cut off only where no value starts, or where a container is not closed.** -/
theorem ReadFrom.splitValue_eq_none (h : ReadFrom w limits c ts)
    (hmax : limits.maxDepth ≤ maxReportedDepth) (hsplit : FlatJson.splitValue ts = none) :
    (∀ t ∈ ts.head?, ¬ t.kind.startsValue) ∨ StaysOpen (ts.map Token.kind) := by
  cases ts with
  | nil => exact .inl (by simp)
  | cons t ts =>
    rw [FlatJson.splitValue] at hsplit
    by_cases hscalar : t.kind.isScalar
    · rw [if_pos hscalar] at hsplit
      cases hsplit
    · rw [if_neg hscalar] at hsplit
      by_cases hopening : t.kind.isOpening
      · rw [if_pos hopening, Option.map_eq_none_iff] at hsplit
        obtain ⟨k, hk⟩ : ∃ k, t.kind = .opening k := by
          cases hkind : t.kind <;> simp_all [TokenKind.isOpening]
        obtain ⟨hlt, hopened⟩ := h.opened hk
        -- The bracket reports the number of containers around it.
        have hdepth : t.depth = c.stack.length := h.depth_of_opening hmax hk
        rw [hdepth] at hsplit
        have hin := hopened.inside (by omega) (splitClosing_eq_none hsplit)
        exact .inr ⟨hopening, hin⟩
      · exact .inl (by simp [TokenKind.startsValue, hscalar, hopening])

end

/-! ## Ends by index -/

namespace Window

/-- The tokens from one index up to another. -/
def between (w : Window) (start stop : Nat) : List Token :=
  (w.tokens.drop start).take (stop - start)

/-- From one index up to another there is one value, going by the brackets alone. -/
def Spans (w : Window) (start stop : Nat) : Prop :=
  stop ≤ w.length ∧ OneValue ((w.between start stop).map Token.kind)

/-- From one index up to another there are the tokens of this value. -/
def Holds (w : Window) (v : Value) (start stop : Nat) : Prop :=
  stop ≤ w.length ∧ ∃ depth, List.Forall₂ (Shows w) (w.between start stop) (v.leaves depth)

/-- The builder that started at one index, when it has come to another. -/
def decodedTo (w : Window) (start stop : Nat) : Except DecodeError Builder :=
  Builder.run w { index := start } (w.between start stop)

variable {w : Window} {limits : Limits} {c : Control} {start stop : Nat} {v : Value}

theorem length_between (h : stop ≤ w.length) : (w.between start stop).length = stop - start := by
  have hlen : w.tokens.length = w.length := rfl
  rw [between, List.length_take, List.length_drop]
  omega

theorem drop_eq_between (w : Window) (start stop : Nat) : w.tokens.drop start =
    w.between start stop ++ (w.tokens.drop start).drop (stop - start) :=
  (List.take_append_drop _ _).symm

/-- The end that is found is where the value is cut off. -/
theorem valueEnd_eq_some (h : w.valueEnd start = some stop) : stop ≤ w.length ∧
    ∃ after, splitValue (w.tokens.drop start) = some (w.between start stop, after) := by
  obtain ⟨⟨value, after⟩, hsplit, rfl⟩ := Option.map_eq_some_iff.1 h
  have hdrop := splitValue_append hsplit
  have hpos := List.length_pos_iff.2 (splitValue_ne_nil hsplit)
  have hbetween : w.between start (start + value.length) = value := by
    rw [between, hdrop, Nat.add_sub_cancel_left, List.take_left]
  constructor
  · have hlen := congrArg List.length hdrop
    rw [List.length_drop, List.length_append] at hlen
    show start + value.length ≤ w.tokens.length
    omega
  · rw [hbetween]
    exact ⟨after, hsplit⟩

theorem exists_holds_of_valueEnd (h : ReadFrom w limits c w.tokens)
    (hmax : limits.maxDepth ≤ maxReportedDepth) (hend : w.valueEnd start = some stop) :
    ∃ v, w.Holds v start stop := by
  obtain ⟨hstop, after, hsplit⟩ := valueEnd_eq_some hend
  obtain ⟨c', hc⟩ := h.drop start
  obtain ⟨⟨v, hv, -⟩, -⟩ := hc.splitValue hmax hsplit
  exact ⟨v, hstop, c'.stack.length, hv⟩

theorem Holds.spans (h : w.Holds v start stop) : w.Spans start stop := by
  obtain ⟨hstop, depth, hv⟩ := h
  exact ⟨hstop, oneValue_of_shows hv⟩

/-- A value that starts at an index has a first token there. -/
theorem Spans.exists_first (h : w.Spans start stop) :
    ∃ t ts, w.tokens.drop start = t :: ts ∧ t.kind.startsValue := by
  obtain ⟨k, ms, hkinds, hk⟩ := h.2.exists_first
  obtain ⟨t, ts, hbetween, rfl, -⟩ := List.map_eq_cons_iff.1 hkinds
  rw [drop_eq_between w start stop, hbetween]
  exact ⟨t, _, rfl, hk⟩

/-- **The end of a value is found**, whatever comes after it. -/
theorem valueEnd_of_spans (h : ReadFrom w limits c w.tokens)
    (hmax : limits.maxDepth ≤ maxReportedDepth) (hspans : w.Spans start stop) :
    w.valueEnd start = some stop := by
  obtain ⟨c', hc⟩ := h.drop start
  have hdrop := drop_eq_between w start stop
  cases hsplit : splitValue (w.tokens.drop start) with
  | none =>
    rcases hc.splitValue_eq_none hmax hsplit with hfirst | hopen
    · obtain ⟨t, ts, htokens, hstarts⟩ := hspans.exists_first
      rw [htokens] at hfirst
      exact absurd hstarts (hfirst t rfl)
    · rw [hdrop, List.map_append] at hopen
      exact absurd hopen (hspans.2.not_staysOpen _)
  | some cut =>
    obtain ⟨value, after⟩ := cut
    obtain ⟨⟨v, hv, -⟩, -⟩ := hc.splitValue hmax hsplit
    have hsame : value.map Token.kind ++ after.map Token.kind =
        (w.between start stop).map Token.kind ++
          ((w.tokens.drop start).drop (stop - start)).map Token.kind := by
      rw [← List.map_append, ← List.map_append, ← splitValue_append hsplit, ← hdrop]
    have hkinds := (oneValue_of_shows hv).unique hspans.2 hsame
    have hlen : value.length = stop - start := by
      rw [← length_between hspans.1]
      simpa using congrArg List.length hkinds
    have hpos := List.length_pos_iff.2 (splitValue_ne_nil hsplit)
    have hsum : start + value.length = stop := by omega
    rw [valueEnd, hsplit]
    exact congrArg some hsum

/-- **No end is found just where no value starts, or where its container is not closed.** -/
theorem valueEnd_eq_none_iff (h : ReadFrom w limits c w.tokens)
    (hmax : limits.maxDepth ≤ maxReportedDepth) : w.valueEnd start = none ↔
      w.length ≤ start ∨ (∃ t, w.tokens[start]? = some t ∧ ¬ t.kind.startsValue) ∨
        StaysOpen ((w.tokens.drop start).map Token.kind) := by
  have hhead : (w.tokens.drop start).head? = w.tokens[start]? := List.head?_drop
  constructor
  · intro hnone
    obtain ⟨c', hc⟩ := h.drop start
    rcases hc.splitValue_eq_none hmax (Option.map_eq_none_iff.1 hnone) with hfirst | hopen
    · rw [hhead] at hfirst
      cases htoken : w.tokens[start]? with
      | none => exact .inl (List.getElem?_eq_none_iff.1 htoken)
      | some t => exact .inr (.inl ⟨t, rfl, hfirst t htoken⟩)
    · exact .inr (.inr hopen)
  · intro hcases
    cases hend : w.valueEnd start with
    | none => rfl
    | some stop =>
      obtain ⟨v, hholds⟩ := exists_holds_of_valueEnd h hmax hend
      obtain ⟨t, ts, htokens, hstarts⟩ := hholds.spans.exists_first
      rw [htokens, List.head?_cons] at hhead
      rcases hcases with hle | ⟨u, hu, hnot⟩ | hopen
      · rw [List.getElem?_eq_none hle] at hhead
        cases hhead
      · obtain rfl : t = u := Option.some.inj (hhead.trans hu)
        exact absurd hstarts hnot
      · rw [drop_eq_between w start stop, List.map_append] at hopen
        exact absurd hopen (hholds.spans.2.not_staysOpen _)

/-! ## Where the builder stops -/

/-- The tokens up to an index before the end go on with another token. -/
theorem exists_between_append {index : Nat} (hle : start ≤ index) (hlt : index < stop)
    (hstop : stop ≤ w.length) :
    ∃ t later, w.between start stop = w.between start index ++ t :: later := by
  have hlen : (w.between start stop).length = stop - start := length_between hstop
  have htake := List.take_append_drop (index - start) (w.between start stop)
  rw [between, List.take_take, Nat.min_eq_left (by omega), ← between, ← between] at htake
  cases hrest : (w.between start stop).drop (index - start) with
  | nil =>
    have hshort := List.drop_eq_nil_iff.1 hrest
    omega
  | cons t later =>
    rw [hrest] at htake
    exact ⟨t, later, htake.symm⟩

/-- A builder that goes on has no value yet, as one that has its value takes no further token. -/
theorem decodedTo_before {b : Builder} {index : Nat} (h : w.decodedTo start stop = .ok b)
    (hle : start ≤ index) (hlt : index < stop) (hstop : stop ≤ w.length) :
    ∃ b', w.decodedTo start index = .ok b' ∧ b'.awaiting ≠ .ending := by
  obtain ⟨t, later, hparts⟩ := exists_between_append hle hlt hstop
  rw [decodedTo, hparts, Builder.run_append] at h
  rw [decodedTo]
  cases hrun : Builder.run w { index := start } (w.between start index) with
  | error e =>
    rw [hrun] at h
    cases h
  | ok b' =>
    refine ⟨b', rfl, fun hend => ?_⟩
    rw [hrun] at h
    simp [Except.bind, Builder.run, Builder.step, hend] at h

/-- **A builder that starts at a value has the value where it ends.** -/
theorem Holds.decodedTo (h : w.Holds v start stop) (hn : v.nesting ≤ maxTreeDepth) :
    w.decodedTo start stop = .ok ⟨stop, .ending, [], some v⟩ := by
  obtain ⟨hstop, depth, hv⟩ := h
  have hlen : (w.between start stop).length = stop - start := length_between hstop
  have hpos : 0 < (w.between start stop).length := by
    rw [hv.length_eq]
    exact List.length_pos_iff.2 (v.leaves_ne_nil depth)
  have hindex : start + (w.between start stop).length = stop := by omega
  have hstops : Builder.Stops w (depth + maxTreeDepth) { index := start }
      (w.between start stop) (v.leaves depth) _ :=
    Builder.Stops.value hv rfl (Nat.zero_le _) (Nat.add_zero _)
  obtain ⟨-, hrun⟩ := hstops
  rw [(firstDeep_eq_none_iff v depth maxTreeDepth).2 hn] at hrun
  rw [Window.decodedTo, hrun]
  show Except.ok (Builder.mk (start + (w.between start stop).length) .ending [] (some v)) = _
  rw [hindex]

/-- The window from the start of a value on decodes to it, unless there are tokens after it. -/
theorem Holds.value (h : w.Holds v start stop) (hn : v.nesting ≤ maxTreeDepth) :
    (w.onto (w.tokens.drop start)).value =
      if stop = w.length then .ok v else .error (.trailingTokens (stop - start)) := by
  obtain ⟨hstop, depth, hv⟩ := h
  have hdrop : (w.onto (w.tokens.drop start)).tokens =
      w.between start stop ++ (w.tokens.drop start).drop (stop - start) :=
    drop_eq_between w start stop
  have hshows := hv.imp fun _ _ hs => hs.onto (w.tokens.drop start)
  have hpos := List.length_pos_iff.2 (v.leaves_ne_nil depth)
  rw [← hv.length_eq, length_between hstop] at hpos
  have hempty : ((w.tokens.drop start).drop (stop - start)).isEmpty = true ↔ stop = w.length := by
    have hlength : w.tokens.length = w.length := rfl
    rw [List.isEmpty_iff, List.drop_drop, List.drop_eq_nil_iff]
    omega
  rw [Window.value_of_shows hdrop hshows, (firstDeep_eq_none_iff v depth maxTreeDepth).2 hn,
    length_between hstop]
  exact if_congr hempty rfl rfl

/-! ## Parts of a window -/

/-- The window has some tokens in a row of the other. -/
def IsPartOf (w whole : Window) : Prop := ∃ us, us <:+: whole.tokens ∧ w = whole.onto us

theorem IsPartOf.refl (w : Window) : w.IsPartOf w := ⟨w.tokens, List.infix_rfl, rfl⟩

theorem IsPartOf.trans {part whole : Window} (h : w.IsPartOf part) (h' : part.IsPartOf whole) :
    w.IsPartOf whole := by
  obtain ⟨us, hus, rfl⟩ := h
  obtain ⟨vs, hvs, rfl⟩ := h'
  exact ⟨us, hus.trans hvs, rfl⟩

theorem afterComma_suffix (ts : List Token) : afterComma ts <:+ ts := by
  cases ts with
  | nil => exact List.suffix_rfl
  | cons t ts =>
    rw [afterComma]
    split
    · exact List.suffix_cons t ts
    · exact List.nil_suffix

theorem infix_of_splitValue {ts value after : List Token}
    (h : splitValue ts = some (value, after)) : value <:+: ts ∧ afterComma after <:+: ts := by
  rw [splitValue_append h]
  exact ⟨(List.prefix_append value after).isInfix,
    (afterComma_suffix after).isInfix.trans (List.suffix_append value after).isInfix⟩

theorem Elements.infix_of_collect (e : Elements) :
    ∀ w ∈ e.collect [], ∃ us, us <:+: e.pending ∧ w = e.window.onto us := by
  induction hn : e.pending.length using Nat.strong_induction_on generalizing e with
  | _ n ih =>
    match hnext : e.next with
    | (none, e') =>
      rw [Elements.collect_none hnext]
      intro w hw
      cases hw
    | (some w', e') =>
      have hlt := Elements.next_pending_length_lt hnext
      rw [Elements.collect_cons hnext]
      cases hsplit : splitValue e.pending with
      | none =>
        rw [Elements.next, hsplit] at hnext
        cases hnext
      | some cut =>
        obtain ⟨value, after⟩ := cut
        rw [Elements.next, hsplit] at hnext
        cases hnext
        obtain ⟨hvalue, hrest⟩ := infix_of_splitValue hsplit
        intro w hw
        rcases List.mem_cons.1 hw with rfl | hw
        · exact ⟨value, hvalue, rfl⟩
        · obtain ⟨us, hus, heq⟩ := ih _ (hn ▸ hlt) ⟨e.window, afterComma after⟩ rfl w hw
          exact ⟨us, hus.trans hrest, heq⟩

theorem infix_of_fieldRun? {name : String} {ts us : List Token}
    (h : w.fieldRun? name ts = some us) : us <:+: ts := by
  fun_induction w.fieldRun? name ts with
  | case2 key colon rest hkey value after hsplit hname =>
    cases h
    exact (infix_of_splitValue hsplit).1.trans (List.suffix_append [key, colon] rest).isInfix
  | case3 key colon rest hkey value after hsplit hname ih =>
    have hrest := (ih h).trans (infix_of_splitValue hsplit).2
    exact hrest.trans (List.suffix_append [key, colon] rest).isInfix
  | _ => cases h

/-- A step leads to a part of the window. -/
theorem isPartOf_of_step {w' : Window} {s : Step} (h : w.step? s = some w') : w'.IsPartOf w := by
  cases s with
  | member name =>
    obtain ⟨t, ts, us, hw, -, hrun, rfl⟩ := exists_object_of_field? h
    refine ⟨us, (infix_of_fieldRun? hrun).trans ?_, rfl⟩
    rw [hw]
    exact (List.suffix_cons t ts).isInfix
  | item n =>
    obtain ⟨t, ts, hw, -, hmem⟩ := exists_array_of_mem_elements (List.mem_of_getElem? h)
    obtain ⟨us, hus, rfl⟩ := Elements.infix_of_collect ⟨w, ts⟩ w' hmem
    refine ⟨us, hus.trans ?_, rfl⟩
    rw [hw]
    exact (List.suffix_cons t ts).isInfix

/-- Every way down leads to a part of the window. -/
theorem isPartOf_of_walk {w' : Window} {way : List Step} (h : w.walk? way = some w') :
    w'.IsPartOf w := by
  induction way generalizing w with
  | nil =>
    obtain rfl : w = w' := Option.some.inj h
    exact .refl w
  | cons s way ih =>
    rw [walk?_cons] at h
    obtain ⟨w₁, hstep, hrest⟩ := Option.bind_eq_some_iff.1 h
    exact (ih hrest).trans (isPartOf_of_step hstep)

end Window

/-! ## Windows of a text -/

/-- The tokens of every part of what a tokenizer gives are read by the automaton, from some state
on. -/
theorem Tokenizer.readFrom_part (t : Tokenizer) (text : Bytes) {w : Window}
    (h : w.IsPartOf ((t.parse text).1.window text)) :
    ∃ c, ReadFrom w t.settings.limits c w.tokens := by
  obtain ⟨us, hus, rfl⟩ := h
  obtain ⟨ls, c, hshows, hrun⟩ := t.exists_run text
  obtain ⟨c', hread⟩ := ReadFrom.of_infix ⟨ls, c, hshows, hrun⟩ hus
  exact ⟨c', hread.onto us⟩

/-- **The end of a value is found exactly, in every window of every text, accepted or refused.**
The windows that elements and members lead to are runs of the tokens.  In any such run, the end
found for an index is the one up to which one value goes, by its brackets and as a tree; none is
found just beyond the tokens, where no value starts, and where a container is not closed.  A builder
that starts at a value which nests no deeper than it allows stops exactly at the end. -/
theorem Tokenizer.valueEnd_exact (t : Tokenizer) (hmax : t.settings.maxDepth < 2 ^ 32)
    (text : Bytes) :
    (∀ way w, ((t.parse text).1.window text).walk? way = some w →
      w.IsPartOf ((t.parse text).1.window text)) ∧
    ∀ w : Window, w.IsPartOf ((t.parse text).1.window text) → ∀ index,
      (∀ stop, w.valueEnd index = some stop ↔ w.Spans index stop) ∧
      (∀ stop, w.valueEnd index = some stop ↔ ∃ v, w.Holds v index stop) ∧
      (w.valueEnd index = none ↔
        w.length ≤ index ∨ (∃ t, w.tokens[index]? = some t ∧ ¬ t.kind.startsValue) ∨
          StaysOpen ((w.tokens.drop index).map Token.kind)) ∧
      ∀ stop v, w.Holds v index stop → v.nesting ≤ maxTreeDepth →
        w.decodedTo index stop = .ok ⟨stop, .ending, [], some v⟩ ∧
        (∀ before, index ≤ before → before < stop →
          ∃ b, w.decodedTo index before = .ok b ∧ b.awaiting ≠ .ending) ∧
        (w.onto (w.tokens.drop index)).value =
          if stop = w.length then .ok v else .error (.trailingTokens (stop - index)) := by
  have hle : t.settings.limits.maxDepth ≤ maxReportedDepth := by
    have heq : maxReportedDepth + 1 = 2 ^ 32 := by decide
    show t.settings.maxDepth ≤ maxReportedDepth
    omega
  refine ⟨fun way w hwalk => Window.isPartOf_of_walk hwalk, ?_⟩
  intro w hpart index
  obtain ⟨c, hread⟩ := t.readFrom_part text hpart
  refine ⟨?_, ?_, Window.valueEnd_eq_none_iff hread hle, ?_⟩
  · intro stop
    constructor
    · intro hend
      obtain ⟨v, hholds⟩ := Window.exists_holds_of_valueEnd hread hle hend
      exact hholds.spans
    · exact Window.valueEnd_of_spans hread hle
  · intro stop
    constructor
    · exact Window.exists_holds_of_valueEnd hread hle
    · rintro ⟨v, hholds⟩
      exact Window.valueEnd_of_spans hread hle hholds.spans
  · intro stop v hholds hn
    have hall := hholds.decodedTo hn
    have hbefore : ∀ before, index ≤ before → before < stop →
        ∃ b, w.decodedTo index before = .ok b ∧ b.awaiting ≠ .ending := fun _ hle hlt =>
      Window.decodedTo_before hall hle hlt hholds.1
    exact ⟨hall, hbefore, hholds.value hn⟩

/-- The text `[{},[1` breaks off in its second element.  In the window that leaves out the first
bracket, the object ends at 2 and the array at 3 is not closed. -/
theorem Tokenizer.valueEnd_exact_cut :
    ({} : Tokenizer).settings.maxDepth < 2 ^ 32 ∧
    ∃ w : Window, w.IsPartOf ((({} : Tokenizer).parse
        [0x5B, 0x7B, 0x7D, 0x2C, 0x5B, 0x31]).1.window [0x5B, 0x7B, 0x7D, 0x2C, 0x5B, 0x31]) ∧
      w.tokens = [⟨.opening .object, 1, 1, 1⟩, ⟨.closing .object, 1, 2, 1⟩, ⟨.comma, 1, 3, 1⟩,
        ⟨.opening .array, 1, 4, 1⟩, ⟨.number, 2, 5, 1⟩] ∧
      w.Spans 0 2 ∧ StaysOpen ((w.tokens.drop 3).map Token.kind) := by
  have ht : (({} : Tokenizer).parse [0x5B, 0x7B, 0x7D, 0x2C, 0x5B, 0x31]).1.tokens =
      [⟨.opening .array, 0, 0, 1⟩, ⟨.opening .object, 1, 1, 1⟩, ⟨.closing .object, 1, 2, 1⟩,
        ⟨.comma, 1, 3, 1⟩, ⟨.opening .array, 1, 4, 1⟩, ⟨.number, 2, 5, 1⟩] := by decide
  have hends := (Tokenizer.valueEnd_exact {} (by decide) [0x5B, 0x7B, 0x7D, 0x2C, 0x5B, 0x31]).2
  generalize (({} : Tokenizer).parse [0x5B, 0x7B, 0x7D, 0x2C, 0x5B, 0x31]).1 = parsed at ht hends
  obtain ⟨w, hpart, htokens⟩ : ∃ w : Window,
      w.IsPartOf (parsed.window [0x5B, 0x7B, 0x7D, 0x2C, 0x5B, 0x31]) ∧
      w.tokens = [⟨.opening .object, 1, 1, 1⟩, ⟨.closing .object, 1, 2, 1⟩, ⟨.comma, 1, 3, 1⟩,
        ⟨.opening .array, 1, 4, 1⟩, ⟨.number, 2, 5, 1⟩] := by
    refine ⟨_, ⟨_, ?_, rfl⟩, rfl⟩
    rw [show (parsed.window _).tokens = _ from ht]
    exact (List.suffix_cons _ _).isInfix
  have hobject : w.valueEnd 0 = some 2 := by
    rw [Window.valueEnd, htokens]
    rfl
  have harray : w.valueEnd 3 = none := by
    rw [Window.valueEnd, htokens]
    rfl
  refine ⟨by decide, w, hpart, htokens, ((hends w hpart 0).1 2).1 hobject, ?_⟩
  rcases (hends w hpart 3).2.2.1.1 harray with hle | ⟨t, hget, hnot⟩ | hopen
  · rw [Window.length, htokens] at hle
    exact absurd hle (by decide)
  · rw [htokens] at hget
    cases hget
    exact absurd rfl hnot
  · exact hopen

end FlatJson
