import FlatJson.Proofs.Concatenation
import FlatJson.Proofs.Decoding
import FlatJson.Proofs.Extents

/-!
# Decoding tokens that may break off

The tokens of a refused text break off where the scan stopped.  The builder takes them as it takes
any others: whatever the scanner lets follow, the builder goes along with, until a container opens
too deep for it or a second value starts.

* `Builder.Follows` — a builder and the automaton over leaves await the same.
* `Builder.Follows.step`, `Builder.Follows.run` — they still do after one token and after many.
* `Window.value_ne_unexpectedToken` — what decoding never reports.
* `Window.value_eq_ok_iff_of_run` — the only tokens that decode are those of one value.
* `Tokenizer.value_of_partial` — which refused texts have tokens that decode all the same.
-/

namespace FlatJson

open Scan (Limits Control Awaiting)

/-! ## One token -/

theorem spells_of_shows {w : Window} {ts : List Token} {ls : List Leaf}
    (h : List.Forall₂ (Shows w) ts ls) : ∀ l ∈ ls, Spells l.kind l.content := by
  intro l hl
  obtain ⟨t, -, ht⟩ := exists_of_forall₂ h.flip hl
  exact ht.spells

theorem Frame.closing_eq (frame : Frame) : frame.closing = .closing frame.container := by
  cases frame <;> rfl

/-- The errors that decoding runs into: what it has limits for. -/
inductive DecodeError.IsLimit : DecodeError → Prop
  | depth (index : Nat) : DecodeError.IsLimit (.depthLimitExceeded index)
  | trailing (index : Nat) : DecodeError.IsLimit (.trailingTokens index)

namespace Builder

/-- The builder awaits what the automaton awaits, inside the same containers. -/
structure Follows (b : Builder) (c : Control) : Prop where
  awaiting : b.awaiting = c.awaiting
  stack : b.frames.map Frame.container = c.stack
  /-- Names stand in objects only. -/
  named : c.awaiting.admitsKey → ∃ members name outer, b.frames = .object members name :: outer
  unfinished : c.awaiting ≠ .ending → b.result = none

variable {w : Window} {limits : Limits} {b : Builder} {c c' : Control} {t : Token} {l : Leaf}
  {ts : List Token} {ls : List Leaf}

theorem follows_initial : Follows {} {} :=
  ⟨rfl, rfl, nofun, fun _ => rfl⟩

/-- A complete value leads both to the same place. -/
theorem follows_deliver (b : Builder) (v : Value) (hs : b.frames.map Frame.container = c.stack)
    (hr : b.result = none) : (b.deliver v).Follows c.endValue := by
  obtain ⟨a, stack⟩ := c
  obtain rfl : b.frames.map Frame.container = stack := hs
  obtain ⟨index, awaiting, frames, result⟩ := b
  cases frames with
  | nil => exact ⟨rfl, rfl, nofun, fun h => absurd rfl h⟩
  | cons frame outer => cases frame <;> exact ⟨rfl, rfl, nofun, fun _ => hr⟩

/-- The token of a scalar is taken for its value. -/
theorem value_scalar (b : Builder) (h : Shows w t l) (hk : l.kind.isScalar) :
    ∃ v, b.value w t = .ok (b.advance.deliver v) := by
  have hkind := h.kind
  obtain ⟨kind, depth, content⟩ := l
  unfold Builder.value
  cases kind with
  | string => exact ⟨_, by rw [hkind]⟩
  | number => exact ⟨_, by rw [hkind, h.rawNumber_eq rfl]⟩
  | word k => cases k <;> exact ⟨_, by rw [hkind]⟩
  | _ => cases hk

/-- **What the automaton reads, the builder takes**, unless it meets one of its limits. -/
theorem Follows.step (h : b.Follows c) (hc : Control.Step limits c l c') (ht : Shows w t l) :
    (∃ b', b.step w t = .ok b' ∧ b'.Follows c') ∨ ∃ e, b.step w t = .error e ∧ e.IsLimit := by
  by_cases hend : c.awaiting = .ending
  · -- A value is complete, and the builder takes no other.
    refine .inr ⟨_, ?_, .trailing b.index⟩
    unfold Builder.step
    rw [h.awaiting, hend]
  have hresult := h.unfinished hend
  have hvalue : c.awaiting.admitsValue limits.several → b.awaiting.admitsValue false := by
    intro ha
    rw [h.awaiting]
    cases hawait : c.awaiting with
    | ending => exact absurd hawait hend
    | _ => rw [hawait] at ha; exact ha
  cases hc with
  | opening k ha hd =>
    rw [step_opening (hvalue ha) ht.kind]
    by_cases hlimit : maxTreeDepth ≤ b.frames.length
    · exact .inr ⟨_, if_pos hlimit, .depth _⟩
    · refine .inl ⟨_, if_neg hlimit, ?_⟩
      cases k with
      | array => exact ⟨rfl, congrArg _ h.stack, nofun, fun _ => hresult⟩
      | object => exact ⟨rfl, congrArg _ h.stack, fun _ => ⟨_, _, _, rfl⟩, fun _ => hresult⟩
  | @closing a stack k ha =>
    obtain ⟨frame, outer, hframes, rfl, rfl⟩ := List.map_eq_cons_iff.1 h.stack
    have hkind : t.kind = frame.closing := by
      rw [Frame.closing_eq]
      exact ht.kind
    have hclose : b.awaiting.admitsClose := by
      rw [h.awaiting]
      exact ha
    exact .inl ⟨_, step_closing hclose hframes hkind, follows_deliver _ _ rfl hresult⟩
  | @comma stack =>
    have hstack : b.frames.map Frame.container = stack := h.stack
    refine .inl ⟨_, step_comma h.awaiting ht.kind, ?_, hstack, ?_, fun _ => hresult⟩
    · rw [hstack]
    · intro hkey
      rw [← hstack] at hkey
      cases hframes : b.frames with
      | nil =>
        rw [hframes] at hkey
        cases hkey
      | cons frame outer =>
        rw [hframes] at hkey
        cases frame with
        | array items => cases hkey
        | object members name => exact ⟨_, _, _, rfl⟩
  | colon =>
    exact .inl ⟨_, step_colon ht h.awaiting, rfl, h.stack, nofun, fun _ => hresult⟩
  | key name ha =>
    obtain ⟨members, old, outer, hframes⟩ := h.named ha
    have hkey : b.awaiting.admitsKey := by
      rw [h.awaiting]
      exact ha
    have hstack : (Frame.object members name :: outer).map Frame.container = c.stack := by
      rw [← h.stack, hframes]
      rfl
    exact .inl ⟨_, step_key ht hkey hframes, rfl, hstack, nofun, fun _ => hresult⟩
  | scalar content hk ha =>
    have hclosing : ¬ t.kind.isClosing := by
      rw [ht.kind]
      exact TokenKind.not_isClosing_of_isScalar hk
    obtain ⟨v, hv⟩ := b.value_scalar ht hk
    rw [step_value (hvalue ha) hclosing, hv]
    exact .inl ⟨_, rfl, follows_deliver _ v h.stack hresult⟩

/-- **What a run of the automaton reads, the builder takes**, up to one of its limits. -/
theorem Follows.run (h : b.Follows c) (hc : Control.Run limits c ls c')
    (hs : List.Forall₂ (Shows w) ts ls) :
    (∃ b', run w b ts = .ok b' ∧ b'.Follows c') ∨ ∃ e, run w b ts = .error e ∧ e.IsLimit := by
  induction hc generalizing b ts with
  | nil c =>
    cases hs
    exact .inl ⟨b, rfl, h⟩
  | cons hstep _ ih =>
    cases hs with
    | @cons t _ ts _ ht hs =>
      rw [Builder.run]
      rcases h.step hstep ht with ⟨b', hb, h'⟩ | ⟨e, he, hlimit⟩
      · rw [hb]
        exact ih h' hs
      · rw [he]
        exact .inr ⟨e, rfl, hlimit⟩

end Builder

/-! ## Windows -/

namespace Window

variable {w : Window} {limits : Limits} {c : Control} {ls : List Leaf}

/-- What a window decodes to whose tokens the automaton reads from the start: unless it is empty,
the value is there, or is not finished, or a limit was met before. -/
theorem value_of_run (hc : Control.Run limits {} ls c) (hs : List.Forall₂ (Shows w) w.tokens ls) :
    (w.tokens = [] ∧ w.value = .error .empty) ∨ (∃ v, w.value = .ok v ∧ c.awaiting = .ending) ∨
      w.value = .error .unexpectedEnd ∨ ∃ e, w.value = .error e ∧ e.IsLimit := by
  unfold Window.value
  by_cases hempty : w.tokens.isEmpty
  · exact .inl ⟨List.isEmpty_iff.1 hempty, if_pos hempty⟩
  · rw [if_neg hempty]
    refine .inr ?_
    rcases Builder.follows_initial.run hc hs with ⟨b, hb, hfollows⟩ | ⟨e, he, hlimit⟩
    · simp only [hb]
      cases hresult : b.result with
      | none => exact .inr (.inl rfl)
      | some v =>
        refine .inl ⟨v, rfl, ?_⟩
        by_contra hend
        rw [hfollows.unfinished hend] at hresult
        cases hresult
    · simp only [he]
      exact .inr (.inr ⟨e, rfl, hlimit⟩)

/-- **No token of a scan is unexpected**, whether the text was accepted or not. -/
theorem value_ne_unexpectedToken (hc : Control.Run limits {} ls c)
    (hs : List.Forall₂ (Shows w) w.tokens ls) (kind : TokenKind) (index : Nat) :
    w.value ≠ .error (.unexpectedToken kind index) := by
  intro h
  rcases value_of_run hc hs with ⟨-, hv⟩ | ⟨v, hv, -⟩ | hv | ⟨e, hv, hlimit⟩
  · rw [h] at hv
    cases hv
  · rw [h] at hv
    cases hv
  · rw [h] at hv
    cases hv
  · rw [h] at hv
    cases hv
    cases hlimit

/-- **The only tokens that decode are those of one value**, whether the text was accepted or not. -/
theorem value_eq_ok_iff_of_run (hc : Control.Run limits {} ls c)
    (hs : List.Forall₂ (Shows w) w.tokens ls) (v : Value) :
    w.value = .ok v ↔
      v.nesting ≤ maxTreeDepth ∧ List.Forall₂ (Shows w) w.tokens (v.leaves 0) := by
  constructor
  · intro h
    have hend : c.awaiting = .ending := by
      rcases value_of_run hc hs with ⟨-, hv⟩ | ⟨-, -, hend⟩ | hv | ⟨e, hv, -⟩
      · rw [h] at hv
        cases hv
      · exact hend
      · rw [h] at hv
        cases hv
      · rw [h] at hv
        cases hv
    have hspells := spells_of_shows hs
    obtain ⟨roots, hne, -, -, rfl⟩ := hc.of_ending hspells hend
    cases roots with
    | nil => exact absurd rfl hne
    | cons u roots =>
      obtain ⟨ts, rest, hw, hu, -⟩ := forall₂_append_right (m := u.leaves 0) hs
      obtain ⟨hle, rfl, rfl⟩ := (Window.value_eq_ok_iff hw hu).1 h
      rw [List.append_nil] at hw
      rw [hw]
      exact ⟨hle, hu⟩
  · rintro ⟨hle, hv⟩
    exact (Window.value_eq_ok_iff (List.append_nil _).symm hv).2 ⟨hle, rfl, rfl⟩

end Window

/-! ## Refused after a whole value -/

namespace Scan

variable {limits : Limits} {s : State}

/-- Where only the end is awaited, no token may start. -/
theorem State.start_refused (hs : limits.several = false) (ha : s.awaiting = .ending)
    (hstack : s.stack = []) {lead : Lead} (hlead : lead ≠ .blank) :
    s.start limits lead = .error s.unexpected := by
  cases lead with
  | blank => exact absurd rfl hlead
  | opening c => simp [State.start, State.push, ha, hs, Awaiting.admitsValue]
  | closing c => simp [State.start, State.pop, hstack]
  | comma => simp [State.start, State.comma, ha]
  | colon => simp [State.start, State.colon, ha]
  | quote => simp [State.start, ha, hs, Awaiting.admitsKey, Awaiting.admitsValue]
  | number part => simp [State.start, ha, hs, Awaiting.admitsValue]
  | word w => simp [State.start, ha, hs, Awaiting.admitsValue]
  | other => rfl

theorem scanFrom_refused (hs : limits.several = false) (hl : s.lexeme = .idle)
    (ha : s.awaiting = .ending) (hstack : s.stack = []) {text : Bytes} (hb : ¬ Blank text) :
    (scanFrom limits s text).tokens = s.emitted.reverse ∧
      ∃ e, (scanFrom limits s text).error = some e := by
  induction text generalizing s with
  | nil => exact absurd Blank.nil hb
  | cons b text ih =>
    have hsettle : s.settle (some b) = s := by
      unfold State.settle
      rw [hl]
    have hfeed : s.feed limits b = s.start limits (Lead.ofByte b) := by
      unfold State.feed
      rw [hl]
    rw [scanFrom, hsettle, hfeed]
    by_cases hblank : Byte.isBlank b
    · have hrest : ¬ Blank text := fun hrest => hb (hrest.cons hblank)
      have hlead : Lead.ofByte b = .blank := if_pos hblank
      rw [hlead]
      exact ih (s := s.advance) hl ha hstack hrest
    · have hlead : Lead.ofByte b ≠ .blank := by
        intro hlead
        have hne : Lead.blank ≠ .other := by decide
        exact hblank ((Lead.ofByte_eq_iff hne b).1 hlead)
      rw [State.start_refused hs ha hstack hlead]
      exact ⟨rfl, _, rfl⟩

end Scan

/-- Where one value is allowed, whatever comes after a value and a blank is refused, and the tokens
are those of the value. -/
theorem Tokenizer.value_of_trailing (t : Tokenizer) (hs : t.settings.allowsSeveral = false)
    {a pad rest : Bytes} {v : Value} (ha : WrittenText [v] a)
    (hmax : v.nesting ≤ t.settings.maxDepth) (hv : v.nesting ≤ maxTreeDepth) (hpad : Blank pad)
    (hne : pad ≠ []) (hrest : ¬ Blank rest) :
    (t.parse (a ++ pad ++ rest)).1.error ≠ none ∧
      ((t.parse (a ++ pad ++ rest)).1.window (a ++ pad ++ rest)).value = .ok v := by
  have herror : (t.parse a).1.error = none := by
    refine (t.parse_error_eq_none_iff a).2 ⟨[v], ha, ?_, .inr rfl⟩
    intro u hu
    rwa [List.mem_singleton.1 hu]
  have hscan : Scan.scan t.settings.limits (a ++ pad ++ rest) = _ :=
    Scan.scan_append herror hpad hne rest
  have hsingle : t.settings.limits.several = false := hs
  obtain ⟨htokens, e, he⟩ := Scan.scanFrom_refused hsingle (s := (({} : Scan.State).shift
    (a.length + pad.length) (Scan.scan t.settings.limits a).tokens.reverse).again) rfl rfl rfl hrest
  rw [← hscan] at htokens he
  constructor
  · intro hnone
    exact Option.some_ne_none e (he.symm.trans hnone)
  · obtain ⟨ps, trail, hlaid⟩ := ha.laidText
    have htext : ((t.parse (a ++ pad ++ rest)).1.window (a ++ pad ++ rest)).text.toList =
        [] ++ (spread ps ++ (trail ++ pad ++ rest)) := by
      show a ++ pad ++ rest = _
      rw [hlaid.text_eq]
      simp
    have hsame : (t.parse (a ++ pad ++ rest)).1.tokens = tokensAt ([] : Bytes).length ps := by
      refine htokens.trans ?_
      exact (List.reverse_reverse _).trans (t.tokens_eq_tokensAt herror hlaid)
    have hshows := shows_tokensAt hlaid.proper htext
    rw [← hsame, hlaid.leaves] at hshows
    exact Window.value_of_one hshows hv

/-- **Which tokens decode, whether the text was accepted or not.**  They are those of exactly one
value; so the tokens of a refused text do not decode, unless the scan failed right after its first
value.  Then they do: where one value is allowed, whatever comes after a value and a blank is
refused, but the tokens up to there decode to the value. -/
theorem Tokenizer.value_of_partial (t : Tokenizer) :
    (∀ text v, ((t.parse text).1.window text).value = .ok v ↔ v.nesting ≤ maxTreeDepth ∧
      List.Forall₂ (Shows ((t.parse text).1.window text)) (t.parse text).1.tokens (v.leaves 0)) ∧
    (t.settings.allowsSeveral = false → ∀ a pad rest v, WrittenText [v] a →
      v.nesting ≤ t.settings.maxDepth → v.nesting ≤ maxTreeDepth → Blank pad → pad ≠ [] →
      ¬ Blank rest → (t.parse (a ++ pad ++ rest)).1.error ≠ none ∧
        ((t.parse (a ++ pad ++ rest)).1.window (a ++ pad ++ rest)).value = .ok v) := by
  constructor
  · intro text v
    obtain ⟨ls, c, hshows, hrun⟩ := t.exists_run text
    exact Window.value_eq_ok_iff_of_run hrun hshows v
  · intro hs a pad rest v ha hmax hv hpad hne hrest
    exact t.value_of_trailing hs ha hmax hv hpad hne hrest

/-- The text `1 x`: the value `1`, a blank, and a letter that is refused. -/
theorem Tokenizer.value_of_partial_letter :
    ({} : Tokenizer).settings.allowsSeveral = false ∧
    WrittenText [.number ⟨[0x31]⟩] [0x31] ∧
    (({} : Tokenizer).parse ([0x31] ++ [0x20] ++ [0x78])).1.error ≠ none ∧
    ((({} : Tokenizer).parse ([0x31] ++ [0x20] ++ [0x78])).1.window
      ([0x31] ++ [0x20] ++ [0x78])).value = .ok (.number ⟨[0x31]⟩) := by
  have hnumber : IsNumber [0x31] :=
    @IsNumber.mk [] [0x31] [] [] (by decide) (.digits rfl (by decide) nofun) .absent .absent
  have hwritten : WrittenText [.number ⟨[0x31]⟩] [0x31] :=
    @WrittenText.one _ [] [0x31] [] .nil (.number hnumber) .nil
  have hblank : Blank [0x20] := Blank.nil.cons rfl
  have hrest : ¬ Blank [0x78] := fun h => absurd (h 0x78 List.mem_cons_self) (by decide)
  refine ⟨rfl, hwritten, ?_⟩
  exact (Tokenizer.value_of_partial {}).2 rfl [0x31] [0x20] [0x78] _ hwritten (Nat.zero_le _)
    (Nat.zero_le _) hblank (List.cons_ne_nil _ _) hrest

/-- A text is refused and its tokens decode: those of the text `1 x`. -/
theorem Tokenizer.exists_refused_with_value :
    (({} : Tokenizer).parse [0x31, 0x20, 0x78]).1.error =
      some ⟨.unexpectedCharacter 'x' "end of input", 2⟩ ∧
    ((({} : Tokenizer).parse [0x31, 0x20, 0x78]).1.window [0x31, 0x20, 0x78]).value =
      .ok (.number ⟨[0x31]⟩) ∧
    ¬ ∀ (t : Tokenizer) (text : Bytes) (e : LexError), (t.parse text).1.error = some e →
      ∃ e', ((t.parse text).1.window text).value = .error e' := by
  have herror : (({} : Tokenizer).parse [0x31, 0x20, 0x78]).1.error =
      some ⟨.unexpectedCharacter 'x' "end of input", 2⟩ := by decide
  have hvalue : ((({} : Tokenizer).parse [0x31, 0x20, 0x78]).1.window [0x31, 0x20, 0x78]).value =
      .ok (.number ⟨[0x31]⟩) := by rfl
  refine ⟨herror, hvalue, ?_⟩
  intro h
  obtain ⟨e', he'⟩ := h {} [0x31, 0x20, 0x78] _ herror
  rw [hvalue] at he'
  cases he'

end FlatJson
