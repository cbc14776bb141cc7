import FlatJson.Proofs.ValueEnds

/-!
# Walking through windows

A window that decodes to a value starts with the tokens of the value and has no others, so that
walking on from it agrees with walking through the value.  No acceptance is needed for that, but
depths that tokens tell apart are: from 2³² - 1 on all depths are reported alike.

* `Builder.Balanced` — what a token does to the open containers of a builder.
* `Window.value_of_staysOpen` — a container that is not closed does not decode.
* `ReadFrom.heads_of_value` — the tokens of a window that decodes are those of its value.
* `Window.Resolves` — the depths reported in a window tell the containers of its value apart.
* `Tokenizer.walk_agrees_with_value` — the two walks, from every window that decodes.
* `nested` — arrays in arrays, to depths at which walks do go astray.
-/

namespace FlatJson

open Scan (Limits Control)

/-! ## Containers that stay open -/

namespace Builder

variable {w : Window} {b b' : Builder} {t : Token} {ts : List Token}

/-- Between the two builders stand the brackets of a token, and no value unless all is closed. -/
def Balanced (b : Builder) (t : Token) (b' : Builder) : Prop :=
  b'.frames.length + closings [t.kind] = b.frames.length + openings [t.kind] ∧
    (b'.frames ≠ [] → b'.result = b.result)

/-- A complete value leaves all containers open, and is no result inside them. -/
theorem deliver_open (b : Builder) (v : Value) :
    (b.deliver v).frames.length = b.frames.length ∧
      ((b.deliver v).frames ≠ [] → (b.deliver v).result = b.result) := by
  obtain ⟨index, awaiting, frames, result⟩ := b
  cases frames with
  | nil => exact ⟨rfl, fun h => absurd rfl h⟩
  | cons frame outer => cases frame <;> exact ⟨rfl, fun _ => rfl⟩

theorem deliver_balanced (b : Builder) (v : Value) (hk : t.kind.isScalar) :
    b.Balanced t (b.advance.deliver v) := by
  obtain ⟨hlen, hresult⟩ := b.advance.deliver_open v
  refine ⟨?_, hresult⟩
  have hopen : openings [t.kind] = 0 := by simp [openings, TokenKind.not_isOpening_of_isScalar hk]
  have hclose : closings [t.kind] = 0 := by simp [closings, TokenKind.not_isClosing_of_isScalar hk]
  rw [hlen, hopen, hclose]
  rfl

theorem push_balanced {frame : Frame} {awaiting : Scan.Awaiting} {k : Container}
    (hk : t.kind = .opening k) (h : b.push frame awaiting = .ok b') : b.Balanced t b' := by
  unfold push at h
  split at h
  · cases h
  · cases h
    rw [Balanced, hk]
    exact ⟨rfl, fun _ => rfl⟩

theorem value_balanced (h : b.value w t = .ok b') : b.Balanced t b' := by
  unfold value at h
  split at h
  case h_4 hk =>
    split at h
    · cases h
      exact b.deliver_balanced _ (by rw [hk]; rfl)
    · cases h
  case h_6 hk => exact push_balanced hk h
  case h_7 hk => exact push_balanced hk h
  case h_8 => cases h
  all_goals
    next hk =>
      cases h
      exact b.deliver_balanced _ (by rw [hk]; rfl)

theorem key_balanced (h : b.key w t = .ok b') : b.Balanced t b' := by
  unfold key at h
  split at h
  · next hk hframes =>
    cases h
    rw [Balanced, hk, hframes]
    exact ⟨rfl, fun _ => rfl⟩
  · cases h

theorem comma_balanced (h : b.comma t = .ok b') : b.Balanced t b' := by
  unfold comma at h
  split at h
  · next hk =>
    cases h
    rw [Balanced, hk]
    exact ⟨rfl, fun _ => rfl⟩
  · cases h

theorem closeOr_balanced {other : Except DecodeError Builder} (h : b.closeOr t other = .ok b')
    (hother : other = .ok b' → b.Balanced t b') : b.Balanced t b' := by
  unfold closeOr at h
  split at h
  · next frame outer hframes =>
    split at h
    · next hk =>
      cases h
      obtain ⟨hlen, hresult⟩ :=
        ({ b with frames := outer } : Builder).advance.deliver_open frame.close
      refine ⟨?_, hresult⟩
      have hkind : t.kind = .closing frame.container := hk.trans frame.closing_eq
      rw [hlen, hkind, hframes]
      rfl
    · exact hother h
  · exact hother h

/-- One token changes the number of open containers by its brackets. -/
theorem step_balanced (h : b.step w t = .ok b') : b.Balanced t b' := by
  unfold step at h
  split at h
  · exact value_balanced h
  · exact value_balanced h
  · exact closeOr_balanced h value_balanced
  · exact key_balanced h
  · exact closeOr_balanced h key_balanced
  · split at h
    · next hk =>
      cases h
      rw [Balanced, hk]
      exact ⟨rfl, fun _ => rfl⟩
    · cases h
  · exact closeOr_balanced h comma_balanced
  · cases h

/-- As long as some container is not closed, no token completes a value. -/
theorem run_result (hopen : ∀ read, read <+: ts.map Token.kind →
      closings read < openings read + b.frames.length)
    (h : run w b ts = .ok b') : b'.result = b.result := by
  induction ts generalizing b with
  | nil =>
    cases h
    rfl
  | cons t ts ih =>
    rw [run] at h
    cases hstep : b.step w t with
    | error e =>
      rw [hstep] at h
      cases h
    | ok b₁ =>
      rw [hstep] at h
      obtain ⟨hlen, hresult⟩ := step_balanced hstep
      have hfirst := hopen [t.kind] ⟨ts.map Token.kind, rfl⟩
      have hne : b₁.frames ≠ [] := by
        apply List.ne_nil_of_length_pos
        omega
      rw [← hresult hne]
      refine ih ?_ h
      rintro read ⟨later, hread⟩
      have hmore := hopen ([t.kind] ++ read) ⟨later, by simp [← hread]⟩
      rw [closings_append, openings_append] at hmore
      omega

end Builder

/-! ## Windows that decode -/

variable {w : Window} {limits : Limits} {c : Control} {v : Value} {depth : Nat}

/-- A container that is not closed does not decode. -/
theorem Window.value_of_staysOpen (h : StaysOpen (w.tokens.map Token.kind)) (v : Value) :
    w.value ≠ .ok v := by
  intro hv
  unfold Window.value at hv
  cases hts : w.tokens with
  | nil =>
    rw [hts] at h
    exact h
  | cons t ts =>
    rw [hts] at h hv
    obtain ⟨hopening, hin⟩ := h
    rw [List.isEmpty_cons, if_neg Bool.false_ne_true, Builder.run] at hv
    cases hstep : ({} : Builder).step w t with
    | error e => simp [hstep] at hv
    | ok b₁ =>
      obtain ⟨hlen, hresult⟩ := Builder.step_balanced hstep
      have hone : b₁.frames.length = 1 := by
        obtain ⟨k, hk⟩ : ∃ k, t.kind = .opening k := by
          cases hkind : t.kind <;> simp_all [TokenKind.isOpening]
        rw [hk] at hlen
        exact hlen
      have hnone : b₁.result = none := hresult (List.ne_nil_of_length_pos (by omega))
      rw [hstep] at hv
      cases hrun : Builder.run w b₁ ts with
      | error e => simp [hrun] at hv
      | ok b₂ =>
        have hrest : b₂.result = b₁.result := by
          refine Builder.run_result ?_ hrun
          intro read hread
          have hle := hin read hread
          omega
        simp [hrun, hrest, hnone] at hv

/-- Either no bracket closes at a depth, or one is the first that does. -/
theorem Leaf.closes_nowhere_or_first (ls : List Leaf) (depth : Nat) :
    (∀ m ∈ ls, m.kind.isClosing → m.depth ≠ depth) ∨
      ∃ before m later, ls = before ++ m :: later ∧ m.kind.isClosing ∧ m.depth = depth ∧
        ∀ n ∈ before, n.kind.isClosing → n.depth ≠ depth := by
  induction ls with
  | nil => exact .inl (by simp)
  | cons l ls ih =>
    by_cases hl : l.kind.isClosing ∧ l.depth = depth
    · exact .inr ⟨[], l, ls, rfl, hl.1, hl.2, by simp⟩
    · have hfirst : l.kind.isClosing → l.depth ≠ depth := fun hk hd => hl ⟨hk, hd⟩
      rcases ih with hnone | ⟨before, m, later, rfl, hk, hd, hbefore⟩
      · exact .inl (List.forall_mem_cons.2 ⟨hfirst, hnone⟩)
      · exact .inr ⟨l :: before, m, later, rfl, hk, hd, List.forall_mem_cons.2 ⟨hfirst, hbefore⟩⟩

/-- **Where a value starts in tokens that the automaton reads, there is one, or its container is not
closed**, at any depth. -/
theorem ReadFrom.holds_or_open {t : Token} {ts : List Token} (h : ReadFrom w limits c (t :: ts))
    (ht : t.kind.startsValue) :
    (∃ tv rest, t :: ts = tv ++ rest ∧ HoldsValue w limits c.stack.length tv) ∨
      StaysOpen ((t :: ts).map Token.kind) := by
  obtain ⟨ls, c', hs, hr⟩ := h
  cases hs with
  | @cons _ l _ ls hl hs =>
    rw [hl.kind] at ht
    cases hr with
    | cons hstep hr =>
      cases hstep with
      | scalar content hk ha => exact .inl ⟨[t], ts, rfl, .of_scalar hl hk⟩
      | opening k ha hd =>
        rcases Leaf.closes_nowhere_or_first ls c.stack.length with
          hopen | ⟨lm, m, lr, rfl, hk, hdepth, hopen⟩
        · have hin := hr.isInside hopen
          rw [← kinds_eq_of_shows hs] at hin
          refine .inr ⟨?_, hin⟩
          rw [hl.kind]
          rfl
        · obtain ⟨mid, tr, rfl, hmid, hrest⟩ := forall₂_append_right hs
          cases hrest with
          | @cons close _ tr _ hm hrest =>
            obtain ⟨c₁, hrun, hrr⟩ := hr.of_append
            cases hrr with
            | cons hclose hrr =>
              have hholds := HoldsValue.of_container hl hd hmid hm hrun hclose hk hdepth hopen
              refine .inl ⟨t :: (mid ++ [close]), tr, ?_, hholds.1⟩
              simp
      | _ => cases ht

/-- A window whose first token starts no value does not decode. -/
theorem Window.exists_first_of_value {v : Value} (hv : w.value = .ok v) :
    ∃ t ts, w.tokens = t :: ts ∧ t.kind.startsValue := by
  unfold Window.value at hv
  cases hts : w.tokens with
  | nil => simp [hts] at hv
  | cons t ts =>
    refine ⟨t, ts, rfl, ?_⟩
    by_contra hfirst
    cases hk : t.kind <;>
      simp_all [TokenKind.startsValue, TokenKind.isScalar, TokenKind.isOpening, Builder.run,
        Builder.step, Builder.value, Builder.unexpected]

/-- **The only tokens of a run that decode are those of one value**, wherever in a text they are. -/
theorem ReadFrom.heads_of_value {v : Value} (h : ReadFrom w limits c w.tokens)
    (hv : w.value = .ok v) : w.Heads v c.stack.length [] ∧
      (0 < v.nesting → c.stack.length + v.nesting ≤ limits.maxDepth) := by
  obtain ⟨t, ts, htokens, hfirst⟩ := Window.exists_first_of_value hv
  have hopen : ¬ StaysOpen (w.tokens.map Token.kind) := fun hopen =>
    Window.value_of_staysOpen hopen v hv
  rw [htokens] at h hopen
  obtain ⟨tv, rest, htv, u, hu, hn⟩ := (h.holds_or_open hfirst).resolve_right hopen
  obtain ⟨-, rfl, rfl⟩ := (Window.value_eq_ok_iff (htokens.trans htv) hu).1 hv
  exact ⟨⟨tv, htokens.trans htv, hu⟩, hn⟩

/-- The first leaf of a value is as deep as the value. -/
theorem Value.exists_first_leaf (v : Value) (depth : Nat) :
    ∃ l ls, v.leaves depth = l :: ls ∧ l.depth = depth := by
  cases v with
  | bool b => cases b <;> exact ⟨_, _, rfl, rfl⟩
  | _ => exact ⟨_, _, rfl, rfl⟩

/-- The depths that tokens report tell the containers inside a value from those around them: the
first token of the window and the nesting of the value leave room for each other below 2³², or only
the value itself has containers in it. -/
def Window.Resolves (w : Window) (v : Value) : Prop :=
  v.nesting ≤ 2 ∨ ∀ t ∈ w.tokens.head?, t.depth + v.nesting ≤ maxReportedDepth + 1

/-- Saturated depths leave no room, so it does not matter that the depth is only reported. -/
theorem Window.Heads.resolves_iff {rest : List Token} (h : w.Heads v depth rest) :
    w.Resolves v ↔ v.nesting ≤ 2 ∨ depth + v.nesting ≤ maxReportedDepth + 1 := by
  obtain ⟨ts, hw, hs⟩ := h
  obtain ⟨l, ls, hl, hdepth⟩ := v.exists_first_leaf depth
  rw [hl] at hs
  cases hs with
  | @cons t _ _ _ ht hs =>
    have hreported : t.depth = min depth maxReportedDepth := by rw [ht.depth, hdepth]
    have hfirst : w.tokens.head? = some t := by rw [hw]; rfl
    simp only [Window.Resolves, hfirst, Option.mem_some_iff, forall_eq']
    omega

/-- A window that decodes has the tokens of its value and no others, and is as deep as the number of
containers around it. -/
theorem Tokenizer.exists_heads_of_walk? (t : Tokenizer) {text : Bytes} {way : List Step}
    (hw : ((t.parse text).1.window text).walk? way = some w) (hv : w.value = .ok v) :
    ∃ depth, w.Heads v depth [] ∧
      (0 < v.nesting → depth + v.nesting ≤ t.settings.maxDepth) := by
  obtain ⟨c, hread⟩ := t.readFrom_part text (Window.isPartOf_of_walk hw)
  exact ⟨c.stack.length, hread.heads_of_value hv⟩

/-! ## Walking on -/

/-- **Walking through the windows of a text agrees with walking through its values.**  A window that
holds a value has a window for each part of the value, on every way and for nothing else; its
elements, one after another, and its members by name are those of the value.

This is so for all windows if at most 2³² containers may nest, and else for those that resolve their
values.  The text may be accepted or refused. -/
theorem Tokenizer.walk_agrees_with_value (t : Tokenizer) {text : Bytes} {way : List Step}
    {w : Window} {v : Value} (hw : ((t.parse text).1.window text).walk? way = some w)
    (hv : w.value = .ok v)
    (hdeep : t.settings.maxDepth ≤ maxReportedDepth + 1 ∨ w.Resolves v) :
    (∀ path, (w.walk? path).map Window.value = (v.walk? path).map .ok) ∧
    w.elements.map Window.value = (v.asArray?.getD []).map .ok ∧
    (∀ n, (w.elementsStart.after n).next.1.map Window.value = (v.item? n).map .ok) ∧
    (∀ name, (w.field? name).map Window.value =
      ((v.asObject?.getD []).find? fun m => m.1.decode.toOption == some name.toList).map
        fun m => .ok m.2) := by
  obtain ⟨depth, hheads, hnesting⟩ := t.exists_heads_of_walk? hw hv
  obtain ⟨hn, -, -⟩ := hheads.value_eq_ok_iff.1 hv
  have hroom : v.nesting ≤ 2 ∨ depth + v.nesting ≤ maxReportedDepth + 1 := by
    rcases hdeep with hmax | hresolves
    · by_cases hflat : v.nesting ≤ 2
      · exact .inl hflat
      · exact .inr (Nat.le_trans (hnesting (by omega)) hmax)
    · exact hheads.resolves_iff.1 hresolves
  have hall := hheads.walk_value hn hroom
  have hitem : ∀ n, w.elements[n]?.map Window.value = (v.item? n).map .ok := by
    intro n
    have hone := hall [.item n]
    rwa [Window.walk?_single, Value.walk?_single] at hone
  refine ⟨hall, ?_, ?_, ?_⟩
  · refine List.ext_getElem? fun n => ?_
    rw [List.getElem?_map, List.getElem?_map, hitem n, Value.item?_eq]
  · intro n
    rw [Window.Elements.next_after]
    exact hitem n
  · intro name
    have hone := hall [.member name]
    rw [Window.walk?_single, Value.walk?_single] at hone
    have hmember : (w.field? name).map Window.value = (v.member? name).map .ok := hone
    rw [hmember, Value.member?_eq, Option.map_map]
    simp only [RawText.denotes_eq]
    rfl

/-- The text `{"a":[1]}`, one step down. -/
theorem Tokenizer.walk_agrees_with_value_member :
    ∃ w : Window, ((({} : Tokenizer).parse
        [0x7B, 0x22, 0x61, 0x22, 0x3A, 0x5B, 0x31, 0x5D, 0x7D]).1.window
        [0x7B, 0x22, 0x61, 0x22, 0x3A, 0x5B, 0x31, 0x5D, 0x7D]).walk? [.member "a"] = some w ∧
      (w.walk? [.item 0]).map Window.value = some (.ok (.number ⟨[0x31]⟩)) ∧
      (w.walk? [.item 1]).map Window.value = none := by
  have ht : (({} : Tokenizer).parse
      [0x7B, 0x22, 0x61, 0x22, 0x3A, 0x5B, 0x31, 0x5D, 0x7D]).1.tokens =
      [⟨.opening .object, 0, 0, 1⟩, ⟨.key, 1, 2, 1⟩, ⟨.colon, 1, 4, 1⟩, ⟨.opening .array, 1, 5, 1⟩,
        ⟨.number, 2, 6, 1⟩, ⟨.closing .array, 1, 7, 1⟩, ⟨.closing .object, 0, 8, 1⟩] := by decide
  generalize hp : (({} : Tokenizer).parse
    [0x7B, 0x22, 0x61, 0x22, 0x3A, 0x5B, 0x31, 0x5D, 0x7D]).1 = parsed at ht
  have hw : (parsed.window [0x7B, 0x22, 0x61, 0x22, 0x3A, 0x5B, 0x31, 0x5D, 0x7D]).walk?
      [.member "a"] = some ((parsed.window
        [0x7B, 0x22, 0x61, 0x22, 0x3A, 0x5B, 0x31, 0x5D, 0x7D]).onto
        [⟨.opening .array, 1, 5, 1⟩, ⟨.number, 2, 6, 1⟩, ⟨.closing .array, 1, 7, 1⟩]) := by
    rw [Window.walk?_single, Window.step?, Window.field?, Parsed.window, ht]
    simp only
    rw [Window.fieldRun?]
    rfl
  have hv : ((parsed.window [0x7B, 0x22, 0x61, 0x22, 0x3A, 0x5B, 0x31, 0x5D, 0x7D]).onto
      [⟨.opening .array, 1, 5, 1⟩, ⟨.number, 2, 6, 1⟩, ⟨.closing .array, 1, 7, 1⟩]).value =
      .ok (.array [.number ⟨[0x31]⟩]) := by rfl
  subst hp
  have hall := (Tokenizer.walk_agrees_with_value {} hw hv (.inl (by decide))).1
  exact ⟨_, hw, hall [.item 0], hall [.item 1]⟩

/-! ## Walks that go astray -/

/-- An array inside so many others, each the only element of the next. -/
def nested : Nat → Value
  | 0 => .array []
  | n + 1 => .array [nested n]

/-- The text of nested arrays, without blanks. -/
def nestedText : Nat → Bytes
  | 0 => [0x5B, 0x5D]
  | n + 1 => 0x5B :: (nestedText n ++ [0x5D])

theorem nesting_nested (n : Nat) : (nested n).nesting = n + 1 := by
  induction n with
  | zero => rfl
  | succ n ih => rw [nested, Value.nesting, nestingItems, nestingItems, ih, Nat.max_zero]

theorem length_nestedText (n : Nat) : (nestedText n).length = 2 * (n + 1) := by
  induction n with
  | zero => rfl
  | succ n ih =>
    rw [nestedText, List.length_cons, List.length_append, ih, List.length_singleton]
    omega

theorem nested_written (n : Nat) : (nested n).Written (nestedText n) := by
  induction n with
  | zero => exact .emptyArray Blank.nil
  | succ n ih =>
    have hitems : WrittenItems [nested n] ([] ++ nestedText n ++ []) := .one .nil ih .nil
    rw [List.append_nil, List.nil_append] at hitems
    exact .array hitems

/-- One step down is one array less. -/
theorem nested_walk (n m : Nat) :
    (nested (n + m)).walk? (List.replicate m (.item 0)) = some (nested n) := by
  induction m with
  | zero => rfl
  | succ m ih =>
    rw [List.replicate_succ, Value.walk?_cons]
    exact ih

/-- A text of nested arrays is accepted if they may nest so deep, and starts with their value. -/
theorem Tokenizer.parse_nested (t : Tokenizer) {n : Nat} (hn : n < t.settings.maxDepth) :
    (t.parse (nestedText n)).1.error = none ∧
      ((t.parse (nestedText n)).1.window (nestedText n)).Heads (nested n) 0 [] := by
  have hwritten : WrittenText [nested n] ([] ++ nestedText n ++ []) :=
    .one .nil (nested_written n) .nil
  rw [List.append_nil, List.nil_append] at hwritten
  have herror : (t.parse (nestedText n)).1.error = none := by
    refine (t.parse_error_eq_none_iff _).2 ⟨_, hwritten, ?_, .inr rfl⟩
    intro v hv
    rw [List.mem_singleton.1 hv, nesting_nested]
    exact hn
  have hshows := t.tokens_show_leaves herror hwritten
  rw [rootLeaves_singleton] at hshows
  exact ⟨herror, _, (List.append_nil _).symm, hshows⟩

/-- Three arrays in each other, the second of which reports the largest depth: it seems to end where
the third ends, so that the bracket of the second is missing in the window onto it. -/
theorem Window.Heads.item_astray (h : w.Heads (nested 2) depth [])
    (hd : depth + 1 = maxReportedDepth) :
    (w.walk? [.item 0]).map Window.value = some (.error .unexpectedEnd) := by
  obtain ⟨ts, hw, hs⟩ := h
  rw [List.append_nil] at hw
  match ts, hs with
  | [o₁, o₂, o₃, c₃, c₂, c₁], .cons ho₁ (.cons ho₂ (.cons ho₃ (.cons hc₃ _))) =>
    have hkind₂ : o₂.kind = .opening .array := ho₂.kind
    have hkind₃ : o₃.kind = .opening .array := ho₃.kind
    have hclose₃ : c₃.kind = .closing .array := hc₃.kind
    have hdepth₂ : o₂.depth = min (depth + 1) maxReportedDepth := ho₂.depth
    have hdepth₃ : c₃.depth = min (depth + 1 + 1) maxReportedDepth := hc₃.depth
    have hsame : c₃.depth = o₂.depth := by omega
    have hsplit : splitValue [o₂, o₃, c₃, c₂, c₁] = some ([o₂, o₃, c₃], [c₂, c₁]) := by
      simp [splitValue, splitClosing, Token.closesAt, hkind₂, hkind₃, hclose₃, hsame,
        TokenKind.isScalar, TokenKind.isOpening, TokenKind.isClosing]
    have hitem : w.elements[0]? = some (w.onto [o₂, o₃, c₃]) := by
      rw [Window.elements, ← Window.Elements.next_after, Window.elementsStart_of_array hw ho₁.kind,
        Window.Elements.after, Window.Elements.next, hsplit]
    have hvalue : (w.onto [o₂, o₃, c₃]).value = .error .unexpectedEnd := by
      simp [Window.value, Window.onto, Builder.run, Builder.step, Builder.value, Builder.push,
        Builder.closeOr, Builder.deliver, Builder.advance, Frame.closing, maxTreeDepth, hkind₂,
        hkind₃, hclose₃]
    rw [Window.walk?_single]
    show w.elements[0]?.map Window.value = _
    rw [hitem, Option.map_some, hvalue]

/-- So many steps down in nested arrays that the second array left reports the largest depth, there
is a window that decodes, and the step to its only element leads to one that does not. -/
theorem Tokenizer.exists_item_astray (t : Tokenizer) {k : Nat} (hk : k + 1 = maxReportedDepth)
    (hmax : 2 + k < t.settings.maxDepth) : ∃ w : Window,
      ((t.parse (nestedText (2 + k))).1.window (nestedText (2 + k))).walk?
        (List.replicate k (.item 0)) = some w ∧ w.value = .ok (nested 2) ∧
      (w.walk? [.item 0]).map Window.value = some (.error .unexpectedEnd) := by
  have hwalk := (t.parse_nested hmax).2.walk (List.replicate k (.item 0)) (.inl (by
    rw [List.length_replicate]
    omega))
  rw [nested_walk, List.length_replicate, Nat.zero_add] at hwalk
  generalize ((t.parse _).1.window _).walk? _ = reached at hwalk
  cases hwalk with
  | @some w _ hs =>
    obtain ⟨-, rest, hheads, hrest⟩ := hs
    rw [hrest rfl] at hheads
    have hok : w.value = .ok (nested 2) := hheads.value_eq_ok_iff.2 ⟨by decide, rfl, rfl⟩
    exact ⟨w, rfl, hok, hheads.item_astray hk⟩

/-- More than 2³² arrays in each other are accepted where as many may nest.  The window onto the last
three of them decodes, and the window onto the last two, its only element, does not. -/
theorem Tokenizer.exists_walk_astray :
    let t : Tokenizer := { settings := { maxDepth := maxReportedDepth + 2 } }
    (∃ parsed w, (t.parse? (nestedText (maxReportedDepth + 1))).1 = some parsed ∧
      parsed.error = none ∧
      (parsed.window (nestedText (maxReportedDepth + 1))).walk?
        (List.replicate (maxReportedDepth - 1) (.item 0)) = some w ∧
      w.value = .ok (nested 2) ∧ (nested 2).walk? [.item 0] = some (nested 1) ∧
      (w.walk? [.item 0]).map Window.value = some (.error .unexpectedEnd)) ∧
    ¬ ∀ (t : Tokenizer) (text : Bytes) (parsed : Parsed) (way : List Step) (w : Window) (v : Value),
      (t.parse? text).1 = some parsed → parsed.error = none →
      (parsed.window text).walk? way = some w → w.value = .ok v →
      ∀ path, (w.walk? path).map Window.value = (v.walk? path).map .ok := by
  intro t
  -- The depth stays a variable: what is nested so deep is not to be written out.
  obtain ⟨k, hk, hlast⟩ : ∃ k, maxReportedDepth + 1 = 2 + k ∧ maxReportedDepth - 1 = k :=
    ⟨maxReportedDepth - 1, by decide, rfl⟩
  rw [hk, hlast]
  have hmax : 2 + k < t.settings.maxDepth := by
    rw [← hk]
    exact Nat.lt_succ_self _
  have hlength : (nestedText (2 + k)).length ≤ Room.limit := by
    rw [length_nestedText, ← hk]
    decide
  have hparse : (t.parse? (nestedText (2 + k))).1 = some (t.parse (nestedText (2 + k))).1 := by
    rw [t.parse?_of_le hlength (by decide)]
  have herror := (t.parse_nested hmax).1
  obtain ⟨w, hw, hok, hastray⟩ := t.exists_item_astray (by omega) hmax
  refine ⟨⟨_, w, hparse, herror, hw, hok, rfl, hastray⟩, ?_⟩
  intro hall
  have hagree := hall t _ _ _ w _ hparse herror hw hok [.item 0]
  rw [hastray] at hagree
  cases hagree

end FlatJson
