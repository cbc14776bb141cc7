import FlatJson.Proofs.Navigation

/-!
# The value of a whole text

The window onto all tokens of an accepted text holds the value of the text, unless the text has more
than one value or the first one nests too deep.

* `Window.firstOpening` — the first token that opens a container at a depth.
* `Window.value_of_roots` — what a window onto several values decodes to.
* `parseValue_eq_ok_iff` — the texts that have a value, and which one.
* `Tokenizer.value_determined` — all cases together.
-/

namespace FlatJson

/-! ## Tokens that open a container -/

/-- The index of the first token that opens a container at the depth. -/
def Window.firstOpening (w : Window) (depth : Nat) : Option Nat :=
  w.tokens.findIdx? fun t => t.kind.isOpening && t.depth == depth

/-- Tokens open containers where their leaves do, at all depths that tokens tell apart. -/
theorem findIdx?_opening {w : Window} {ts : List Token} {ls : List Leaf} {depth : Nat}
    (h : List.Forall₂ (Shows w) ts ls) (hd : depth < maxReportedDepth) :
    ts.findIdx? (fun t => t.kind.isOpening && t.depth == depth) = firstDeep depth ls := by
  unfold firstDeep
  induction h with
  | nil => rfl
  | @cons t l ts ls hs _ ih =>
    have hdepth : (t.depth == depth) = (l.depth == depth) := by
      rw [Bool.eq_iff_iff, beq_iff_eq, beq_iff_eq, hs.depth]
      omega
    rw [List.findIdx?_cons, List.findIdx?_cons, ih, hs.kind, hdepth]

section

variable {w : Window} {v : Value} {roots : List Value}

/-- A first value that nests too deep is refused at the first token that opens too deep. -/
theorem Window.value_of_deep (h : List.Forall₂ (Shows w) w.tokens (rootLeaves (v :: roots)))
    (hv : maxTreeDepth < v.nesting) :
    ∃ i, w.firstOpening maxTreeDepth = some i ∧ w.value = .error (.depthLimitExceeded i) := by
  obtain ⟨ts, rest, hw, hs, -⟩ := forall₂_append_right (m := v.leaves 0) h
  have hvalue := Window.value_of_shows hw hs
  rw [Nat.zero_add] at hvalue
  cases hdeep : firstDeep maxTreeDepth (v.leaves 0) with
  | none =>
    have hle := (firstDeep_eq_none_iff v 0 maxTreeDepth).1 (by rwa [Nat.zero_add])
    omega
  | some i =>
    refine ⟨i, ?_, by rw [hvalue, hdeep]⟩
    have hall : w.firstOpening maxTreeDepth = firstDeep maxTreeDepth (rootLeaves (v :: roots)) :=
      findIdx?_opening h (by decide)
    rw [hall, rootLeaves, List.flatMap_cons, firstDeep_append, hdeep, Option.some_or]

/-- Tokens after the first value are refused where that value ends. -/
theorem Window.value_of_several (h : List.Forall₂ (Shows w) w.tokens (rootLeaves (v :: roots)))
    (hv : v.nesting ≤ maxTreeDepth) (hr : roots ≠ []) :
    ∃ n, w.valueEnd 0 = some n ∧ List.Forall₂ (Shows w) (w.tokens.drop n) (rootLeaves roots) ∧
      w.value = .error (.trailingTokens n) := by
  obtain ⟨ts, rest, hw, hs, hrest⟩ := forall₂_append_right (m := v.leaves 0) h
  have hsplit : splitValue w.tokens = some (ts, rest) := by
    rw [hw]
    exact splitValue_of_shows hs fun _ => by decide
  have hne : rest.isEmpty = false := by
    cases roots with
    | nil => exact absurd rfl hr
    | cons u roots =>
      cases rest with
      | nil =>
        have hnil := List.forall₂_nil_left_iff.1 hrest
        exact absurd (List.append_eq_nil_iff.1 hnil).1 (u.leaves_ne_nil 0)
      | cons t rest => rfl
  refine ⟨ts.length, ?_, ?_, ?_⟩
  · rw [Window.valueEnd, List.drop_zero, hsplit]
    exact congrArg some (Nat.zero_add ts.length)
  · rw [hw, List.drop_left]
    exact hrest
  · have hdeep := (firstDeep_eq_none_iff v 0 maxTreeDepth).2 hv
    rw [Window.value_of_shows hw hs, hdeep, hne]
    rfl

/-- One value and nothing else is the value of the window. -/
theorem Window.value_of_one (h : List.Forall₂ (Shows w) w.tokens (rootLeaves [v]))
    (hv : v.nesting ≤ maxTreeDepth) : w.value = .ok v := by
  rw [rootLeaves_singleton] at h
  exact (Window.value_eq_ok_iff (List.append_nil w.tokens).symm h).2 ⟨hv, rfl, rfl⟩

end

/-! ## Values of texts -/

/-- What the default settings accept is one value that nests no deeper than values may. -/
theorem exists_written_of_accepted {text : Bytes}
    (h : (({} : Tokenizer).parse text).1.error = none) :
    ∃ v, WrittenText [v] text ∧ v.nesting ≤ maxTreeDepth := by
  obtain ⟨roots, hr, hn, hs⟩ := (Tokenizer.parse_error_eq_none_iff {} text).1 h
  obtain ⟨v, rfl⟩ := List.length_eq_one_iff.1 (hs.resolve_left nofun)
  exact ⟨v, hr, hn v List.mem_cons_self⟩

theorem accepted_of_written {text : Bytes} {v : Value} (h : WrittenText [v] text)
    (hv : v.nesting ≤ maxTreeDepth) : (({} : Tokenizer).parse text).1.error = none := by
  refine (Tokenizer.parse_error_eq_none_iff {} text).2 ⟨[v], h, ?_, .inr rfl⟩
  intro u hu
  rwa [List.mem_singleton.1 hu]

theorem parseValue_of_error {text : Bytes} {e : LexError}
    (h : (({} : Tokenizer).parse text).1.error = some e) :
    (parseValue text).1 = .error (.syntactic e) := by
  simp only [parseValue, h]

/-- A value written down, with the nesting that values may have, is read back. -/
theorem parseValue_of_written {text : Bytes} {v : Value} (h : WrittenText [v] text)
    (hv : v.nesting ≤ maxTreeDepth) : (parseValue text).1 = .ok v := by
  have herror := accepted_of_written h hv
  have hshow := Tokenizer.tokens_show_leaves {} herror h
  simp only [parseValue, herror, Window.value_of_one hshow hv]

/-- **A text has a value just when it is that value written down, with the nesting that values may
have.** -/
theorem parseValue_eq_ok_iff {text : Bytes} {v : Value} :
    (parseValue text).1 = .ok v ↔ WrittenText [v] text ∧ v.nesting ≤ maxTreeDepth := by
  constructor
  · intro h
    cases herror : (({} : Tokenizer).parse text).1.error with
    | some e =>
      rw [parseValue_of_error herror] at h
      cases h
    | none =>
      obtain ⟨u, hu, hn⟩ := exists_written_of_accepted herror
      rw [parseValue_of_written hu hn] at h
      cases h
      exact ⟨hu, hn⟩
  · rintro ⟨h, hv⟩
    exact parseValue_of_written h hv

/-! ## All cases -/

/-- **What the window onto an accepted text decodes to.**  The first value decides: one that nests
too deep is refused at the first token that opens too deep, else a second value is refused at its
first token, and else the value is that of the text.  With default settings only the first error
of the scan stands in the way of a value. -/
theorem Tokenizer.value_determined (t : Tokenizer) (text : Bytes) :
    ((t.parse text).1.error = none →
      (∃ v roots, WrittenText (v :: roots) text) ∧
      ∀ v roots, WrittenText (v :: roots) text → ∀ w, w = (t.parse text).1.window text →
        (maxTreeDepth < v.nesting →
          ∃ i, w.firstOpening maxTreeDepth = some i ∧ w.value = .error (.depthLimitExceeded i)) ∧
        (v.nesting ≤ maxTreeDepth → roots ≠ [] →
          ∃ n, w.valueEnd 0 = some n ∧
            List.Forall₂ (Shows w) (w.tokens.drop n) (rootLeaves roots) ∧
            w.value = .error (.trailingTokens n)) ∧
        (v.nesting ≤ maxTreeDepth → roots = [] → w.value = .ok v)) ∧
    ((({} : Tokenizer).parse text).1.error = none →
      ∃ v, WrittenText [v] text ∧ (parseValue text).1 = .ok v) ∧
    (∀ e, (({} : Tokenizer).parse text).1.error = some e →
      (parseValue text).1 = .error (.syntactic e)) := by
  refine ⟨fun h => ⟨?_, ?_⟩, ?_, fun _ he => parseValue_of_error he⟩
  · obtain ⟨roots, hr, -, -⟩ := (t.parse_error_eq_none_iff text).1 h
    cases roots with
    | nil => cases hr
    | cons v roots => exact ⟨v, roots, hr⟩
  · rintro v roots hr w rfl
    have hshow := t.tokens_show_leaves h hr
    refine ⟨Window.value_of_deep hshow, Window.value_of_several hshow, ?_⟩
    rintro hv rfl
    exact Window.value_of_one hshow hv
  · intro h
    obtain ⟨v, hr, hn⟩ := exists_written_of_accepted h
    exact ⟨v, hr, parseValue_of_written hr hn⟩

/-- The text `1 2`, where several values are allowed. -/
theorem Tokenizer.value_determined_pair :
    (({ settings := { allowsSeveral := true } } : Tokenizer).parse
      [0x31, 0x20, 0x32]).1.error = none ∧
    WrittenText [.number ⟨[0x31]⟩, .number ⟨[0x32]⟩] [0x31, 0x20, 0x32] ∧
    ((({ settings := { allowsSeveral := true } } : Tokenizer).parse
      [0x31, 0x20, 0x32]).1.window [0x31, 0x20, 0x32]).value = .error (.trailingTokens 1) := by
  have herror : (({ settings := { allowsSeveral := true } } : Tokenizer).parse
      [0x31, 0x20, 0x32]).1.error = none := by decide
  have hnumber : ∀ b, Byte.isDigit b → b ≠ 0x30 → IsNumber [b] := fun b hb h0 =>
    @IsNumber.mk [] [b] [] [] (by decide) (.digits hb h0 nofun) .absent .absent
  have hblank : Blank [0x20] := fun b hb => by rw [List.mem_singleton.1 hb]; rfl
  have hapart : ¬ StartsWithDigit [0x20, 0x32] := by
    rintro ⟨b, hb, hd⟩
    cases hb
    cases hd
  have hwritten : WrittenText [.number ⟨[0x31]⟩, .number ⟨[0x32]⟩] [0x31, 0x20, 0x32] :=
    @WrittenText.more _ _ [] [0x31] [0x20, 0x32] .nil (.number (hnumber _ rfl (by decide)))
      (@WrittenText.one _ [0x20] [0x32] [] hblank (.number (hnumber _ rfl (by decide))) .nil)
      fun _ => hapart
  refine ⟨herror, hwritten, ?_⟩
  obtain ⟨-, hseveral, -⟩ := ((Tokenizer.value_determined _ _).1 herror).2 _ _ hwritten _ rfl
  obtain ⟨n, hend, -, hvalue⟩ := hseveral (by decide) nofun
  obtain rfl : 1 = n := Option.some.inj (Eq.trans (by decide) hend)
  exact hvalue

end FlatJson
