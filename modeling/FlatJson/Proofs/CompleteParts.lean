import FlatJson.Proofs.ValueEnds
import Mathlib.Data.List.Infix

/-!
# Elements and members of texts that break off

The tokens of a refused text are the beginning of those of some document.  Whatever that document is,
the elements and the members of its first value that can be reached from the tokens are those whose
own tokens are all there, at the places where the document has them.

* `Begun` — tokens that show the beginning of some leaves.
* `Tokenizer.exists_begins` — the tokens of any text begin a document.
* `Begun.splitValue` — a value is cut off just when all its tokens are there.
* `placed`, `OntoPart` — where the parts of a container stand, and windows onto them.
* `Window.collect_of_begun`, `Window.fieldRun?_of_begun` — by induction on elements and members.
* `Tokenizer.complete_parts` — elements and fields of the windows of any text.
-/

namespace FlatJson

open Scan (Reached)

/-! ## Completions -/

/-- What is open around a value can be closed after it. -/
theorem Value.exists_closed (v : Value) (outer : List Frame) : ∃ (u : Value) (tail : List Leaf),
    u.leaves 0 = framesLeaves outer ++ v.leaves outer.length ++ tail ∧
      ∀ l ∈ tail, ¬ l.kind.isOpening := by
  induction outer generalizing v with
  | nil => exact ⟨v, [], by simp [framesLeaves], by simp⟩
  | cons frame outer ih =>
    obtain ⟨whole, hwhole⟩ : ∃ whole : Value, whole.leaves outer.length =
        frame.leaves outer.length ++ v.leaves (outer.length + 1) ++
          [.closing frame.container outer.length] := by
      cases frame with
      | array items =>
        refine ⟨.array (v :: items).reverse, ?_⟩
        rw [Value.leaves, itemLeaves_reverse]
        simp [Frame.leaves, Frame.container]
      | object members name =>
        refine ⟨.object ((name, v) :: members).reverse, ?_⟩
        rw [Value.leaves, memberLeaves_reverse]
        simp [Frame.leaves, Frame.container]
    obtain ⟨u, tail, hu, htail⟩ := ih whole
    refine ⟨u, .closing frame.container outer.length :: tail, ?_, ?_⟩
    · rw [hu, hwhole]
      simp [framesLeaves]
    · exact List.forall_mem_cons.2 ⟨Bool.false_ne_true, htail⟩

/-- **A value that is read up to a spot can be completed without opening anything.** -/
theorem Spot.exists_completion (s : Spot) : ∃ (u : Value) (tail : List Leaf),
    u.leaves 0 = s.leaves ++ tail ∧ ∀ l ∈ tail, ¬ l.kind.isOpening := by
  cases s with
  | value frame outer =>
    obtain ⟨u, tail, hu, htail⟩ := Value.null.exists_closed (frame :: outer)
    refine ⟨u, Value.null.leaves (outer.length + 1) ++ tail, ?_, ?_⟩
    · rw [hu, List.append_assoc]
      rfl
    · simpa [Value.leaves, TokenKind.isOpening] using htail
  | name members outer =>
    obtain ⟨u, tail, hu, htail⟩ := Value.null.exists_closed (.object members ⟨[]⟩ :: outer)
    refine ⟨u, .key ⟨[]⟩ (outer.length + 1) :: .colon (outer.length + 1) ::
      (Value.null.leaves (outer.length + 1) ++ tail), ?_, ?_⟩
    · rw [hu]
      simp [framesLeaves, Frame.leaves, Spot.leaves]
    · simpa [Value.leaves, Leaf.key, Leaf.colon, TokenKind.isOpening] using htail
  | colon members key outer =>
    obtain ⟨u, tail, hu, htail⟩ := Value.null.exists_closed (.object members key :: outer)
    refine ⟨u, .colon (outer.length + 1) :: (Value.null.leaves (outer.length + 1) ++ tail), ?_, ?_⟩
    · rw [hu]
      simp [framesLeaves, Frame.leaves, Spot.leaves]
    · simpa [Value.leaves, Leaf.colon, TokenKind.isOpening] using htail
  | after v outer => exact v.exists_closed outer

/-! ## Tokens that begin something -/

/-- The tokens show the beginning of some leaves. -/
def Begun (w : Window) (ts : List Token) (ls : List Leaf) : Prop :=
  ∃ read, read <+: ls ∧ List.Forall₂ (Shows w) ts read

/-- The tokens of the window begin a document of these values. -/
def Window.Begins (w : Window) (roots : List Value) : Prop := Begun w w.tokens (rootLeaves roots)

/-- **The tokens of any text, accepted or refused, begin a document** that the settings admit. -/
theorem Tokenizer.exists_begins (t : Tokenizer) (text : Bytes) : ∃ roots,
    ((t.parse text).1.window text).Begins roots ∧
      (∀ v ∈ roots, v.nesting ≤ t.settings.maxDepth) ∧
      (t.settings.allowsSeveral ∨ roots.length = 1) := by
  obtain ⟨ls, c, hshows, hrun⟩ := t.exists_run text
  have hreached := hrun.reached (spells_of_shows hshows) Reached.start
  rw [List.nil_append] at hreached
  have hdepth := hrun.depth_lt
  generalize (t.parse text).1.window text = w at hshows
  cases hreached with
  | start => exact ⟨[.null], ⟨[], List.nil_prefix, hshows⟩, by simp [Value.nesting], .inr rfl⟩
  | spot roots spot hs =>
    obtain ⟨u, tail, hu, htail⟩ := spot.exists_completion
    have hleaves : rootLeaves (roots ++ [u]) = (rootLeaves roots ++ spot.leaves) ++ tail := by
      simp [rootLeaves, hu]
    refine ⟨roots ++ [u], ⟨_, ?_, hshows⟩, ?_, ?_⟩
    · rw [hleaves]
      exact List.prefix_append _ tail
    · intro v hv
      have hlt : ∀ l ∈ v.leaves 0, l.kind.isOpening → l.depth < t.settings.maxDepth := by
        intro l hl hk
        have hmem : l ∈ rootLeaves (roots ++ [u]) := List.mem_flatMap.2 ⟨v, hv, hl⟩
        rw [hleaves] at hmem
        rcases List.mem_append.1 hmem with hmem | hmem
        · exact hdepth l hmem hk
        · exact absurd hk (htail l hmem)
      have hle : 0 + v.nesting ≤ t.settings.maxDepth := v.nesting_le hlt (Nat.zero_le _)
      rwa [Nat.zero_add] at hle
    · rcases hs with hs | rfl
      · exact .inl hs
      · exact .inr rfl

section

variable {w : Window} {ts : List Token} {t : Token} {ls ms : List Leaf} {l : Leaf} {k : Container}
  {v : Value} {depth start : Nat}

theorem Begun.of_cons (h : Begun w (t :: ts) (l :: ls)) : Shows w t l ∧ Begun w ts ls := by
  obtain ⟨read, hread, hs⟩ := h
  cases hs with
  | @cons _ m _ read ht hs =>
    obtain ⟨rfl, hrest⟩ := List.cons_prefix_cons.1 hread
    exact ⟨ht, read, hrest, hs⟩

/-- If there are tokens for all of some leaves, they show them. -/
theorem Begun.take (h : Begun w ts (ls ++ ms)) (hlen : ls.length ≤ ts.length) :
    List.Forall₂ (Shows w) (ts.take ls.length) ls := by
  obtain ⟨read, hread, hs⟩ := h
  have hle : ls.length ≤ read.length := by rwa [← hs.length_eq]
  obtain ⟨later, rfl⟩ := List.prefix_of_prefix_length_le (List.prefix_append ls ms) hread hle
  have htake := List.forall₂_take ls.length hs
  rwa [List.take_left] at htake

theorem Begun.drop (h : Begun w ts (ls ++ ms)) : Begun w (ts.drop ls.length) ms := by
  obtain ⟨read, hread, hs⟩ := h
  refine ⟨read.drop ls.length, ?_, List.forall₂_drop ls.length hs⟩
  have hdrop := hread.drop ls.length
  rwa [List.drop_left] at hdrop

/-- No more tokens than leaves begin these leaves alone. -/
theorem Begun.of_le (h : Begun w ts (ls ++ ms)) (hlen : ts.length ≤ ls.length) :
    Begun w ts ls := by
  obtain ⟨read, hread, hs⟩ := h
  have hle : read.length ≤ ls.length := by rwa [← hs.length_eq]
  exact ⟨read, List.prefix_of_prefix_length_le hread (List.prefix_append ls ms) hle, hs⟩

/-- A container whose last bracket is missing is not cut off. -/
theorem Begun.splitValue_container (h : Begun w ts (.opening k depth :: ls))
    (hl : ∀ l ∈ ls, depth < l.depth) (hd : depth < maxReportedDepth) : splitValue ts = none := by
  cases ts with
  | nil => rfl
  | cons t ts =>
    obtain ⟨ht, read, hread, hs⟩ := h.of_cons
    have hkind : t.kind = .opening k := ht.kind
    have hdepth : t.depth = depth := ht.depth_of_lt hd
    have hclose : splitClosing depth ts = none := by
      have hall : ∀ u ∈ ts, (!u.closesAt depth) = true := by
        intro u hu
        obtain ⟨m, hm, hshows⟩ := exists_of_forall₂ hs hu
        rw [hshows.not_closesAt (hl m (hread.subset hm)) hd]
        rfl
      rw [splitClosing, List.dropWhile_eq_nil_iff.2 hall]
    rw [FlatJson.splitValue, hkind, hdepth, hclose]
    rfl

/-- A value with tokens missing is not cut off. -/
theorem Begun.splitValue_eq_none (h : Begun w ts (v.leaves depth))
    (hlen : ts.length < (v.leaves depth).length) (hd : depth < maxReportedDepth) :
    splitValue ts = none := by
  have hscalar : (v.leaves depth).length = 1 → splitValue ts = none := by
    intro hone
    obtain rfl : ts = [] := List.length_eq_zero_iff.1 (by omega)
    rfl
  -- The brackets of a container enclose leaves that are deeper.
  have hcontainer : ∀ {k : Container} {inner : List Leaf},
      v.leaves depth = (.opening k depth :: inner) ++ [.closing k depth] →
      (∀ l ∈ inner, depth < l.depth) → splitValue ts = none := by
    intro k inner hv hinner
    rw [hv] at h hlen
    refine (h.of_le ?_).splitValue_container hinner hd
    rw [List.length_append, List.length_singleton] at hlen
    exact Nat.le_of_lt_succ hlen
  cases v with
  | array items => exact hcontainer rfl fun l hl => itemLeaves_le_depth l hl
  | object members => exact hcontainer rfl fun l hl => memberLeaves_le_depth l hl
  | bool b => cases b <;> exact hscalar rfl
  | _ => exact hscalar rfl

/-- **A value is cut off just when all its tokens are there.** -/
theorem Begun.splitValue (h : Begun w ts (v.leaves depth ++ ls)) (hd : depth < maxReportedDepth) :
    FlatJson.splitValue ts = if (v.leaves depth).length ≤ ts.length then
      some (ts.take (v.leaves depth).length, ts.drop (v.leaves depth).length)
    else none := by
  by_cases hlen : (v.leaves depth).length ≤ ts.length
  · have hsplit : FlatJson.splitValue (ts.take (v.leaves depth).length ++
        ts.drop (v.leaves depth).length) =
          some (ts.take (v.leaves depth).length, ts.drop (v.leaves depth).length) :=
      splitValue_of_shows (h.take hlen) fun _ => hd
    rw [List.take_append_drop] at hsplit
    rw [if_pos hlen, hsplit]
  · have hlt := Nat.lt_of_not_le hlen
    rw [if_neg hlen, (h.of_le (Nat.le_of_lt hlt)).splitValue_eq_none hlt hd]

/-- Where a bracket closes, nothing is cut off and nothing comes after a comma. -/
theorem Begun.closing (h : Begun w ts (.closing k depth :: ls)) :
    FlatJson.splitValue ts = none ∧ afterComma ts = [] := by
  cases ts with
  | nil => exact ⟨rfl, rfl⟩
  | cons t ts =>
    have hk : t.kind.isClosing := by
      rw [h.of_cons.1.kind]
      rfl
    exact ⟨splitValue_closing hk, afterComma_closing hk⟩

/-- After a comma, the tokens go on with what the leaves go on with. -/
theorem Begun.comma (h : Begun w ts (.comma depth :: ls)) :
    afterComma ts = ts.drop 1 ∧ Begun w (ts.drop 1) ls := by
  cases ts with
  | nil => exact ⟨rfl, [], List.nil_prefix, .nil⟩
  | cons t ts =>
    obtain ⟨ht, hrest⟩ := h.of_cons
    exact ⟨afterComma_comma ht, hrest⟩

end

/-! ## Parts in their places -/

/-- A part of a container, and where the tokens of its value start and stop. -/
structure Placed (α : Type) where
  part : α
  start : Nat
  stop : Nat

section

variable {α : Type} {value : α → Value} {lead start : Nat} {a : α} {parts : List α} {p : Placed α}

/-- The parts of a container in their places, if the first of them starts at `start`.  The value of
each part is after `lead` tokens of its own, and a comma is before the next part. -/
def placed (value : α → Value) (lead start : Nat) : List α → List (Placed α)
  | [] => []
  | a :: parts =>
    ⟨a, start + lead, start + lead + ((value a).leaves 1).length⟩ ::
      placed value lead (start + lead + ((value a).leaves 1).length + 1) parts

/-- The window has the tokens of the part, which are in their place in the other window. -/
def OntoPart (value : α → Value) (whole w : Window) (p : Placed α) : Prop :=
  w = whole.onto (whole.between p.start p.stop) ∧ w.Heads (value p.part) 1 []

theorem lt_stop_of_mem_placed (h : p ∈ placed value lead start parts) : start < p.stop := by
  induction parts generalizing start with
  | nil => cases h
  | cons a parts ih =>
    rcases List.mem_cons.1 h with rfl | h
    · have hpos := List.length_pos_iff.2 ((value a).leaves_ne_nil 1)
      show start < start + lead + ((value a).leaves 1).length
      omega
    · have hlt := ih h
      omega

/-- If a part is not there in full, no part after it is. -/
theorem not_stop_le_of_mem_placed {bound : Nat}
    (h : ¬ start + lead + ((value a).leaves 1).length ≤ bound)
    (hp : p ∈ placed value lead start (a :: parts)) : ¬ p.stop ≤ bound := by
  rcases List.mem_cons.1 hp with rfl | hp
  · exact h
  · have hlt := lt_stop_of_mem_placed hp
    omega

end

namespace Window

variable {w : Window} {ls : List Leaf} {start : Nat} {k : Container} {depth : Nat}

theorem between_add (w : Window) (start count : Nat) :
    w.between start (start + count) = (w.tokens.drop start).take count := by
  rw [between, Nat.add_sub_cancel_left]

/-- A value whose tokens are all there is cut off at its place. -/
theorem splitValue_of_complete {v : Value}
    (h : Begun w (w.tokens.drop start) (v.leaves depth ++ ls)) (hd : depth < maxReportedDepth)
    (hle : start + (v.leaves depth).length ≤ w.length) :
    splitValue (w.tokens.drop start) =
        some (w.between start (start + (v.leaves depth).length),
          w.tokens.drop (start + (v.leaves depth).length)) ∧
      (w.onto (w.between start (start + (v.leaves depth).length))).Heads v depth [] ∧
      Begun w (w.tokens.drop (start + (v.leaves depth).length)) ls := by
  have hlen : (v.leaves depth).length ≤ (w.tokens.drop start).length := by
    rw [List.length_drop]
    exact Nat.le_sub_of_add_le' hle
  have hsplit := h.splitValue hd
  have hrest := h.drop
  rw [if_pos hlen, List.drop_drop] at hsplit
  rw [List.drop_drop] at hrest
  rw [between_add]
  exact ⟨hsplit, heads_onto (h.take hlen), hrest⟩

/-- A value with tokens missing is not cut off at its place. -/
theorem splitValue_of_missing {v : Value}
    (h : Begun w (w.tokens.drop start) (v.leaves depth ++ ls)) (hd : depth < maxReportedDepth)
    (hlt : ¬ start + (v.leaves depth).length ≤ w.length) :
    splitValue (w.tokens.drop start) = none := by
  have hpos := List.length_pos_iff.2 (v.leaves_ne_nil depth)
  have hlen : ¬ (v.leaves depth).length ≤ (w.tokens.drop start).length := by
    rw [List.length_drop]
    show ¬ (v.leaves depth).length ≤ w.length - start
    omega
  rw [h.splitValue hd, if_neg hlen]

/-- What comes after a comma goes on at the next token. -/
theorem afterComma_of_begun (h : Begun w (w.tokens.drop start) (.comma depth :: ls)) :
    afterComma (w.tokens.drop start) = w.tokens.drop (start + 1) ∧
      Begun w (w.tokens.drop (start + 1)) ls := by
  rw [← List.drop_drop]
  exact h.comma

/-- **The elements from a position on are those whose tokens are all there.** -/
theorem collect_of_begun {items : List Value}
    (h : Begun w (w.tokens.drop start) (itemLeaves 1 items false ++ .closing k depth :: ls)) :
    List.Forall₂ (OntoPart id w) ((Elements.mk w (w.tokens.drop start)).collect [])
      ((placed id 0 start items).filter fun p => p.stop ≤ w.length) := by
  induction items generalizing start with
  | nil =>
    have hnext : (Elements.mk w (w.tokens.drop start)).next = (none, ⟨w, []⟩) := by
      rw [Elements.next, h.closing.1]
    rw [Elements.collect_none hnext]
    exact .nil
  | cons v items ih =>
    have hleaves : itemLeaves 1 (v :: items) false = v.leaves 1 ++ itemLeaves 1 items true := rfl
    rw [hleaves, List.append_assoc] at h
    by_cases hle : start + (v.leaves 1).length ≤ w.length
    · obtain ⟨hsplit, hheads, hrest⟩ := splitValue_of_complete h (by decide) hle
      -- The elements after this one are those after the comma.
      have hlater : List.Forall₂ (OntoPart id w)
          ((Elements.mk w (afterComma (w.tokens.drop (start + (v.leaves 1).length)))).collect [])
          ((placed id 0 (start + (v.leaves 1).length + 1) items).filter
            fun p => p.stop ≤ w.length) := by
        cases items with
        | nil =>
          have hnext : (Elements.mk w []).next = (none, ⟨w, []⟩) := rfl
          rw [hrest.closing.2, Elements.collect_none hnext]
          exact .nil
        | cons u items =>
          rw [itemLeaves_true 1 (List.cons_ne_nil u items)] at hrest
          obtain ⟨hcomma, hafter⟩ := afterComma_of_begun hrest
          rw [hcomma]
          exact ih hafter
      have hnext : (Elements.mk w (w.tokens.drop start)).next =
          (some (w.onto (w.between start (start + (v.leaves 1).length))),
            ⟨w, afterComma (w.tokens.drop (start + (v.leaves 1).length))⟩) := by
        rw [Elements.next, hsplit]
      have hfilter : (placed id 0 start (v :: items)).filter (fun p => p.stop ≤ w.length) =
          ⟨v, start, start + (v.leaves 1).length⟩ ::
            (placed id 0 (start + (v.leaves 1).length + 1) items).filter
              fun p => p.stop ≤ w.length := List.filter_cons_of_pos (decide_eq_true hle)
      rw [Elements.collect_cons hnext, hfilter]
      exact .cons ⟨rfl, hheads⟩ hlater
    · have hnext : (Elements.mk w (w.tokens.drop start)).next = (none, ⟨w, []⟩) := by
        rw [Elements.next, splitValue_of_missing h (by decide) hle]
      have hnone : (placed id 0 start (v :: items)).filter (fun p => p.stop ≤ w.length) = [] := by
        refine List.filter_eq_nil_iff.2 fun p hp => ?_
        simpa using not_stop_le_of_mem_placed hle hp
      rw [Elements.collect_none hnext, hnone]
      exact .nil

/-- The value of a member begins after the name and the colon. -/
theorem begun_value {key : RawText}
    (h : Begun w (w.tokens.drop start) (.key key 1 :: .colon 1 :: ls)) :
    Begun w (w.tokens.drop (start + 2)) ls := by
  have happend : Begun w (w.tokens.drop start) ([.key key 1, .colon 1] ++ ls) := h
  rw [← List.drop_drop]
  exact happend.drop

/-- A member whose value is all there is found by its name, or passed over. -/
theorem fieldRun?_of_complete {key : RawText} {v : Value} (name : String)
    (h : Begun w (w.tokens.drop start) (.key key 1 :: .colon 1 :: (v.leaves 1 ++ ls)))
    (hle : start + 2 + (v.leaves 1).length ≤ w.length) :
    w.fieldRun? name (w.tokens.drop start) =
        (if key.denotes name then some (w.between (start + 2) (start + 2 + (v.leaves 1).length))
          else w.fieldRun? name (afterComma (w.tokens.drop (start + 2 + (v.leaves 1).length)))) ∧
      (w.onto (w.between (start + 2) (start + 2 + (v.leaves 1).length))).Heads v 1 [] ∧
      Begun w (w.tokens.drop (start + 2 + (v.leaves 1).length)) ls := by
  obtain ⟨hsplit, hheads, hrest⟩ := splitValue_of_complete (begun_value h) (by decide) hle
  refine ⟨?_, hheads, hrest⟩
  obtain ⟨t, c, htokens⟩ : ∃ t c, w.tokens.drop start = t :: c :: w.tokens.drop (start + 2) := by
    have hlt : start + 1 < w.tokens.length := by
      show start + 1 < w.length
      omega
    exact ⟨_, _, by rw [List.drop_eq_getElem_cons (by omega), List.drop_eq_getElem_cons hlt]⟩
  rw [htokens] at h ⊢
  have ht := h.of_cons.1
  exact fieldRun?_member ht.kind (ht.rawText_eq rfl) hsplit

/-- A member with tokens missing is not found, nor is any after it. -/
theorem fieldRun?_of_missing {key : RawText} {v : Value} (name : String)
    (h : Begun w (w.tokens.drop start) (.key key 1 :: .colon 1 :: (v.leaves 1 ++ ls)))
    (hlt : ¬ start + 2 + (v.leaves 1).length ≤ w.length) :
    w.fieldRun? name (w.tokens.drop start) = none := by
  have hsplit := splitValue_of_missing (begun_value h) (by decide) hlt
  match htokens : w.tokens.drop start with
  | [] => exact fieldRun?_of_not_key (by simp)
  | [t] => simp [fieldRun?]
  | t :: c :: rest =>
    rw [← List.drop_drop, htokens] at hsplit
    exact fieldRun?_of_unfinished hsplit

/-- **A member is found just when it is the first of its name and the tokens of its value are all
there.** -/
theorem fieldRun?_of_begun {members : List (RawText × Value)} (name : String)
    (h : Begun w (w.tokens.drop start) (memberLeaves 1 members false ++ .closing k depth :: ls)) :
    Option.Rel (fun run p => OntoPart Prod.snd w (w.onto run) p)
      (w.fieldRun? name (w.tokens.drop start))
      ((placed Prod.snd 2 start members).find? fun p =>
        p.stop ≤ w.length && p.part.1.denotes name) := by
  induction members generalizing start with
  | nil =>
    have hnone : w.fieldRun? name (w.tokens.drop start) = none := by
      refine fieldRun?_of_not_key ?_
      cases htokens : w.tokens.drop start with
      | nil => simp
      | cons t ts =>
        rw [htokens] at h
        have hk : t.kind = .closing k := h.of_cons.1.kind
        simp [hk]
    rw [hnone]
    exact .none
  | cons m members ih =>
    obtain ⟨key, v⟩ := m
    have hleaves : memberLeaves 1 ((key, v) :: members) false ++ .closing k depth :: ls =
        .key key 1 :: .colon 1 ::
          (v.leaves 1 ++ (memberLeaves 1 members true ++ .closing k depth :: ls)) := by
      simp [memberLeaves]
    rw [hleaves] at h
    by_cases hle : start + 2 + (v.leaves 1).length ≤ w.length
    · obtain ⟨hfield, hheads, hrest⟩ := fieldRun?_of_complete name h hle
      -- The members after this one are those after the comma.
      have hlater : Option.Rel (fun run p => OntoPart Prod.snd w (w.onto run) p)
          (w.fieldRun? name (afterComma (w.tokens.drop (start + 2 + (v.leaves 1).length))))
          ((placed Prod.snd 2 (start + 2 + (v.leaves 1).length + 1) members).find? fun p =>
            p.stop ≤ w.length && p.part.1.denotes name) := by
        cases members with
        | nil =>
          rw [hrest.closing.2, fieldRun?_of_not_key (by simp)]
          exact .none
        | cons u members =>
          rw [memberLeaves_true 1 (List.cons_ne_nil u members)] at hrest
          obtain ⟨hcomma, hafter⟩ := afterComma_of_begun hrest
          rw [hcomma]
          exact ih hafter
      rw [hfield, placed, List.find?_cons]
      simp only [decide_eq_true hle, Bool.true_and]
      cases key.denotes name with
      | true => exact .some ⟨rfl, hheads⟩
      | false => exact hlater
    · have hnone : ((placed Prod.snd 2 start ((key, v) :: members)).find? fun p =>
          p.stop ≤ w.length && p.part.1.denotes name) = none := by
        refine List.find?_eq_none.2 fun p hp => ?_
        simp [not_stop_le_of_mem_placed hle hp]
      rw [fieldRun?_of_missing name h hle, hnone]
      exact .none

/-! ## The first value of a document -/

variable {roots : List Value} {t : Token} {ts : List Token}

/-- Tokens that begin a document begin its first value, and an opening bracket tells what it is. -/
theorem Begins.first (h : w.Begins roots) (htokens : w.tokens = t :: ts) : ∃ v later,
    roots = v :: later ∧ Begun w (w.tokens.drop 1) ((v.leaves 0).drop 1 ++ rootLeaves later) ∧
      (t.kind = .opening .array → ∃ items, v = .array items) ∧
      (t.kind = .opening .object → ∃ members, v = .object members) := by
  rw [Begins, htokens] at h
  cases roots with
  | nil =>
    obtain ⟨read, hread, hs⟩ := h
    rw [List.prefix_nil.1 hread] at hs
    cases hs
  | cons v later =>
    have hbegun : Begun w (t :: ts) (v.leaves 0 ++ rootLeaves later) := h
    obtain ⟨l, ls, hleaves, harray, hobject⟩ := v.leaves_head 0
    rw [hleaves, List.cons_append] at hbegun
    obtain ⟨hl, hrest⟩ := hbegun.of_cons
    refine ⟨v, later, rfl, ?_, by rwa [hl.kind], by rwa [hl.kind]⟩
    rw [htokens, hleaves]
    exact hrest

/-- **The elements are those of the first array that are there in full**, at their places. -/
theorem Begins.elements (h : w.Begins roots) (htokens : w.tokens = t :: ts)
    (hk : t.kind = .opening .array) : ∃ items later, roots = .array items :: later ∧
      List.Forall₂ (OntoPart id w) w.elements
        ((placed id 0 1 items).filter fun p => p.stop ≤ w.length) := by
  obtain ⟨v, later, rfl, hbegun, harray, -⟩ := h.first htokens
  obtain ⟨items, rfl⟩ := harray hk
  have hstart : w.elementsStart = ⟨w, w.tokens.drop 1⟩ := by
    rw [elementsStart_of_array htokens hk, htokens, List.drop_succ_cons, List.drop_zero]
  rw [Value.leaves, List.drop_succ_cons, List.drop_zero, List.append_assoc] at hbegun
  refine ⟨items, later, rfl, ?_⟩
  rw [Window.elements, hstart]
  exact collect_of_begun hbegun

/-- **The field is the first member of the first object with that name**, if it is there in full;
names are compared unescaped. -/
theorem Begins.field? (h : w.Begins roots) (htokens : w.tokens = t :: ts)
    (hk : t.kind = .opening .object) : ∃ members later, roots = .object members :: later ∧
      ∀ name : String, Option.Rel (OntoPart Prod.snd w) (w.field? name)
        ((placed Prod.snd 2 1 members).find? fun p =>
          p.stop ≤ w.length && p.part.1.decode.toOption == some name.toList) := by
  obtain ⟨v, later, rfl, hbegun, -, hobject⟩ := h.first htokens
  obtain ⟨members, rfl⟩ := hobject hk
  have hdrop : w.tokens.drop 1 = ts := by rw [htokens, List.drop_succ_cons, List.drop_zero]
  rw [Value.leaves, List.drop_succ_cons, List.drop_zero, List.append_assoc] at hbegun
  refine ⟨members, later, rfl, fun name => ?_⟩
  rw [field?_of_object htokens hk, ← hdrop]
  simp only [← RawText.denotes_eq]
  exact rel_map_left (fieldRun?_of_begun name hbegun) fun _ _ hpart => hpart

end Window

/-- **What can be reached in a text that breaks off is all that is complete, and nothing else.**
The tokens of a text, accepted or refused, begin a document that the settings admit.  Take any
document that they begin.  If the first token opens an array, the elements are, in order, those of
its first value whose tokens are all there, each with just these tokens, and after them there is
nothing for good.  If it opens an object, there is a field of a name just when a member of its first
value with that name has a value whose tokens are all there, and then it is the first such member. -/
theorem Tokenizer.complete_parts (t : Tokenizer) (text : Bytes) :
    (∃ roots, ((t.parse text).1.window text).Begins roots ∧
      (∀ v ∈ roots, v.nesting ≤ t.settings.maxDepth) ∧
      (t.settings.allowsSeveral ∨ roots.length = 1)) ∧
    let w := (t.parse text).1.window text
    ∀ roots, w.Begins roots → ∀ first rest, w.tokens = first :: rest →
      (first.kind = .opening .array → ∃ items later, roots = .array items :: later ∧
        List.Forall₂ (OntoPart id w) w.elements
          ((placed id 0 1 items).filter fun p => p.stop ≤ w.length) ∧
        ∀ n, (w.elementsStart.after n).next.1 = w.elements[n]?) ∧
      (first.kind = .opening .object → ∃ members later, roots = .object members :: later ∧
        ∀ name : String, Option.Rel (OntoPart Prod.snd w) (w.field? name)
          ((placed Prod.snd 2 1 members).find? fun p =>
            p.stop ≤ w.length && p.part.1.decode.toOption == some name.toList)) := by
  refine ⟨t.exists_begins text, ?_⟩
  intro w roots hbegins first rest htokens
  constructor
  · intro hk
    obtain ⟨items, later, rfl, helements⟩ := hbegins.elements htokens hk
    exact ⟨items, later, rfl, helements, Window.Elements.next_after w.elementsStart⟩
  · exact hbegins.field? htokens

/-- The text `[{},[1` breaks off in its second element. -/
example : ((({} : Tokenizer).parse [0x5B, 0x7B, 0x7D, 0x2C, 0x5B, 0x31]).1.window
    [0x5B, 0x7B, 0x7D, 0x2C, 0x5B, 0x31]).elements.map Window.tokens =
      [[⟨.opening .object, 1, 1, 1⟩, ⟨.closing .object, 1, 2, 1⟩]] := by
  decide +kernel

end FlatJson
