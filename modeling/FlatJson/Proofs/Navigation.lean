import FlatJson.Proofs.Building

/-!
# Ways through windows and through values

A window can be walked by its tokens alone, and the value that it holds can be walked as a tree.
Both walks take the same steps and reach the same values.

* `Step`, `Window.walk?`, `Value.walk?` — steps down, and where they lead.
* `splitValue_of_shows` — the tokens of a value end where they seem to end.
* `Window.Heads` — a window starts with the tokens of a value.
* `Elements.Ahead`, `Elements.after` — the elements still to come, and the calls that deliver them.
* `Window.Heads.step`, `Window.Heads.walk` — one step and many, in windows and in values.
* `Window.Heads.walk_value` — the values of the windows that steps lead to.
-/

namespace FlatJson

/-! ## Related options -/

section Related

variable {α β γ δ : Type} {r : α → β → Prop} {a : Option α} {b : Option β}

theorem rel_imp {q : α → β → Prop} (h : Option.Rel r a b) (hq : ∀ x y, r x y → q x y) :
    Option.Rel q a b := by
  cases h with
  | none => exact .none
  | some h => exact .some (hq _ _ h)

theorem rel_map_left {q : γ → β → Prop} {f : α → γ} (h : Option.Rel r a b)
    (hf : ∀ x y, r x y → q (f x) y) : Option.Rel q (a.map f) b := by
  cases h with
  | none => exact .none
  | some h => exact .some (hf _ _ h)

theorem rel_bind {q : γ → δ → Prop} {f : α → Option γ} {g : β → Option δ} (h : Option.Rel r a b)
    (hf : ∀ x y, b = some y → r x y → Option.Rel q (f x) (g y)) :
    Option.Rel q (a.bind f) (b.bind g) := by
  cases h with
  | none => exact .none
  | some h => exact hf _ _ rfl h

theorem forall₂_getElem? {l : List α} {m : List β} (h : List.Forall₂ r l m) (n : Nat) :
    Option.Rel r l[n]? m[n]? := by
  induction h generalizing n with
  | nil => exact .none
  | cons h _ ih =>
    cases n with
    | zero => exact .some h
    | succ n => exact ih n

end Related

/-! ## Ways -/

/-- One step down. -/
inductive Step where
  | member (name : String)
  | item (index : Nat)

/-- The window that a step leads to. -/
def Window.step? (w : Window) : Step → Option Window
  | .member name => w.field? name
  | .item index => w.elements[index]?

def Value.step? (v : Value) : Step → Option Value
  | .member name => v.member? name
  | .item index => v.item? index

/-- The window that steps lead to. -/
def Window.walk? (w : Window) (way : List Step) : Option Window := way.foldlM Window.step? w

def Value.walk? (v : Value) (way : List Step) : Option Value := way.foldlM Value.step? v

/-! ## Where values end -/

variable {w : Window} {ts rest : List Token} {t c : Token} {l : Leaf} {ls : List Leaf}
  {k : Container} {v : Value} {depth : Nat}

theorem Shows.depth_of_lt (h : Shows w t l) (hd : l.depth < maxReportedDepth) :
    t.depth = l.depth := by
  rw [h.depth, Nat.min_eq_left (Nat.le_of_lt hd)]

/-- What is deeper does not close at the depth, even if it reports too little. -/
theorem Shows.not_closesAt (h : Shows w t l) (hl : depth < l.depth)
    (hd : depth < maxReportedDepth) : t.closesAt depth = false := by
  have hne : t.depth ≠ depth := by
    rw [h.depth]
    omega
  simp [Token.closesAt, hne]

/-- Inside a container that shows, the first token that reports to close at its depth is the bracket
that closes it, if depths below it are told apart wherever a bracket closes there. -/
theorem splitClosing_of_shows (h : List.Forall₂ (Shows w) ts ls)
    (hc : Shows w c (.closing k depth))
    (hl : ∀ l ∈ ls, l.kind.isClosing → depth < l.depth ∧ depth < maxReportedDepth) :
    splitClosing c.depth (ts ++ c :: rest) = some (ts ++ [c], rest) := by
  have hdepth : c.depth = min depth maxReportedDepth := hc.depth
  -- Depths that are too large for a token are still reported as more than this one.
  have hin : ∀ t ∈ ts, (!t.closesAt c.depth) = true := by
    intro t ht
    obtain ⟨l, hmem, hs⟩ := exists_of_forall₂ h ht
    by_cases hclosing : l.kind.isClosing
    · obtain ⟨hlt, hd⟩ := hl l hmem hclosing
      rw [hdepth, Nat.min_eq_left (Nat.le_of_lt hd), hs.not_closesAt hlt hd]
      rfl
    · simp [Token.closesAt, hs.kind, hclosing]
  have hclose : c.closesAt c.depth = true := by
    have hkind : c.kind = .closing k := hc.kind
    simp [Token.closesAt, hkind, TokenKind.isClosing]
  unfold splitClosing
  rw [List.dropWhile_append_of_pos hin, List.takeWhile_append_of_pos hin]
  simp [hclose]

theorem splitValue_scalar (h : Shows w t l) (hk : l.kind.isScalar) :
    splitValue (t :: rest) = some ([t], rest) := by
  have hscalar : t.kind.isScalar := by rwa [h.kind]
  rw [splitValue, if_pos hscalar]

theorem splitValue_container
    (h : List.Forall₂ (Shows w) ts (.opening k depth :: (ls ++ [.closing k depth])))
    (hl : ∀ l ∈ ls, l.kind.isClosing → depth < l.depth ∧ depth < maxReportedDepth) :
    splitValue (ts ++ rest) = some (ts, rest) := by
  cases h with
  | @cons o _ ts _ ho h =>
    obtain ⟨ti, tc, rfl, hi, hc⟩ := forall₂_append_right h
    cases hc with
    | @cons c _ _ _ hc hnil =>
      cases hnil
      have hkind : o.kind = .opening k := ho.kind
      have hdepth : o.depth = c.depth := ho.depth.trans hc.depth.symm
      have hsplit : splitClosing c.depth (ti ++ c :: rest) = some (ti ++ [c], rest) :=
        splitClosing_of_shows hi hc hl
      have hopening : o.kind.isOpening := by rw [hkind]; rfl
      have hscalar : ¬ o.kind.isScalar := by rw [hkind]; exact Bool.false_ne_true
      rw [List.cons_append, List.append_assoc, List.singleton_append, splitValue,
        if_neg hscalar, if_pos hopening, hdepth, hsplit]
      rfl

/-- A value that no container is in has one leaf. -/
theorem Value.leaves_of_flat (h : v.nesting = 0) (depth : Nat) :
    ∃ l, v.leaves depth = [l] ∧ l.kind.isScalar := by
  cases v with
  | array items => cases h
  | object members => cases h
  | bool b => cases b <;> exact ⟨_, rfl, rfl⟩
  | _ => exact ⟨_, rfl, rfl⟩

theorem Value.not_closing_of_flat (h : v.nesting = 0) (hl : l ∈ v.leaves depth) :
    ¬ l.kind.isClosing := by
  obtain ⟨m, hm, hk⟩ := Value.leaves_of_flat h depth
  rw [hm, List.mem_singleton] at hl
  rw [hl]
  exact TokenKind.not_isClosing_of_isScalar hk

theorem not_closing_of_flat_items {items : List Value} {comma : Bool} (h : nestingItems items = 0)
    (hl : l ∈ itemLeaves depth items comma) : ¬ l.kind.isClosing := by
  induction items generalizing comma with
  | nil => cases hl
  | cons v items ih =>
    have hzero : v.nesting = 0 ∧ nestingItems items = 0 := by
      rw [nestingItems] at h
      omega
    rw [itemLeaves, List.mem_append, List.mem_append] at hl
    rcases hl with hl | hl | hl
    · cases comma
      · cases hl
      · rw [List.mem_singleton.1 hl]
        exact Bool.false_ne_true
    · exact Value.not_closing_of_flat hzero.1 hl
    · exact ih hzero.2 hl

theorem not_closing_of_flat_members {members : List (RawText × Value)} {comma : Bool}
    (h : nestingMembers members = 0) (hl : l ∈ memberLeaves depth members comma) :
    ¬ l.kind.isClosing := by
  induction members generalizing comma with
  | nil => cases hl
  | cons m members ih =>
    obtain ⟨name, v⟩ := m
    have hzero : v.nesting = 0 ∧ nestingMembers members = 0 := by
      rw [nestingMembers] at h
      omega
    rw [memberLeaves, List.mem_append, List.mem_cons, List.mem_cons, List.mem_append] at hl
    rcases hl with hl | rfl | rfl | hl | hl
    · cases comma
      · cases hl
      · rw [List.mem_singleton.1 hl]
        exact Bool.false_ne_true
    · exact Bool.false_ne_true
    · exact Bool.false_ne_true
    · exact Value.not_closing_of_flat hzero.1 hl
    · exact ih hzero.2 hl

/-- The tokens of a value end where its containers end, whatever comes next.  Only where containers
nest in it must the depth be one that tokens tell from the next. -/
theorem splitValue_of_shows (h : List.Forall₂ (Shows w) ts (v.leaves depth))
    (hd : 1 < v.nesting → depth < maxReportedDepth) :
    splitValue (ts ++ rest) = some (ts, rest) := by
  cases v with
  | array items =>
    refine splitValue_container h fun l hl hk => ?_
    have hlt : depth < l.depth := itemLeaves_le_depth l hl
    refine ⟨hlt, hd ?_⟩
    by_contra hflat
    rw [Value.nesting] at hflat
    exact not_closing_of_flat_items (by omega) hl hk
  | object members =>
    refine splitValue_container h fun l hl hk => ?_
    have hlt : depth < l.depth := memberLeaves_le_depth l hl
    refine ⟨hlt, hd ?_⟩
    by_contra hflat
    rw [Value.nesting] at hflat
    exact not_closing_of_flat_members (by omega) hl hk
  | bool b => cases b <;> cases h with | cons hs hnil => cases hnil; exact splitValue_scalar hs rfl
  | _ => cases h with | cons hs hnil => cases hnil; exact splitValue_scalar hs rfl

theorem splitValue_closing (h : c.kind.isClosing) : splitValue (c :: rest) = none := by
  unfold splitValue
  cases hk : c.kind <;> simp_all [TokenKind.isClosing, TokenKind.isScalar, TokenKind.isOpening]

theorem afterComma_closing (h : c.kind.isClosing) : afterComma (c :: rest) = [] := by
  have hne : c.kind ≠ .comma := by
    intro hk
    rw [hk] at h
    cases h
  rw [afterComma, if_neg hne]

theorem afterComma_comma (h : Shows w c (.comma depth)) : afterComma (c :: rest) = rest := by
  have hk : c.kind = .comma := h.kind
  rw [afterComma, if_pos hk]

/-! ## Windows that start with a value -/

theorem Shows.onto (h : Shows w t l) (us : List Token) : Shows (w.onto us) t l :=
  ⟨h.spells, h.kind, h.depth, h.lexeme, h.extent⟩

/-- The window starts with the tokens of a value at a depth; the others come after. -/
def Window.Heads (w : Window) (v : Value) (depth : Nat) (rest : List Token) : Prop :=
  ∃ ts, w.tokens = ts ++ rest ∧ List.Forall₂ (Shows w) ts (v.leaves depth)

/-- Only containers start with an opening bracket, each with its own. -/
theorem Value.leaves_head (v : Value) (depth : Nat) : ∃ l ls, v.leaves depth = l :: ls ∧
    (l.kind = .opening .array → ∃ items, v = .array items) ∧
    (l.kind = .opening .object → ∃ members, v = .object members) := by
  cases v with
  | array items => exact ⟨_, _, rfl, fun _ => ⟨items, rfl⟩, nofun⟩
  | object members => exact ⟨_, _, rfl, nofun, fun _ => ⟨members, rfl⟩⟩
  | bool b => cases b <;> exact ⟨_, _, rfl, nofun, nofun⟩
  | _ => exact ⟨_, _, rfl, nofun, nofun⟩

theorem Window.Heads.head (h : w.Heads v depth rest) : ∃ t us, w.tokens = t :: us ∧
    (t.kind = .opening .array → ∃ items, v = .array items) ∧
    (t.kind = .opening .object → ∃ members, v = .object members) := by
  obtain ⟨ts, hw, hs⟩ := h
  obtain ⟨l, ls, hl, ha, ho⟩ := v.leaves_head depth
  rw [hl] at hs
  cases hs with
  | cons ht _ => exact ⟨_, _, hw, by rwa [ht.kind], by rwa [ht.kind]⟩

theorem Window.heads_onto (h : List.Forall₂ (Shows w) ts (v.leaves depth)) :
    (w.onto ts).Heads v depth [] :=
  ⟨ts, (List.append_nil ts).symm, h.imp fun _ _ hs => hs.onto ts⟩

theorem Window.Heads.value_eq_ok_iff {u : Value} (h : w.Heads v depth rest) :
    w.value = .ok u ↔ v.nesting ≤ maxTreeDepth ∧ rest = [] ∧ u = v := by
  obtain ⟨ts, hw, hs⟩ := h
  exact Window.value_eq_ok_iff hw hs

/-! ## Parts of a value -/

theorem Value.nesting_le_of_mem_members {members : List (RawText × Value)} {m : RawText × Value}
    (h : m ∈ members) : m.2.nesting ≤ nestingMembers members := by
  induction members with
  | nil => cases h
  | cons u members ih =>
    rw [nestingMembers]
    rcases List.mem_cons.1 h with rfl | h
    · exact Nat.le_max_left _ _
    · exact Nat.le_trans (ih h) (Nat.le_max_right _ _)

theorem Value.member?_eq (v : Value) (name : String) : v.member? name =
    ((v.asObject?.getD []).find? fun m => m.1.denotes name).map Prod.snd := by
  cases v with
  | object members =>
    show ((members.find? fun m => m.1.denotes name).bind fun m => some m.2) = _
    rw [Option.map_eq_bind]
    rfl
  | _ => rfl

theorem Value.item?_eq (v : Value) (n : Nat) : v.item? n = (v.asArray?.getD [])[n]? := by
  cases v <;> rfl

theorem Value.walk?_cons (v : Value) (s : Step) (way : List Step) :
    v.walk? (s :: way) = (v.step? s).bind fun v' => v'.walk? way :=
  rfl

theorem Value.walk?_single (v : Value) (s : Step) : v.walk? [s] = v.step? s := by
  rw [Value.walk?_cons]
  exact Option.bind_fun_some _

/-- A part nests less deep than the whole. -/
theorem Value.nesting_lt_of_step {v' : Value} {s : Step} (h : v.step? s = some v') :
    v'.nesting < v.nesting := by
  cases s with
  | member name =>
    cases v with
    | object members =>
      have hm : (Value.object members).member? name = some v' := h
      rw [Value.member?_eq] at hm
      obtain ⟨m, hfind, rfl⟩ := Option.map_eq_some_iff.1 hm
      rw [Value.nesting]
      exact Nat.lt_succ_of_le (Value.nesting_le_of_mem_members (List.mem_of_find?_eq_some hfind))
    | _ => cases h
  | item n =>
    cases v with
    | array items =>
      have hm : items[n]? = some v' := h
      rw [Value.nesting]
      exact Nat.lt_succ_of_le (Value.nesting_le_of_mem (List.mem_of_getElem? hm))
    | _ => cases h

/-! ## Elements -/

namespace Window

/-- The elements that are still to come, and then a closing bracket or nothing. -/
inductive Elements.Ahead (e : Elements) (depth : Nat) : List Value → Prop
  | last : splitValue e.pending = none → Elements.Ahead e depth []
  | more {v : Value} {items : List Value} {ts rest : List Token} {c : Token} :
      e.pending = ts ++ c :: rest →
      List.Forall₂ (Shows e.window) ts (itemLeaves depth (v :: items) false) →
      c.kind.isClosing → Elements.Ahead e depth (v :: items)

variable {e : Elements} {items : List Value}

/-- All elements are ahead after the opening bracket, or after a comma. -/
theorem Elements.Ahead.of_shows (hp : e.pending = ts ++ c :: rest)
    (h : List.Forall₂ (Shows e.window) ts (itemLeaves depth items false)) (hc : c.kind.isClosing) :
    e.Ahead depth items := by
  cases items with
  | nil =>
    cases h
    refine .last ?_
    rw [hp]
    exact splitValue_closing hc
  | cons v items => exact .more hp h hc

theorem Elements.Ahead.next_nil (h : e.Ahead depth []) : e.next.1 = none := by
  cases h with
  | last hs => rw [Elements.next, hs]

/-- The next element is a window onto the first value ahead, and the others stay ahead. -/
theorem Elements.Ahead.next_cons (h : e.Ahead depth (v :: items))
    (hd : 1 < v.nesting → depth < maxReportedDepth) :
    ∃ w' e', e.next = (some w', e') ∧ w'.Heads v depth [] ∧ e'.Ahead depth items := by
  cases h with
  | @more _ _ ts rest c hp hs hc =>
    obtain ⟨tv, tr, rfl, hv, hr⟩ := forall₂_append_right (m := v.leaves depth) hs
    have hsplit : splitValue e.pending = some (tv, tr ++ c :: rest) := by
      rw [hp, List.append_assoc]
      exact splitValue_of_shows hv hd
    refine ⟨e.window.onto tv, { e with pending := afterComma (tr ++ c :: rest) }, ?_,
      heads_onto hv, ?_⟩
    · rw [Elements.next, hsplit]
    · cases items with
      | nil =>
        cases hr
        refine .last ?_
        show splitValue (afterComma (c :: rest)) = none
        rw [afterComma_closing hc]
        rfl
      | cons u items =>
        rw [itemLeaves_true depth (List.cons_ne_nil u items)] at hr
        cases hr with
        | @cons m _ tr _ hm hr => exact .more (afterComma_comma hm) hr hc

/-! ## One element after another -/

theorem Elements.collect_none {e e' : Elements} (h : e.next = (none, e')) (found : List Window) :
    e.collect found = found.reverse := by
  rw [Elements.collect]
  split
  · rfl
  · next h' =>
    rw [h] at h'
    cases h'

theorem Elements.collect_some {e e' : Elements} (h : e.next = (some w, e')) (found : List Window) :
    e.collect found = e'.collect (w :: found) := by
  rw [Elements.collect]
  split
  · next h' =>
    rw [h] at h'
    cases h'
  · next h' =>
    rw [h] at h'
    cases h'
    rfl

theorem Elements.collect_eq_append (e : Elements) (found : List Window) :
    e.collect found = found.reverse ++ e.collect [] := by
  match hn : e.next with
  | (none, e') =>
    rw [collect_none hn, collect_none hn, List.reverse_nil, List.append_nil]
  | (some w, e') =>
    rw [collect_some hn, collect_some hn, collect_eq_append e' (w :: found),
      collect_eq_append e' [w], List.reverse_cons, List.append_assoc]
    rfl
termination_by e.pending.length
decreasing_by all_goals exact Elements.next_pending_length_lt hn

theorem Elements.collect_cons {e e' : Elements} (h : e.next = (some w, e')) :
    e.collect [] = w :: e'.collect [] := by
  rw [collect_some h, collect_eq_append]
  rfl

/-- The position after so many calls. -/
def Elements.after (e : Elements) : Nat → Elements
  | 0 => e
  | n + 1 => e.next.2.after n

theorem Elements.next_of_none {e e' : Elements} (h : e.next = (none, e')) :
    e'.next = (none, e') := by
  unfold Elements.next at h
  split at h
  · cases h
    rfl
  · cases h

/-- The calls deliver the elements one after another, and nothing from then on. -/
theorem Elements.next_after (e : Elements) (n : Nat) :
    (e.after n).next.1 = (e.collect [])[n]? := by
  induction n generalizing e with
  | zero =>
    show e.next.1 = _
    match hn : e.next with
    | (none, e') => rw [collect_none hn, List.reverse_nil, List.getElem?_nil]
    | (some w, e') => rw [collect_cons hn, List.getElem?_cons_zero]
  | succ n ih =>
    show (e.next.2.after n).next.1 = _
    rw [ih]
    match hn : e.next with
    | (none, e') => rw [collect_none hn, collect_none (next_of_none hn)]; rfl
    | (some w, e') => rw [collect_cons hn, List.getElem?_cons_succ]

theorem Elements.Ahead.collect {items : List Value} {e : Elements} (h : e.Ahead depth items)
    (hd : ∀ v ∈ items, 1 < v.nesting → depth < maxReportedDepth) :
    List.Forall₂ (fun w v => w.Heads v depth []) (e.collect []) items := by
  induction items generalizing e with
  | nil =>
    have hn : e.next = (none, e.next.2) := Prod.ext h.next_nil rfl
    rw [collect_none hn]
    exact .nil
  | cons v items ih =>
    obtain ⟨w', e', hn, hw, he⟩ := h.next_cons (hd v List.mem_cons_self)
    rw [collect_cons hn]
    exact .cons hw (ih he fun u hu => hd u (List.mem_cons_of_mem _ hu))

/-- The first element of an array is looked for after the opening bracket. -/
theorem elementsStart_of_array (hw : w.tokens = t :: ts) (hk : t.kind = .opening .array) :
    w.elementsStart = ⟨w, ts⟩ := by
  obtain ⟨kind, d, offset, len⟩ := t
  obtain rfl : kind = .opening .array := hk
  unfold elementsStart
  rw [hw]

/-- The members of an object are looked through from the opening bracket on. -/
theorem field?_of_object (hw : w.tokens = t :: ts) (hk : t.kind = .opening .object)
    (name : String) : w.field? name = (w.fieldRun? name ts).map w.onto := by
  obtain ⟨kind, d, offset, len⟩ := t
  obtain rfl : kind = .opening .object := hk
  unfold field?
  rw [hw]

/-- Only a window that starts with an array has elements. -/
theorem exists_array_of_mem_elements {w' : Window} (h : w' ∈ w.elements) : ∃ t ts,
    w.tokens = t :: ts ∧ t.kind = .opening .array ∧ w' ∈ (Elements.mk w ts).collect [] := by
  unfold elements elementsStart at h
  split at h
  · next d offset len ts hw => exact ⟨_, ts, hw, rfl, h⟩
  · have hn : (Elements.mk w []).next = (none, ⟨w, []⟩) := rfl
    rw [Elements.collect_none hn] at h
    cases h

/-- Only a window that starts with an object has fields. -/
theorem exists_object_of_field? {w' : Window} {name : String} (h : w.field? name = some w') :
    ∃ t ts us, w.tokens = t :: ts ∧ t.kind = .opening .object ∧
      w.fieldRun? name ts = some us ∧ w' = w.onto us := by
  unfold field? at h
  split at h
  · next d offset len ts hw =>
    obtain ⟨us, hrun, rfl⟩ := Option.map_eq_some_iff.1 h
    exact ⟨_, ts, us, hw, rfl, hrun, rfl⟩
  · cases h

theorem elements_of_kind (hw : w.tokens = t :: ts) (hk : t.kind ≠ .opening .array) :
    w.elements = [] := by
  refine List.eq_nil_iff_forall_not_mem.2 fun w' h => ?_
  obtain ⟨u, us, hu, harray, -⟩ := exists_array_of_mem_elements h
  obtain ⟨rfl, -⟩ := List.cons.inj (hw.symm.trans hu)
  exact hk harray

theorem field?_of_kind (hw : w.tokens = t :: ts) (hk : t.kind ≠ .opening .object)
    (name : String) : w.field? name = none := by
  refine Option.eq_none_iff_forall_ne_some.2 fun w' h => ?_
  obtain ⟨u, us, -, hu, hobject, -⟩ := exists_object_of_field? h
  obtain ⟨rfl, -⟩ := List.cons.inj (hw.symm.trans hu)
  exact hk hobject

/-- What is inside a container stands between two brackets. -/
theorem Heads.inside {ls : List Leaf} (h : w.Heads v depth rest)
    (hl : v.leaves depth = .opening k depth :: (ls ++ [.closing k depth])) :
    ∃ d offset len ts c, w.tokens = ⟨.opening k, d, offset, len⟩ :: (ts ++ c :: rest) ∧
      List.Forall₂ (Shows w) ts ls ∧ c.kind.isClosing := by
  obtain ⟨us, hw, hs⟩ := h
  rw [hl] at hs
  cases hs with
  | @cons o _ us _ ho hs =>
    obtain ⟨ts, tc, rfl, hi, hc⟩ := forall₂_append_right hs
    cases hc with
    | @cons c _ _ _ hc hnil =>
      cases hnil
      obtain ⟨kind, d, offset, len⟩ := o
      obtain rfl : kind = .opening k := ho.kind
      have hkind : c.kind = .closing k := hc.kind
      refine ⟨d, offset, len, ts, c, ?_, hi, by rw [hkind]; rfl⟩
      rw [hw, List.cons_append, List.append_assoc, List.singleton_append]

/-- **The elements of a window that starts with an array are its elements in order, and no other
window has any.** -/
theorem Heads.elements (h : w.Heads v depth rest)
    (hd : 2 < v.nesting → depth + 1 < maxReportedDepth) :
    List.Forall₂ (fun w' item => w'.Heads item (depth + 1) []) w.elements
      (v.asArray?.getD []) := by
  by_cases hv : ∃ items, v = .array items
  · obtain ⟨items, rfl⟩ := hv
    obtain ⟨d, offset, len, ts, c, hw, hs, hc⟩ := h.inside rfl
    have hahead : (Elements.mk w (ts ++ c :: rest)).Ahead (depth + 1) items := .of_shows rfl hs hc
    rw [Window.elements, elementsStart_of_array hw rfl]
    refine hahead.collect fun u hu hpos => ?_
    have hle : u.nesting ≤ nestingItems items := Value.nesting_le_of_mem hu
    rw [Value.nesting] at hd
    omega
  · obtain ⟨t, us, hw, ha, -⟩ := h.head
    have hnone : v.asArray? = none := by
      cases v with
      | array items => exact absurd ⟨items, rfl⟩ hv
      | _ => rfl
    rw [elements_of_kind hw fun hk => hv (ha hk), hnone]
    exact .nil

/-! ## Members -/

/-- Where no name stands, no member is found. -/
theorem fieldRun?_of_not_key {name : String} (h : ∀ t ∈ ts.head?, t.kind ≠ .key) :
    w.fieldRun? name ts = none := by
  unfold fieldRun?
  split
  · next key colon rest => rw [if_neg (h key rfl)]
  · rfl

/-- Where the value of a member is not finished, no member is found. -/
theorem fieldRun?_of_unfinished {name : String} {key colon : Token}
    (h : splitValue rest = none) : w.fieldRun? name (key :: colon :: rest) = none := by
  rw [fieldRun?]
  split
  · split
    · rfl
    · next hsplit =>
      rw [h] at hsplit
      cases hsplit
  · rfl

/-- A member is found by its name, and else looked for after the comma. -/
theorem fieldRun?_member {name : String} {s : RawText} {key colon : Token}
    {value after : List Token} (hk : key.kind = .key) (hs : w.rawText? key = some s)
    (h : splitValue rest = some (value, after)) :
    w.fieldRun? name (key :: colon :: rest) =
      if s.denotes name then some value else w.fieldRun? name (afterComma after) := by
  rw [fieldRun?, if_pos hk]
  split
  · next hsplit =>
    rw [h] at hsplit
    cases hsplit
  · next hsplit =>
    rw [h] at hsplit
    cases hsplit
    rw [hs, Option.any_some]

/-- The first member with a name, among members that show and a bracket. -/
theorem fieldRun?_of_shows {members : List (RawText × Value)} (name : String)
    (h : List.Forall₂ (Shows w) ts (memberLeaves depth members false)) (hc : c.kind.isClosing)
    (hd : ∀ m ∈ members, 1 < m.2.nesting → depth < maxReportedDepth) :
    Option.Rel (fun run v => List.Forall₂ (Shows w) run (v.leaves depth))
      (w.fieldRun? name (ts ++ c :: rest))
      ((members.find? fun m => m.1.denotes name).map Prod.snd) := by
  induction members generalizing ts with
  | nil =>
    cases h
    have hk : c.kind ≠ .key := by
      intro hk
      rw [hk] at hc
      cases hc
    rw [List.nil_append, fieldRun?_of_not_key (by simpa using hk)]
    exact .none
  | cons m members ih =>
    obtain ⟨key, v⟩ := m
    cases h with
    | @cons a _ _ _ hkey h =>
      cases h with
      | @cons b _ ts _ _ h =>
        obtain ⟨tv, tr, rfl, hv, hr⟩ := forall₂_append_right (m := v.leaves depth) h
        have hk : a.kind = .key := hkey.kind
        have htext : w.rawText? a = some key := hkey.rawText_eq rfl
        have hsplit : splitValue (tv ++ (tr ++ c :: rest)) = some (tv, tr ++ c :: rest) :=
          splitValue_of_shows hv (hd _ List.mem_cons_self)
        -- The others are looked at after the comma; after the last one there is a bracket.
        have hrest : Option.Rel (fun run v => List.Forall₂ (Shows w) run (v.leaves depth))
            (w.fieldRun? name (afterComma (tr ++ c :: rest)))
            ((members.find? fun m => m.1.denotes name).map Prod.snd) := by
          cases members with
          | nil =>
            cases hr
            have hend : afterComma (c :: rest) = [] := afterComma_closing hc
            rw [List.nil_append, hend, fieldRun?_of_not_key (by simp)]
            exact .none
          | cons u members =>
            rw [memberLeaves_true depth (List.cons_ne_nil u members)] at hr
            cases hr with
            | @cons m _ tr _ hm hr =>
              rw [List.cons_append, afterComma_comma hm]
              exact ih hr fun u hu => hd u (List.mem_cons_of_mem _ hu)
        rw [List.cons_append, List.cons_append, List.append_assoc,
          fieldRun?_member hk htext hsplit, List.find?_cons]
        cases key.denotes name with
        | true => exact .some hv
        | false => exact hrest

/-- **A window that starts with an object finds its first member with a name, and no other window
has any.** -/
theorem Heads.field (h : w.Heads v depth rest)
    (hd : 2 < v.nesting → depth + 1 < maxReportedDepth) (name : String) :
    Option.Rel (fun w' v' => w'.Heads v' (depth + 1) []) (w.field? name) (v.member? name) := by
  by_cases hv : ∃ members, v = .object members
  · obtain ⟨members, rfl⟩ := hv
    obtain ⟨d, offset, len, ts, c, hw, hs, hc⟩ := h.inside rfl
    have hlt : ∀ m ∈ members, 1 < m.2.nesting → depth + 1 < maxReportedDepth := by
      intro m hm hpos
      have hle : m.2.nesting ≤ nestingMembers members := Value.nesting_le_of_mem_members hm
      rw [Value.nesting] at hd
      omega
    rw [field?_of_object hw rfl, Value.member?_eq]
    exact rel_map_left (fieldRun?_of_shows name hs hc hlt) fun _ _ hrun => heads_onto hrun
  · obtain ⟨t, us, hw, -, ho⟩ := h.head
    have hnone : v.asObject? = none := by
      cases v with
      | object members => exact absurd ⟨members, rfl⟩ hv
      | _ => rfl
    rw [field?_of_kind hw fun hk => hv (ho hk), Value.member?_eq, hnone]
    exact .none

/-! ## Steps -/

theorem Heads.item (h : w.Heads v depth rest)
    (hd : 2 < v.nesting → depth + 1 < maxReportedDepth) (n : Nat) :
    Option.Rel (fun w' v' => w'.Heads v' (depth + 1) []) w.elements[n]? (v.item? n) := by
  rw [Value.item?_eq]
  exact forall₂_getElem? (h.elements hd) n

/-- A step leads from a window that starts with a value to a window onto a part of the value, if
the same step leads there in the value. -/
theorem Heads.step (h : w.Heads v depth rest)
    (hd : 2 < v.nesting → depth + 1 < maxReportedDepth) (s : Step) :
    Option.Rel (fun w' v' => w'.Heads v' (depth + 1) []) (w.step? s) (v.step? s) := by
  cases s with
  | member name => exact h.field hd name
  | item n => exact h.item hd n

theorem walk?_cons (w : Window) (s : Step) (way : List Step) :
    w.walk? (s :: way) = (w.step? s).bind fun w' => w'.walk? way :=
  rfl

theorem walk?_single (w : Window) (s : Step) : w.walk? [s] = w.step? s := by
  rw [walk?_cons]
  exact Option.bind_fun_some _

/-- The same for steps one after another.  What the window has after its value does not matter. -/
theorem Heads.walk (h : w.Heads v depth rest) (way : List Step)
    (hd : depth + way.length < maxReportedDepth ∨ v.nesting ≤ 2 ∨
      depth + v.nesting ≤ maxReportedDepth + 1) :
    Option.Rel (fun w' v' => v'.nesting + way.length ≤ v.nesting ∧
      ∃ rest', w'.Heads v' (depth + way.length) rest' ∧ (rest = [] → rest' = []))
      (w.walk? way) (v.walk? way) := by
  -- Only the first window may have tokens after its value, so `rest` varies.
  induction way generalizing w v depth rest with
  | nil => exact .some ⟨Nat.le_refl _, rest, h, id⟩
  | cons s way ih =>
    rw [List.length_cons] at hd
    refine rel_bind (h.step (by omega) s) fun w' v' hv hs => ?_
    have hlt : v'.nesting < v.nesting := Value.nesting_lt_of_step hv
    refine rel_imp (ih hs (by omega)) fun w₂ v₂ hwalk => ?_
    obtain ⟨hle, rest', hheads, hrest⟩ := hwalk
    rw [Nat.add_assoc, Nat.add_comm 1] at hheads
    exact ⟨by rw [List.length_cons]; omega, rest', hheads, fun _ => hrest rfl⟩

/-- Walking on from a window that holds a value reaches windows that hold the parts. -/
theorem Heads.walk_value (h : w.Heads v depth []) (hn : v.nesting ≤ maxTreeDepth)
    (hd : v.nesting ≤ 2 ∨ depth + v.nesting ≤ maxReportedDepth + 1) (way : List Step) :
    (w.walk? way).map Window.value = (v.walk? way).map .ok := by
  have hwalk := h.walk way (.inr hd)
  generalize w.walk? way = w' at hwalk
  generalize v.walk? way = v' at hwalk
  cases hwalk with
  | none => rfl
  | some hs =>
    obtain ⟨hle, rest, hheads, hrest⟩ := hs
    rw [hrest rfl] at hheads
    have hvalue := hheads.value_eq_ok_iff.2 ⟨by omega, rfl, rfl⟩
    rw [Option.map_some, Option.map_some, hvalue]

end Window

/-! ## Names -/

theorem RawText.textOf_eq_ok_iff {bytes : Bytes} {text : List Char} :
    RawText.textOf bytes = .ok text ↔ bytes = Utf8.encode text := by
  rw [← Utf8.chars?_eq_some_iff, RawText.textOf]
  cases Utf8.chars? bytes <;> simp

theorem RawText.decoded_of_no_escapes {s : RawText} (hs : ¬ s.hasEscapes) :
    s.decoded = (RawText.textOf s.bytes).map fun text => ⟨text, true⟩ := by
  unfold RawText.decoded
  simp only [hs]
  cases RawText.textOf s.bytes <;> rfl

theorem RawText.decode_of_no_escapes {s : RawText} (hs : ¬ s.hasEscapes) :
    s.decode = RawText.textOf s.bytes := by
  rw [RawText.decode, RawText.decoded_of_no_escapes hs]
  cases RawText.textOf s.bytes <;> rfl

/-- A name denotes exactly the text that it decodes to. -/
theorem RawText.denotes_iff (s : RawText) (text : String) :
    s.denotes text ↔ s.decode = .ok text.toList := by
  unfold RawText.denotes
  by_cases hs : s.hasEscapes
  · rw [if_pos hs]
    cases s.decode <;> simp
  · rw [if_neg hs, RawText.decode_of_no_escapes hs, RawText.textOf_eq_ok_iff, beq_iff_eq]

theorem RawText.denotes_eq (s : RawText) (text : String) :
    s.denotes text = (s.decode.toOption == some text.toList) := by
  rw [Bool.eq_iff_iff, RawText.denotes_iff, beq_iff_eq]
  cases s.decode <;> simp [Except.toOption]

end FlatJson
