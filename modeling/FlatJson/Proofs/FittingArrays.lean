import FlatJson.Proofs.Cutting
import FlatJson.Proofs.EnvelopeMembers

/-!
# Arrays that fit into a sample

An array of an accepted text that is sampled to its closing bracket has an exact shape: its number
of elements, and the tokens between its brackets, commas between elements left out, on average.

* `Shape.exact` — that shape.
* `WrittenItems.run_elements`, `sampleArray_of_items` — the sample of written elements.
* `Window.HasArray` — tokens of a window that are those of an array.
* `Laid.of_shows` — pieces whose tokens show given leaves lay these leaves out.
* `OpensArrays` — leaves in which whatever opens as an array is one.
* `Tokenizer.shape_of_fitting_arrays` — the arrays of an accepted text.
-/

namespace FlatJson

/-- The shape of an array of so many elements with so many tokens between its brackets. -/
def Shape.exact (threshold elements inside : Nat) : Shape :=
  if elements = 0 then .notLarge
  else ⟨threshold < elements, elements, (inside - (elements - 1) + elements / 2) / elements⟩

/-! ## Written elements -/

/-- A sample that reads to the closing bracket counts all elements, and all tokens but the commas
between elements. -/
theorem WrittenItems.run_elements {items : List Value} {s : Bytes} (h : WrittenItems items s)
    (depth most : Nat) {t : Sample} (ht : t.IsBetween) (hd : t.depth = 0) (hc : t.current = 0)
    (hmost : t.elements + items.length ≤ most) (w : Nat) (rest : Bytes) :
    ∃ tokens complete, tokens + (items.length - 1) = (itemLeaves depth items false).length ∧
      (Sample.run most (s.length + (w + 1)) t (s ++ 0x5D :: rest)).counts =
        (t.elements + items.length, t.tokens + tokens, complete, true) := by
  induction items generalizing s t with
  | nil => exact absurd rfl h.ne_nil
  | cons v items ih =>
    rw [List.length_cons] at hmost
    have hready : t.Ready most := ⟨ht, ht.2, by omega⟩
    have hvalue {u s w' more : Bytes} (hu : Blank u) (hv : v.Written s) (hw : Blank w')
        (hmore : StartsApart more) :
        Sample.Tallies most 0 (u ++ s ++ w') more (v.leaves depth).length :=
      .padded hu hw (hv.tallies depth (hmore.blank_append hw))
    have hne : (v.leaves depth).length ≠ 0 := fun h0 =>
      v.leaves_ne_nil depth (List.length_eq_zero_iff.1 h0)
    cases h with
    | @one _ u s' w' hu hv hw =>
      have hrun := (hvalue hu hv hw (.cons rfl rest)).run_close hready hd hne w
      refine ⟨(v.leaves depth).length, t.read + (u ++ s' ++ w').length, by simp [itemLeaves], ?_⟩
      rw [hrun]
      simp [Sample.lastElement, Sample.past, Sample.counts, hc]
    | @more _ _ u s' w' r hu hv hw hr =>
      have hrun := (hvalue hu hv hw (.cons rfl (r ++ 0x5D :: rest))).run_comma hready hd
        (r.length + (w + 1))
      have hnext :
          (t.past (v.leaves depth).length (u ++ s' ++ w').length).nextElement.IsBetween := ht
      have hlater : t.elements + 1 + items.length ≤ most := by omega
      obtain ⟨tokens, complete, htokens, hcounts⟩ := ih hr hnext hd rfl hlater
      have hpos : 0 < items.length := List.length_pos_iff.2 hr.ne_nil
      have hlen : (u ++ s' ++ w' ++ 0x2C :: r).length + (w + 1) =
          (u ++ s' ++ w').length + (r.length + (w + 1) + 1) := by
        rw [List.length_append, List.length_cons]
        omega
      have htext : u ++ s' ++ w' ++ 0x2C :: r ++ 0x5D :: rest =
          u ++ s' ++ w' ++ 0x2C :: (r ++ 0x5D :: rest) := by simp
      refine ⟨(v.leaves depth).length + tokens, complete, ?_, ?_⟩
      · rw [itemLeaves, itemLeaves_true depth hr.ne_nil]
        simp only [Bool.false_eq_true, if_false, List.nil_append, List.length_append,
          List.length_cons, ← htokens]
        omega
      · rw [hlen, htext, hrun, hcounts]
        simp [Sample.nextElement, Sample.past, hc]
        omega

/-- Elements start with a byte that is neither blank nor the end of the array. -/
theorem WrittenItems.exists_first {items : List Value} {s : Bytes} (h : WrittenItems items s) :
    ∃ u b t, s = u ++ b :: t ∧ Blank u ∧ Byte.isBlank b = false ∧ b ≠ 0x5D ∧
      WrittenItems items (b :: t) := by
  cases h with
  | @one v u s' w hu hv hw =>
    have hin : WrittenItems [v] ([] ++ s' ++ w) := .one .nil hv hw
    obtain ⟨b, t, rfl, hb, hclose⟩ := hv.exists_first
    exact ⟨u, b, t ++ w, by simp, hu, hb, hclose, hin⟩
  | @more v items u s' w r hu hv hw hr =>
    have hin : WrittenItems (v :: items) ([] ++ s' ++ w ++ 0x2C :: r) := .more .nil hv hw hr
    obtain ⟨b, t, rfl, hb, hclose⟩ := hv.exists_first
    exact ⟨u, b, t ++ w ++ 0x2C :: r, by simp, hu, hb, hclose, by simpa using hin⟩

/-- **An array that is sampled to its end** has its exact shape. -/
theorem sampleArray_of_items {settings : ShapeSettings} {items : List Value} {s : Bytes}
    (h : WrittenItems items s) (depth : Nat) (hwindow : s.length < settings.sampleWindow)
    (hmost : items.length ≤ settings.sampleElements) (rest : Bytes) :
    sampleArray settings (s ++ 0x5D :: rest) =
      .exact settings.largeArrayThreshold items.length (itemLeaves depth items false).length := by
  obtain ⟨u, b, t, rfl, hu, hb, hclose, hin⟩ := h.exists_first
  have hpos : 0 < items.length := List.length_pos_iff.2 hin.ne_nil
  obtain ⟨k, hk⟩ : ∃ k, settings.sampleWindow - u.length = (b :: t).length + (k + 1) := by
    rw [List.length_append] at hwindow
    exact ⟨settings.sampleWindow - u.length - (b :: t).length - 1, by omega⟩
  obtain ⟨tokens, complete, htokens, hcounts⟩ :=
    hin.run_elements depth settings.sampleElements (t := {}) ⟨rfl, rfl⟩ rfl rfl
      (by simpa using hmost) k rest
  have htext : u ++ b :: t ++ 0x5D :: rest = u ++ b :: (t ++ 0x5D :: rest) := by simp
  rw [htext, sampleArray_of_first settings hu hb hclose, hk]
  simp only [Sample.counts, List.cons_append, Nat.zero_add, Prod.mk.injEq] at hcounts
  obtain ⟨helements, hin', -, hclosed⟩ := hcounts
  rw [Sample.shape, helements, hin', hclosed, Shape.exact, ← htokens, Nat.add_sub_cancel]
  rfl

/-- An array of no elements is not large. -/
theorem sampleArray_of_blank (settings : ShapeSettings) {u : Bytes} (hu : Blank u) (rest : Bytes) :
    sampleArray settings (u ++ 0x5D :: rest) = .notLarge := by
  have hskip : skipBlank (u ++ 0x5D :: rest) = 0x5D :: rest :=
    skipBlank_append hu (by simp [Byte.isBlank])
  simp [sampleArray, hskip]

/-! ## Arrays by their tokens -/

/-- The tokens of an array are among those of a window: its brackets, and what is inside. -/
structure Window.HasArray (w : Window) (opening : Token) (inside : List Token) (closing : Token)
    (items : List Value) : Prop where
  place : ∃ before after, w.tokens = before ++ (opening :: (inside ++ [closing])) ++ after
  shows : ∃ depth, List.Forall₂ (Shows w) (opening :: (inside ++ [closing]))
    ((Value.array items).leaves depth)

section

variable {w : Window} {ts before after : List Token} {items : List Value} {depth : Nat}

/-- Tokens that show the leaves of an array are its brackets and what is inside. -/
theorem Window.hasArray_of_shows (hw : w.tokens = before ++ ts ++ after)
    (hs : List.Forall₂ (Shows w) ts ((Value.array items).leaves depth)) :
    ∃ opening inside closing, ts = opening :: (inside ++ [closing]) ∧
      w.HasArray opening inside closing items := by
  obtain ⟨opening, us, hopening, hus, rfl⟩ := List.forall₂_cons_right_iff.1 hs
  obtain ⟨inside, cs, rfl, hinside, hcs⟩ := forall₂_append_right hus
  obtain ⟨closing, _, hclosing, hnil, rfl⟩ := List.forall₂_cons_right_iff.1 hcs
  obtain rfl := List.forall₂_nil_right_iff.1 hnil
  exact ⟨opening, inside, closing, rfl, ⟨before, after, hw⟩, depth, hs⟩

end

/-- **Pieces whose tokens show given leaves** lay out these leaves, up to depths that no token
tells apart. -/
theorem Laid.of_shows {w : Window} {ps : List Piece} {ls : List Leaf} {pre post : Bytes}
    (hps : ∀ p ∈ ps, p.Proper) (htext : w.text.toList = pre ++ (spread ps ++ post))
    (h : List.Forall₂ (Shows w) (tokensAt pre.length ps) ls) :
    ∃ qs, Laid qs ls (spread ps) ∧ tokensAt pre.length qs = tokensAt pre.length ps := by
  induction ps generalizing pre ls with
  | nil =>
    cases h
    exact ⟨[], .nil, rfl⟩
  | cons p ps ih =>
    obtain ⟨hp, hps⟩ := List.forall_mem_cons.1 hps
    rw [spread_cons, List.append_assoc] at htext
    obtain ⟨l, ls, hl, hls, rfl⟩ := List.forall₂_cons_left_iff.1 h
    have hrest : w.text.toList = (pre ++ p.text) ++ (spread ps ++ post) := by
      rw [htext, List.append_assoc]
    rw [← List.length_append] at hls
    obtain ⟨qs, hqs, htokens⟩ := ih hps hrest hls
    -- The leaf of the piece has the kind and the bytes of the leaf that its token shows.
    have hown : Shows w (p.token pre.length) p.leaf := hp.shows htext
    obtain ⟨kind, depth, content⟩ := l
    obtain rfl : p.leaf.kind = kind := hl.kind
    obtain rfl : p.leaf.content = content := hown.lexeme.symm.trans hl.lexeme
    have hdepth : min p.leaf.depth maxReportedDepth = min depth maxReportedDepth := hl.depth
    have hlaid : Laid [⟨p.pad, ⟨p.leaf.kind, depth, p.leaf.content⟩⟩]
        [⟨p.leaf.kind, depth, p.leaf.content⟩] p.text := .single hp.1 hp.2
    refine ⟨_, hlaid.append hqs, ?_⟩
    rw [List.length_append] at htokens
    rw [List.singleton_append, tokensAt, tokensAt]
    show _ :: tokensAt (pre.length + p.text.length) qs = _
    rw [htokens, Piece.token, Piece.token, hdepth]
    rfl

/-- The shape of an array that is laid out in a text and fits into the sample. -/
theorem arrayShapeAt_of_laid {settings : ShapeSettings} {ps : List Piece} {items : List Value}
    {depth : Nat} {pre post : Bytes} {opening closing : Token} {inside : List Token}
    (hl : Laid ps ((Value.array items).leaves depth) (spread ps))
    (htokens : tokensAt pre.length ps = opening :: (inside ++ [closing]))
    (hwindow : closing.offset < opening.offset + 1 + settings.sampleWindow)
    (hmost : items.length ≤ settings.sampleElements) :
    arrayShapeAt settings (pre ++ (spread ps ++ post)) opening.offset =
      .exact settings.largeArrayThreshold items.length inside.length := by
  rw [Value.leaves] at hl
  obtain ⟨pad, ms, u, rfl, -, hu, hms⟩ := hl.of_container
  rw [tokensAt_container] at htokens
  obtain ⟨rfl, hlater⟩ := List.cons.inj htokens
  obtain ⟨rfl, hclosing⟩ := List.append_inj' hlater rfl
  obtain ⟨rfl, -⟩ := List.cons.inj hclosing
  have htext : pre ++ (pad ++ 0x5B :: (spread ms ++ u ++ [0x5D]) ++ post) =
      pre ++ pad ++ 0x5B :: (spread ms ++ u) ++ 0x5D :: post := by simp
  obtain ⟨post', hend⟩ := exists_rdropWhile_eq (s := pre ++ pad ++ 0x5B :: (spread ms ++ u))
    (t := post) (c := 0x5D) rfl
  have hbody : (pre ++ pad ++ 0x5B :: (spread ms ++ u) ++ 0x5D :: post').drop
      (pre.length + pad.length + 1) = spread ms ++ u ++ 0x5D :: post' := by
    rw [← List.length_append, List.append_assoc, List.drop_length_add_append]
    rfl
  have hinside : (tokensAt (pre.length + pad.length + 1) ms).length =
      (itemLeaves (depth + 1) items false).length := by
    rw [length_tokensAt, ← hms.leaves, List.length_map]
  have hfits : (spread ms ++ u).length < settings.sampleWindow := by
    rw [List.length_append]
    dsimp only at hwindow
    omega
  rw [spread_container, arrayShapeAt, Container.opener, Container.closer, htext, hend, hbody,
    hinside]
  by_cases hne : items = []
  · subst hne
    obtain ⟨rfl, -⟩ := hms.of_nil
    exact sampleArray_of_blank settings hu post'
  · exact sampleArray_of_items (hms.writtenItems hne hu) (depth + 1) hfits hmost post'

/-! ## Arrays that are members -/

/-- Wherever an array opens at this depth, its leaves follow. -/
def OpensArrays (depth : Nat) (ls : List Leaf) : Prop :=
  ∀ ls₁ l ls₂, ls = ls₁ ++ l :: ls₂ → l.kind = .opening .array → l.depth = depth →
    ∃ items ls₃, l :: ls₂ = (Value.array items).leaves depth ++ ls₃

section

variable {depth : Nat} {ls ms : List Leaf}

theorem OpensArrays.of_forall (h : ∀ l ∈ ls, l.kind = .opening .array → l.depth ≠ depth) :
    OpensArrays depth ls := by
  rintro ls₁ l ls₂ rfl hk hd
  exact absurd hd (h l (List.mem_append_right _ List.mem_cons_self) hk)

theorem OpensArrays.append (h : OpensArrays depth ls) (h' : OpensArrays depth ms) :
    OpensArrays depth (ls ++ ms) := by
  intro ls₁ l ls₂ heq hk hd
  rcases List.append_eq_append_iff.1 heq with ⟨mid, rfl, hms⟩ | ⟨mid, hls, hrest⟩
  · exact h' mid l ls₂ hms hk hd
  · cases mid with
    | nil => exact h' [] l ls₂ hrest.symm hk hd
    | cons l' mid =>
      obtain ⟨rfl, rfl⟩ := List.cons.inj hrest
      obtain ⟨items, ls₃, hitems⟩ := h ls₁ l mid hls hk hd
      refine ⟨items, ls₃ ++ ms, ?_⟩
      rw [← List.append_assoc, ← hitems]
      rfl

theorem Value.opensArrays (v : Value) (depth : Nat) : OpensArrays depth (v.leaves depth) := by
  cases v with
  | array items =>
    intro ls₁ l ls₂ heq hk hd
    cases ls₁ with
    | nil => exact ⟨items, [], heq.symm.trans (List.append_nil _).symm⟩
    | cons _ ls₁ =>
      obtain ⟨-, hin⟩ := List.cons.inj heq
      have hmem : l ∈ itemLeaves (depth + 1) items false ++ [.closing .array depth] :=
        hin ▸ List.mem_append_right ls₁ List.mem_cons_self
      rcases List.mem_append.1 hmem with hmem | hmem
      · have hle := itemLeaves_le_depth l hmem
        omega
      · rw [List.mem_singleton.1 hmem] at hk
        cases hk
  | object members =>
    refine .of_forall fun l hl hk hd => ?_
    rw [Value.leaves, List.mem_cons, List.mem_append, List.mem_singleton] at hl
    rcases hl with rfl | hl | rfl
    · cases hk
    · have hle := memberLeaves_le_depth l hl
      omega
    · cases hk
  | bool b => cases b <;> exact .of_forall (by simp [Value.leaves])
  | _ => exact .of_forall (by simp [Value.leaves])

theorem memberLeaves_opensArrays (members : List (RawText × Value)) (depth : Nat) (comma : Bool) :
    OpensArrays depth (memberLeaves depth members comma) := by
  induction members generalizing comma with
  | nil =>
    refine .of_forall ?_
    intro l hl
    cases hl
  | cons m members ih =>
    have hname : OpensArrays depth ((if comma then [.comma depth] else []) ++
        [.key m.1 depth, .colon depth]) := by
      refine .of_forall ?_
      cases comma <;> simp [Leaf.comma, Leaf.key, Leaf.colon]
    have hall := hname.append ((m.2.opensArrays depth).append (ih true))
    simpa [memberLeaves] using hall

end

/-- Each member of an object that opens as an array is an array. -/
theorem Window.exists_hasArray {w : Window} {members : List (RawText × Value)}
    {opening a : Token} {inside after : List Token} (hw : w.tokens = opening :: inside ++ after)
    (hs : List.Forall₂ (Shows w) (opening :: inside) ((Value.object members).leaves 0))
    (ha : a ∈ inside) (hm : a.isMemberArray) :
    ∃ inside' closing items, w.HasArray a inside' closing items := by
  obtain ⟨before, later, rfl⟩ := List.append_of_mem ha
  rw [Value.leaves] at hs
  cases hs with
  | cons _ hin =>
    obtain ⟨ls₁, _, hleaves, -, hlater⟩ := forall₂_append_left hin
    obtain ⟨l, ls₂, hl, hls, rfl⟩ := List.forall₂_cons_left_iff.1 hlater
    simp only [Token.isMemberArray, Bool.and_eq_true, beq_iff_eq] at hm
    have hk : l.kind = .opening .array := hl.kind.symm.trans hm.1
    have hd : l.depth = 1 := by
      have hdepth := hl.depth
      rw [hm.2, maxReportedDepth] at hdepth
      omega
    have harrays : OpensArrays 1 (memberLeaves 1 members false ++ [.closing .object 0]) :=
      (memberLeaves_opensArrays members 1 false).append (.of_forall (by simp [Leaf.closing]))
    obtain ⟨items, ls₃, hitems⟩ := harrays ls₁ l ls₂ hleaves hk hd
    rw [hitems] at hlater
    obtain ⟨ts, us, hts, hshows, -⟩ := forall₂_append_right hlater
    have hplace : w.tokens = (opening :: before) ++ ts ++ (us ++ after) := by
      rw [hw, hts]
      simp
    obtain ⟨a', inside', closing, rfl, harray⟩ := Window.hasArray_of_shows hplace hshows
    obtain ⟨rfl, -⟩ := List.cons.inj hts
    exact ⟨inside', closing, items, harray⟩

/-! ## Accepted texts -/

/-- A token starts with a byte that is not blank, and only an opening bracket starts with one. -/
theorem Spells.exists_first {l : Leaf} (h : Spells l.kind l.content) :
    ∃ b t, l.spelling = b :: t ∧ Byte.isBlank b = false ∧
      (b = 0x5B → l.kind = .opening .array) ∧ (b = 0x7B → l.kind = .opening .object) := by
  obtain ⟨kind, depth, content⟩ := l
  have hnumeric : ∀ b, Byte.isNumeric b → Byte.isBlank b = false ∧ b ≠ 0x5B ∧ b ≠ 0x7B := by
    decide +kernel
  cases h with
  | opening c => cases c <;> exact ⟨_, _, rfl, rfl, by simp [Container.opener]⟩
  | closing c => cases c <;> exact ⟨_, _, rfl, rfl, by simp [Container.closer]⟩
  | number hn =>
    obtain ⟨b, t, rfl⟩ := List.exists_cons_of_ne_nil hn.ne_nil
    obtain ⟨hb, harray, hobject⟩ := hnumeric b (hn.isNumeric b List.mem_cons_self)
    exact ⟨b, t, rfl, hb, fun h => absurd h harray, fun h => absurd h hobject⟩
  | word k => cases k <;> exact ⟨_, _, rfl, rfl, by simp⟩
  | key | string => exact ⟨_, _, rfl, rfl, by simp [Byte.quote]⟩
  | comma | colon => exact ⟨_, _, rfl, rfl, by simp⟩

/-- Where arrays are sampled in a text that does not start with an object. -/
theorem sampledOffsets_of_first {settings : ShapeSettings} {pad : Bytes} {b : UInt8}
    (hpad : Blank pad) (hb : Byte.isBlank b = false) (hobject : b ≠ 0x7B) (rest : Bytes) :
    sampledOffsets settings (pad ++ b :: rest) = if b = 0x5B then [pad.length] else [] := by
  have hskip : skipBlank (pad ++ b :: rest) = [] ++ b :: rest :=
    skipBlank_append hpad (by simp [hb])
  obtain ⟨rest', htrim⟩ := exists_trimBlank_eq hskip hb
  rw [sampledOffsets, takeWhile_blank hpad hb, htrim, List.nil_append]
  by_cases harray : b = 0x5B
  · simp [harray]
  · simp [harray, hobject]

namespace Tokenizer

variable {settings : ShapeSettings} {text : Bytes}

/-- What is sampled in an accepted text is an array, the first value or a member of it. -/
theorem exists_hasArray_of_sampled (t : Tokenizer) (h : (t.parse text).1.error = none) {o : Nat}
    (ho : o ∈ sampledOffsets settings text) : ∃ opening inside closing items,
      ((t.parse text).1.window text).HasArray opening inside closing items ∧ opening.offset = o ∧
      ((t.parse text).1.tokens.head? = some opening ∨ opening.isMemberArray) := by
  obtain ⟨v, ps, qs, rest, hl, htext, htokens, -⟩ := t.exists_first_value h
  have hshows : List.Forall₂ (Shows ((t.parse text).1.window text)) (tokensAt 0 ps)
      (v.leaves 0) := by
    have hplace : ((t.parse text).1.window text).text.toList = [] ++ (spread ps ++ rest) := htext
    rw [← hl.leaves]
    exact shows_tokensAt hl.proper hplace
  obtain ⟨l, ls, hleaves, harray, hobject⟩ := v.leaves_head 0
  rw [hleaves] at hl
  obtain ⟨pad, ps, s, rfl, hspread, hpad, hspells, -⟩ := hl.of_cons
  obtain ⟨b, more, hfirst, hb, harrays, hobjects⟩ := hspells.exists_first
  by_cases hb' : b = 0x7B
  · obtain ⟨members, rfl⟩ := hobject (hobjects hb')
    rw [← hleaves] at hl
    have hsampled := sampledOffsets_of_object settings hl rfl (hobjects hb') rest
    rw [← htext] at hsampled
    rw [hsampled] at ho
    obtain ⟨a, ha, rfl⟩ := List.mem_map.1 ho
    rw [List.mem_filter, Bool.and_eq_true] at ha
    obtain ⟨inside, closing, items, hitems⟩ := Window.exists_hasArray htokens hshows ha.1 ha.2.1
    exact ⟨a, inside, closing, items, hitems, rfl, .inr ha.2.1⟩
  · have hstart : text = pad ++ b :: (more ++ s ++ rest) := by
      rw [htext, hspread, hfirst]
      simp
    rw [hstart, sampledOffsets_of_first hpad hb hb'] at ho
    split_ifs at ho with hopen
    · obtain ⟨items, rfl⟩ := harray (harrays hopen)
      have hplace : ((t.parse text).1.window text).tokens =
          [] ++ tokensAt 0 (⟨pad, l⟩ :: ps) ++ tokensAt (spread (⟨pad, l⟩ :: ps)).length qs := htokens
      obtain ⟨opening, inside, closing, hts, hitems⟩ := Window.hasArray_of_shows hplace hshows
      refine ⟨opening, inside, closing, items, hitems, ?_, .inl ?_⟩
      · have hquoted : l.isQuoted = false := by rw [Leaf.isQuoted, harrays hopen]
        obtain ⟨rfl, -⟩ := List.cons.inj hts
        obtain rfl := List.mem_singleton.1 ho
        simp [Piece.token, hquoted]
      · rw [htokens, hts]
        rfl
    · cases ho

/-- An array of an accepted text that fits into the sample has its exact shape. -/
theorem arrayShapeAt_of_hasArray (t : Tokenizer) (h : (t.parse text).1.error = none)
    {opening closing : Token} {inside : List Token} {items : List Value}
    (harray : ((t.parse text).1.window text).HasArray opening inside closing items)
    (hwindow : closing.offset < opening.offset + 1 + settings.sampleWindow)
    (hmost : items.length ≤ settings.sampleElements) :
    arrayShapeAt settings text opening.offset =
      .exact settings.largeArrayThreshold items.length inside.length := by
  obtain ⟨⟨before, after, hplace⟩, depth, hshows⟩ := harray
  obtain ⟨roots, ps, trail, hl, -, -, htokens⟩ := Scan.layout_of_scan h
  have htext : text = spread ps ++ trail := hl.text_eq
  have hrun : tokensAt 0 ps = before ++ (opening :: (inside ++ [closing])) ++ after :=
    htokens.symm.trans hplace
  obtain ⟨_, ps₃, rfl, hfront, -⟩ := exists_of_tokensAt_eq_append hrun
  obtain ⟨ps₁, ps₂, rfl, -, hmid⟩ := exists_of_tokensAt_eq_append hfront
  rw [Nat.zero_add] at hmid
  have hproper : ∀ p ∈ ps₂, p.Proper := fun p hp =>
    hl.proper p (List.mem_append_left _ (List.mem_append_right _ hp))
  have hsplit : text = spread ps₁ ++ (spread ps₂ ++ (spread ps₃ ++ trail)) := by
    rw [htext]
    simp
  rw [← hmid] at hshows
  obtain ⟨qs, hqs, hsame⟩ := Laid.of_shows hproper hsplit hshows
  rw [hmid] at hsame
  rw [← hqs.text] at hsplit hqs
  rw [hsplit]
  exact arrayShapeAt_of_laid hqs hsame hwindow hmost

/-- **The arrays of an accepted text that fit into the sample have their exact shapes**: with
elements at most as many as are counted, and the closing bracket inside the window. -/
theorem shape_of_fitting_arrays (t : Tokenizer) (settings : ShapeSettings) {text : Bytes}
    (h : (t.parse text).1.error = none) :
    let w := (t.parse text).1.window text
    (∀ opening inside closing items, w.HasArray opening inside closing items →
      closing.offset < opening.offset + 1 + settings.sampleWindow →
      items.length ≤ settings.sampleElements →
      arrayShapeAt settings text opening.offset =
        .exact settings.largeArrayThreshold items.length inside.length) ∧
    (∀ o ∈ sampledOffsets settings text, ∃ opening inside closing items,
      w.HasArray opening inside closing items ∧ opening.offset = o ∧
      (w.tokens.head? = some opening ∨ opening.isMemberArray)) ∧
    detectShape settings text = (sampledOffsets settings text).foldl
      (fun best o => best.larger (arrayShapeAt settings text o)) .notLarge := by
  refine ⟨?_, ?_, detectShape_eq_foldl settings text⟩
  · intro opening inside closing items harray hwindow hmost
    exact t.arrayShapeAt_of_hasArray h harray hwindow hmost
  · intro o ho
    exact t.exists_hasArray_of_sampled h ho

/-- The text `[null, []]`, whose closing bracket is the last byte of the window and whose second
element is the last that is counted. -/
theorem shape_of_fitting_arrays_edge :
    let settings : ShapeSettings := { sampleElements := 2, sampleWindow := 9 }
    let text : Bytes := [0x5B, 0x6E, 0x75, 0x6C, 0x6C, 0x2C, 0x20, 0x5B, 0x5D, 0x5D]
    let inside : List Token :=
      [⟨.word .null, 1, 1, 4⟩, ⟨.comma, 1, 5, 1⟩, ⟨.opening .array, 1, 7, 1⟩,
        ⟨.closing .array, 1, 8, 1⟩]
    (({} : Tokenizer).parse text).1.error = none ∧
    ((({} : Tokenizer).parse text).1.window text).HasArray ⟨.opening .array, 0, 0, 1⟩ inside
      ⟨.closing .array, 0, 9, 1⟩ [.null, .array []] ∧
    9 < 0 + 1 + settings.sampleWindow ∧ [Value.null, .array []].length ≤ settings.sampleElements ∧
    arrayShapeAt settings text 0 = ⟨false, 2, 2⟩ := by
  intro settings text inside
  have herror : (({} : Tokenizer).parse text).1.error = none := by decide
  have hwritten : WrittenText [.array [.null, .array []]] text :=
    .one .nil (.array (.more .nil .null .nil (.one (.cons rfl .nil) (.emptyArray .nil) .nil))) .nil
  have hshows := tokens_show_leaves {} herror hwritten
  have harray : ((({} : Tokenizer).parse text).1.window text).HasArray ⟨.opening .array, 0, 0, 1⟩
      inside ⟨.closing .array, 0, 9, 1⟩ [.null, .array []] :=
    ⟨⟨[], [], by decide⟩, 0, hshows⟩
  refine ⟨herror, harray, by decide, by decide, ?_⟩
  have hexact : Shape.exact settings.largeArrayThreshold 2 4 = ⟨false, 2, 2⟩ := by decide
  rw [← hexact]
  exact (shape_of_fitting_arrays {} settings herror).1 _ _ _ _ harray (by decide) (by decide)

end Tokenizer

end FlatJson
