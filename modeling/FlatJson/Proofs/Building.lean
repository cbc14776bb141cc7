import FlatJson.Proofs.Encoding
import FlatJson.Proofs.Tokens
import FlatJson.Tree.Build

/-!
# Building values from their tokens

Over tokens that show the leaves of a value, the builder delivers the value, unless a container
opens too deep.

* `firstDeep` — the first leaf that opens a container at a given depth.
* `Builder.Stops` — running on, or stopping at that leaf.
* `Builder.run_value` — the tokens of a value, in any place where a value may stand.
* `Window.value_of_shows` — the value of a window whose tokens show one value and more.
-/

namespace FlatJson

/-! ## The bytes of numbers -/

/-- Whether the byte may stand in a number. -/
def Byte.isNumeric (b : UInt8) : Bool :=
  Byte.isDigit b || b == 0x2B || b == 0x2D || b == 0x2E || Scan.isExponentLetter b

theorem isNumeric_of_isDigit : ∀ b, Byte.isDigit b → Byte.isNumeric b := by decide +kernel

theorem IsWhole.isNumeric {s : Bytes} (h : IsWhole s) : ∀ b ∈ s, Byte.isNumeric b :=
  fun b hb => isNumeric_of_isDigit b (h.allDigits b hb)

theorem IsFraction.isNumeric {s : Bytes} (h : IsFraction s) : ∀ b ∈ s, Byte.isNumeric b := by
  cases h with
  | absent => exact nofun
  | present _ hd =>
    intro c hc
    rcases List.mem_cons.1 hc with rfl | hc
    · decide
    · exact isNumeric_of_isDigit c (hd c hc)

theorem IsExponent.isNumeric {s : Bytes} (h : IsExponent s) : ∀ b ∈ s, Byte.isNumeric b := by
  have hletter : ∀ b, Scan.isExponentLetter b → Byte.isNumeric b := by decide +kernel
  have hmark : ∀ m ∈ [[], [(0x2B : UInt8)], [0x2D]], ∀ b ∈ m, Byte.isNumeric b := by
    decide +kernel
  cases h with
  | absent => exact nofun
  | present he hm _ hd =>
    intro c hc
    rw [List.mem_cons, List.mem_append] at hc
    rcases hc with rfl | hc | hc
    · exact hletter c he
    · exact hmark _ hm c hc
    · exact isNumeric_of_isDigit c (hd c hc)

theorem IsNumber.isNumeric {s : Bytes} (h : IsNumber s) : ∀ b ∈ s, Byte.isNumeric b := by
  obtain ⟨hs, hw, hf, he⟩ := h
  have hsign : ∀ m ∈ [[], [(0x2D : UInt8)]], ∀ b ∈ m, Byte.isNumeric b := by decide +kernel
  intro b hb
  rw [List.mem_append, List.mem_append, List.mem_append] at hb
  rcases hb with ((hb | hb) | hb) | hb
  · exact hsign _ hs b hb
  · exact hw.isNumeric b hb
  · exact hf.isNumeric b hb
  · exact he.isNumeric b hb

/-- A number is UTF-8. -/
theorem IsNumber.isValid {s : Bytes} (h : IsNumber s) : Utf8.isValid s := by
  have hascii : ∀ b, Byte.isNumeric b → b < 0x80 := by decide +kernel
  exact Utf8.isValid_of_ascii fun b hb => hascii b (h.isNumeric b hb)

/-! ## Lists of tokens -/

theorem forall₂_append_right {α β : Type} {r : α → β → Prop} {l : List α} {m n : List β}
    (h : List.Forall₂ r l (m ++ n)) :
    ∃ l₁ l₂, l = l₁ ++ l₂ ∧ List.Forall₂ r l₁ m ∧ List.Forall₂ r l₂ n :=
  ⟨l.take m.length, l.drop m.length, (List.take_append_drop _ _).symm,
    List.forall₂_take_append l m n h, List.forall₂_drop_append l m n h⟩

/-! ## What tokens stand for -/

theorem Shows.rawText_eq {w : Window} {t : Token} {l : Leaf} (h : Shows w t l)
    (hq : l.isQuoted) : w.rawText? t = some ⟨l.content⟩ := by
  unfold Window.rawText?
  rw [h.kind, h.lexeme]
  obtain ⟨kind, depth, content⟩ := l
  cases kind with
  | key | string => rfl
  | _ => exact absurd hq Bool.false_ne_true

theorem Shows.isContent {w : Window} {t : Token} {l : Leaf} (h : Shows w t l)
    (hq : l.isQuoted) : IsContent l.content := by
  have hsp := h.spells
  obtain ⟨kind, depth, content⟩ := l
  cases hsp with
  | key hc | string hc => exact hc
  | _ => exact absurd hq Bool.false_ne_true

theorem Shows.isNumber {w : Window} {t : Token} {l : Leaf} (h : Shows w t l)
    (hk : l.kind = .number) : IsNumber l.content := by
  have hsp := h.spells
  rw [hk] at hsp
  cases hsp with
  | number hn => exact hn

theorem Shows.rawNumber_eq {w : Window} {t : Token} {l : Leaf} (h : Shows w t l)
    (hk : l.kind = .number) :
    w.rawNumber? t = some ⟨l.content⟩ := by
  simp only [Window.rawNumber?, h.kind, hk, h.lexeme]
  exact if_pos (h.isNumber hk).isValid

/-! ## Where containers open too deep -/

/-- The first leaf that opens a container at the depth. -/
def firstDeep (depth : Nat) (ls : List Leaf) : Option Nat :=
  ls.findIdx? fun l => l.kind.isOpening && l.depth == depth

theorem firstDeep_append (depth : Nat) (ls ms : List Leaf) :
    firstDeep depth (ls ++ ms) =
      (firstDeep depth ls).or ((firstDeep depth ms).map (· + ls.length)) :=
  List.findIdx?_append

namespace Builder

def skip (b : Builder) (n : Nat) : Builder := { b with index := b.index + n }

/-- Tokens of these leaves lead to `b'`, or to an error at the first that opens too deep. -/
def Stops (w : Window) (limit : Nat) (b : Builder) (toks : List Token) (ls : List Leaf)
    (b' : Builder) : Prop :=
  b'.index = b.index + ls.length ∧
  run w b toks = match firstDeep limit ls with
    | some i => .error (.depthLimitExceeded (b.index + i))
    | none => .ok b'

variable {w : Window} {limit : Nat} {b b₁ b₂ : Builder} {ts us : List Token} {ls ms : List Leaf}
  {t : Token} {l : Leaf}

theorem run_append (w : Window) (b : Builder) (ts us : List Token) :
    run w b (ts ++ us) = (run w b ts).bind fun b' => run w b' us := by
  induction ts generalizing b with
  | nil => rfl
  | cons t ts ih =>
    rw [List.cons_append, run, run]
    cases b.step w t with
    | ok b' => exact ih b'
    | error e => rfl

theorem Stops.nil (w : Window) (limit : Nat) (b : Builder) : Stops w limit b [] [] b := ⟨rfl, rfl⟩

theorem Stops.append (h : Stops w limit b ts ls b₁) (h' : Stops w limit b₁ us ms b₂) :
    Stops w limit b (ts ++ us) (ls ++ ms) b₂ := by
  obtain ⟨hi, hr⟩ := h
  obtain ⟨hi', hr'⟩ := h'
  refine ⟨by rw [hi', hi, List.length_append, Nat.add_assoc], ?_⟩
  rw [run_append, hr, firstDeep_append]
  cases hl : firstDeep limit ls with
  | some i => rfl
  | none =>
    show run w b₁ us = _
    rw [hr']
    cases hm : firstDeep limit ms with
    | none => rfl
    | some i =>
      show Except.error _ = Except.error _
      rw [hi, Nat.add_assoc, Nat.add_comm ls.length i]

/-- One token that opens no container too deep. -/
theorem Stops.single (hs : b.step w t = .ok b₁) (hi : b₁.index = b.index + 1)
    (hl : (l.kind.isOpening && l.depth == limit) = false) : Stops w limit b [t] [l] b₁ := by
  refine ⟨hi, ?_⟩
  rw [run, hs, firstDeep, List.findIdx?_cons, hl]
  rfl

/-! ## Values, elements and members -/

/-- Where a value may stand, its first token is taken for one. -/
theorem step_value (ha : b.awaiting.admitsValue false) (hk : ¬ t.kind.isClosing) :
    b.step w t = b.value w t := by
  have hclose : b.closeOr t (b.value w t) = b.value w t := by
    unfold closeOr
    split
    · rename_i frame outer _
      have hne : t.kind ≠ frame.closing := by
        intro he
        rw [he] at hk
        cases frame <;> exact hk rfl
      exact if_neg hne
    · rfl
  unfold step
  cases hb : b.awaiting with
  | document | value => rfl
  | itemOrClose => exact hclose
  | _ =>
    rw [hb] at ha
    cases ha

@[simp] theorem deliver_index (b : Builder) (v : Value) : (b.deliver v).index = b.index := by
  unfold deliver
  split <;> rfl

theorem Stops.scalar {v : Value} {depth : Nat} (hv : b.value w t = .ok (b.advance.deliver v))
    (hl : v.leaves depth = [l]) (hs : Shows w t l) (ha : b.awaiting.admitsValue false)
    (hk : l.kind.isScalar) : Stops w limit b [t] (v.leaves depth) ((b.skip 1).deliver v) := by
  have hclosing : ¬ t.kind.isClosing := by
    rw [hs.kind]
    exact TokenKind.not_isClosing_of_isScalar hk
  have hopening : l.kind.isOpening = false := by
    simpa using TokenKind.not_isOpening_of_isScalar hk
  rw [hl]
  refine .single (by rw [step_value ha hclosing, hv]; rfl) ?_ (by rw [hopening]; rfl)
  exact deliver_index _ _

/-- What is awaited does not matter to a value that is complete. -/
theorem deliver_eq (b : Builder) (v : Value) : b.deliver v =
    (Builder.mk b.index .document b.frames b.result).deliver v := by
  unfold deliver
  cases b.frames with
  | nil => rfl
  | cons frame outer => cases frame <;> rfl

/-- A container that opens as deep as allowed. -/
def opened (b : Builder) (k : Container) : Builder :=
  ⟨b.index + 1, .inside k, (match k with
    | .array => .array []
    | .object => .object [] ⟨[]⟩) :: b.frames, b.result⟩

theorem value_opening {k : Container} (hk : t.kind = .opening k) : b.value w t =
    if maxTreeDepth ≤ b.frames.length then .error (.depthLimitExceeded b.index)
    else .ok (b.opened k) := by
  unfold Builder.value
  cases k <;> simp only [hk, push] <;> rfl

theorem step_opening {k : Container} (ha : b.awaiting.admitsValue false)
    (hk : t.kind = .opening k) : b.step w t =
    if maxTreeDepth ≤ b.frames.length then .error (.depthLimitExceeded b.index)
    else .ok (b.opened k) := by
  rw [step_value ha (by rw [hk]; exact Bool.false_ne_true), value_opening hk]

/-- A container that opens too deep stops everything. -/
theorem Stops.deep {k : Container} (h : Shows w t (.opening k limit))
    (ha : b.awaiting.admitsValue false) (hf : maxTreeDepth ≤ b.frames.length)
    (hi : b₁.index = b.index + (ls.length + 1)) :
    Stops w limit b (t :: ts) (.opening k limit :: ls) b₁ := by
  refine ⟨hi, ?_⟩
  have hfirst : firstDeep limit (.opening k limit :: ls) = some 0 := by
    rw [firstDeep, List.findIdx?_cons]
    exact if_pos (by simp [Leaf.opening, TokenKind.isOpening])
  rw [run, step_opening ha h.kind, if_pos hf, hfirst]
  rfl

theorem Stops.opening {k : Container} {depth : Nat} (h : Shows w t (.opening k depth))
    (ha : b.awaiting.admitsValue false) (hf : b.frames.length < maxTreeDepth)
    (hl : depth < limit) : Stops w limit b [t] [.opening k depth] (b.opened k) := by
  refine .single (by rw [step_opening ha h.kind, if_neg (by omega)]) rfl ?_
  have hne : depth ≠ limit := by omega
  simp [Leaf.opening, TokenKind.isOpening, hne]

theorem step_closing {frame : Frame} {outer : List Frame} (ha : b.awaiting.admitsClose)
    (hf : b.frames = frame :: outer) (hk : t.kind = frame.closing) :
    b.step w t =
      .ok ((Builder.mk (b.index + 1) b.awaiting outer b.result).deliver frame.close) := by
  have hclose : ∀ other, b.closeOr t other =
      .ok ((Builder.mk (b.index + 1) b.awaiting outer b.result).deliver frame.close) := by
    intro other
    unfold closeOr
    simp only [hf]
    exact if_pos hk
  unfold step
  split <;> rename_i hb <;> first | exact hclose _ | (rw [hb] at ha; cases ha)

theorem Stops.closing {frame : Frame} {outer : List Frame} {k : Container} {depth : Nat}
    (h : Shows w t (.closing k depth)) (ha : b.awaiting.admitsClose)
    (hf : b.frames = frame :: outer) (hk : frame.closing = .closing k) :
    Stops w limit b [t] [.closing k depth]
      ((Builder.mk (b.index + 1) .document outer b.result).deliver frame.close) := by
  have hkind : t.kind = frame.closing := h.kind.trans hk.symm
  refine .single ?_ (deliver_index _ _) rfl
  rw [step_closing ha hf hkind, deliver_eq]

/-- A container, if what it holds leads to its last bracket. -/
theorem Stops.container {v : Value} {k : Container} {depth : Nat}
    (h : List.Forall₂ (Shows w) ts (.opening k depth :: (ls ++ [.closing k depth])))
    (ha : b.awaiting.admitsValue false) (hf : b.frames.length ≤ maxTreeDepth)
    (hl : limit + b.frames.length = depth + maxTreeDepth)
    (hin : ∀ ti, List.Forall₂ (Shows w) ti ls → b.frames.length < maxTreeDepth →
      ∃ frame a, frame.closing = .closing k ∧ frame.close = v ∧ Scan.Awaiting.admitsClose a ∧
        Stops w limit (b.opened k) ti ls
          ⟨b.index + 1 + ti.length, a, frame :: b.frames, b.result⟩) :
    Stops w limit b ts (.opening k depth :: (ls ++ [.closing k depth]))
      ((b.skip ts.length).deliver v) := by
  have hlen := h.length_eq
  cases h with
  | @cons o _ ts _ ho h =>
    -- Either the container may open, or all stops at its first bracket.
    rcases Nat.lt_or_ge b.frames.length maxTreeDepth with hlt | hge
    · obtain ⟨ti, tc, rfl, hi, hc⟩ := forall₂_append_right h
      obtain ⟨frame, a, hclosing, rfl, hac, hstops⟩ := hin ti hi hlt
      cases hc with
      | @cons c _ _ _ hc hnil =>
        cases hnil
        have hopen : Stops w limit b [o] [.opening k depth] _ := Stops.opening ho ha hlt (by omega)
        have hclose : Stops w limit ⟨b.index + 1 + ti.length, a, frame :: b.frames, b.result⟩ [c]
            [.closing k depth] _ := Stops.closing hc hac rfl hclosing
        have hall := hopen.append (hstops.append hclose)
        have hskip : (b.skip (o :: (ti ++ [c])).length).deliver frame.close =
            (Builder.mk (b.index + 1 + ti.length + 1) .document b.frames b.result).deliver
              frame.close := by
          rw [deliver_eq, List.length_cons, List.length_append]
          simp [skip]
          congr 2
          omega
        rw [hskip]
        exact hall
    · obtain rfl : depth = limit := by omega
      refine .deep ho ha hge ?_
      have hlen' : (o :: ts).length = (ls ++ [Leaf.closing k depth]).length + 1 := hlen
      rw [deliver_index, ← hlen']
      rfl

theorem step_comma (ha : b.awaiting = .commaOrClose) (hk : t.kind = .comma) :
    b.step w t =
      .ok ⟨b.index + 1, .next (b.frames.map Frame.container), b.frames, b.result⟩ := by
  have hstep : b.step w t = b.comma t := by
    simp only [step, ha, closeOr]
    split
    · rename_i frame outer _
      have hne : t.kind ≠ frame.closing := by
        rw [hk]
        cases frame <;> exact nofun
      exact if_neg hne
    · rfl
  rw [hstep, Builder.comma, if_pos hk]
  obtain ⟨index, awaiting, frames, result⟩ := b
  cases frames with
  | nil => rfl
  | cons frame outer => cases frame <;> rfl

theorem Stops.comma {depth : Nat} (h : Shows w t (.comma depth)) (ha : b.awaiting = .commaOrClose) :
    Stops w limit b [t] [.comma depth] ⟨b.index + 1, .next (b.frames.map Frame.container),
      b.frames, b.result⟩ :=
  .single (step_comma ha h.kind) rfl rfl

theorem Stops.item {v : Value} {depth : Nat} {done : List Value} {outer : List Frame}
    (hv : Stops w limit b ts (v.leaves depth) ((b.skip ts.length).deliver v))
    (hb : b.frames = .array done :: outer)
    (hr : Stops w limit
      ⟨b.index + ts.length, .commaOrClose, .array (v :: done) :: outer, b.result⟩ us ls b₂) :
    Stops w limit b (ts ++ us) (v.leaves depth ++ ls) b₂ := by
  have he : (b.skip ts.length).deliver v =
      ⟨b.index + ts.length, .commaOrClose, .array (v :: done) :: outer, b.result⟩ := by
    simp only [deliver, skip, hb]
  rw [he] at hv
  exact hv.append hr

theorem step_key {name old : RawText} {depth : Nat} {done : List (RawText × Value)}
    {outer : List Frame} (h : Shows w t (.key name depth)) (ha : b.awaiting.admitsKey)
    (hb : b.frames = .object done old :: outer) :
    b.step w t = .ok ⟨b.index + 1, .colon, .object done name :: outer, b.result⟩ := by
  have hk : t.kind = .key := h.kind
  have hkey : b.key w t = .ok ⟨b.index + 1, .colon, .object done name :: outer, b.result⟩ := by
    simp only [Builder.key, hk, hb, h.lexeme]
    rfl
  have hclose : b.closeOr t (b.key w t) = b.key w t := by
    simp only [closeOr, hb, hk]
    exact if_neg nofun
  rw [← hkey]
  unfold step
  split <;> rename_i ha' <;> first | rfl | exact hclose | (rw [ha'] at ha; cases ha)

theorem step_colon {depth : Nat} (h : Shows w t (.colon depth)) (ha : b.awaiting = .colon) :
    b.step w t = .ok ⟨b.index + 1, .value, b.frames, b.result⟩ := by
  simp only [step, ha]
  exact if_pos h.kind

/-- A name, its colon and the value. -/
theorem Stops.member {name old : RawText} {v : Value} {depth : Nat}
    {done : List (RawText × Value)} {outer : List Frame} {k c : Token}
    (hk : Shows w k (.key name depth)) (hc : Shows w c (.colon depth)) (ha : b.awaiting.admitsKey)
    (hb : b.frames = .object done old :: outer)
    (hv : Stops w limit ⟨b.index + 2, .value, .object done name :: outer, b.result⟩ ts
      (v.leaves depth) ((Builder.mk (b.index + 2 + ts.length) .value (.object done name :: outer)
        b.result).deliver v))
    (hr : Stops w limit ⟨b.index + 2 + ts.length, .commaOrClose,
      .object ((name, v) :: done) name :: outer, b.result⟩ us ls b₂) :
    Stops w limit b (k :: c :: (ts ++ us))
      (.key name depth :: .colon depth :: (v.leaves depth ++ ls)) b₂ := by
  have hname : Stops w limit b [k] [.key name depth] _ := .single (step_key hk ha hb) rfl rfl
  have hcolon : Stops w limit ⟨b.index + 1, .colon, .object done name :: outer, b.result⟩ [c]
      [.colon depth] _ := .single (step_colon hc rfl) rfl rfl
  exact hname.append (hcolon.append (hv.append hr))

mutual

/-- **The tokens of a value deliver it, unless a container opens too deep.** -/
theorem Stops.value : ∀ {v : Value} {depth : Nat} {b : Builder} {ts : List Token},
    List.Forall₂ (Shows w) ts (v.leaves depth) → b.awaiting.admitsValue false →
    b.frames.length ≤ maxTreeDepth → limit + b.frames.length = depth + maxTreeDepth →
    Stops w limit b ts (v.leaves depth) ((b.skip ts.length).deliver v)
  | .null, _, b, _, .cons h .nil, ha, _, _ => by
    refine .scalar ?_ rfl h ha rfl
    simp [Builder.value, h.kind]
  | .bool true, _, b, _, .cons h .nil, ha, _, _ => by
    refine .scalar ?_ rfl h ha rfl
    simp [Builder.value, h.kind]
  | .bool false, _, b, _, .cons h .nil, ha, _, _ => by
    refine .scalar ?_ rfl h ha rfl
    simp [Builder.value, h.kind]
  | .number n, _, b, _, .cons h .nil, ha, _, _ => by
    refine .scalar ?_ rfl h ha rfl
    simp [Builder.value, h.kind, h.rawNumber_eq rfl]
  | .string s, _, b, _, .cons h .nil, ha, _, _ => by
    refine .scalar ?_ rfl h ha rfl
    simp [Builder.value, h.kind, h.lexeme]
  | .array items, depth, b, ts, h, ha, hf, hl => by
    refine .container h ha hf hl fun ti hi hlt => ?_
    have hstops : Stops w limit (b.opened .array) ti (itemLeaves (depth + 1) items false) _ :=
      Stops.items hi rfl rfl hlt (by simp only [opened, List.length_cons]; omega)
    refine ⟨_, _, rfl, ?_, ?_, hstops⟩
    · rw [List.append_nil, Frame.close, List.reverse_reverse]
    · cases items <;> rfl
  | .object members, depth, b, ts, h, ha, hf, hl => by
    refine .container h ha hf hl fun ti hi hlt => ?_
    obtain ⟨name, hstops⟩ := Stops.members (b := b.opened .object) hi rfl rfl hlt
      (by simp only [opened, List.length_cons]; omega)
    refine ⟨_, _, rfl, ?_, ?_, hstops⟩
    · rw [List.append_nil, Frame.close, List.reverse_reverse]
    · cases members <;> rfl

theorem Stops.items : ∀ {items : List Value} {depth : Nat} {b : Builder} {ts : List Token}
    {comma : Bool} {done : List Value} {outer : List Frame},
    List.Forall₂ (Shows w) ts (itemLeaves depth items comma) → b.frames = .array done :: outer →
    b.awaiting = (if comma then .commaOrClose else .itemOrClose) →
    b.frames.length ≤ maxTreeDepth → limit + b.frames.length = depth + maxTreeDepth →
    Stops w limit b ts (itemLeaves depth items comma)
      ⟨b.index + ts.length, if items.isEmpty then b.awaiting else .commaOrClose,
        .array (items.reverse ++ done) :: outer, b.result⟩
  | [], depth, b, _, comma, done, outer, .nil, hb, _, _, _ => by
    obtain ⟨index, awaiting, frames, result⟩ := b
    subst hb
    exact .nil w limit _
  | v :: items, depth, b, ts, false, done, outer, h, hb, ha, hf, hl => by
    obtain ⟨tv, tr, rfl, hv, hr⟩ := forall₂_append_right (m := v.leaves depth) h
    have hvalue := Stops.value hv (by rw [ha]; rfl) hf hl
    have hrest : Stops w limit
        ⟨b.index + tv.length, .commaOrClose, .array (v :: done) :: outer, b.result⟩ tr
        (itemLeaves depth items true) _ :=
      Stops.items hr rfl rfl (by rwa [hb] at hf) (by rwa [hb] at hl)
    have hall := hvalue.item hb hrest
    simpa [itemLeaves, Nat.add_assoc] using hall
  | v :: items, depth, b, t :: ts, true, done, outer, .cons hc h, hb, ha, hf, hl => by
    obtain ⟨tv, tr, rfl, hv, hr⟩ := forall₂_append_right (m := v.leaves depth) h
    have hcomma : Stops w limit b [t] [.comma depth] ⟨b.index + 1, .value, b.frames, b.result⟩ := by
      have hc' : Stops w limit b [t] [.comma depth] _ := Stops.comma hc ha
      rwa [show Scan.Awaiting.next (b.frames.map Frame.container) = .value by rw [hb]; rfl] at hc'
    have hvalue : Stops w limit ⟨b.index + 1, .value, b.frames, b.result⟩ tv (v.leaves depth) _ :=
      Stops.value hv rfl hf hl
    have hrest : Stops w limit
        ⟨b.index + 1 + tv.length, .commaOrClose, .array (v :: done) :: outer, b.result⟩ tr
        (itemLeaves depth items true) _ :=
      Stops.items hr rfl rfl (by rwa [hb] at hf) (by rwa [hb] at hl)
    have hall := hcomma.append (hvalue.item hb hrest)
    simpa [itemLeaves, ha, Nat.add_assoc, Nat.add_comm, Nat.add_left_comm] using hall

theorem Stops.members : ∀ {members : List (RawText × Value)} {depth : Nat} {b : Builder}
    {ts : List Token} {comma : Bool} {done : List (RawText × Value)} {old : RawText}
    {outer : List Frame}, List.Forall₂ (Shows w) ts (memberLeaves depth members comma) →
    b.frames = .object done old :: outer →
    b.awaiting = (if comma then .commaOrClose else .keyOrClose) →
    b.frames.length ≤ maxTreeDepth → limit + b.frames.length = depth + maxTreeDepth →
    ∃ name, Stops w limit b ts (memberLeaves depth members comma)
      ⟨b.index + ts.length, if members.isEmpty then b.awaiting else .commaOrClose,
        .object (members.reverse ++ done) name :: outer, b.result⟩
  | [], depth, b, _, comma, done, old, outer, .nil, hb, _, _, _ => by
    obtain ⟨index, awaiting, frames, result⟩ := b
    subst hb
    exact ⟨old, .nil w limit _⟩
  | (name, v) :: members, depth, b, k :: c :: ts, false, done, old, outer, .cons hk (.cons hc h),
      hb, ha, hf, hl => by
    obtain ⟨tv, tr, rfl, hv, hr⟩ := forall₂_append_right (m := v.leaves depth) h
    have hvalue : Stops w limit ⟨b.index + 2, .value, .object done name :: outer, b.result⟩ tv
        (v.leaves depth) _ := Stops.value hv rfl (by rwa [hb] at hf) (by rwa [hb] at hl)
    obtain ⟨last, hrest⟩ := Stops.members
      (b := ⟨b.index + 2 + tv.length, .commaOrClose, .object ((name, v) :: done) name :: outer,
        b.result⟩) hr rfl rfl (by rwa [hb] at hf) (by rwa [hb] at hl)
    have hall := Stops.member hk hc (by rw [ha]; rfl) hb hvalue hrest
    refine ⟨last, ?_⟩
    simpa [memberLeaves, Nat.add_assoc, Nat.add_comm, Nat.add_left_comm] using hall
  | (name, v) :: members, depth, b, t :: k :: c :: ts, true, done, old, outer,
      .cons ht (.cons hk (.cons hc h)), hb, ha, hf, hl => by
    obtain ⟨tv, tr, rfl, hv, hr⟩ := forall₂_append_right (m := v.leaves depth) h
    have hcomma : Stops w limit b [t] [.comma depth] ⟨b.index + 1, .key, b.frames, b.result⟩ := by
      have hc' : Stops w limit b [t] [.comma depth] _ := Stops.comma ht ha
      rwa [show Scan.Awaiting.next (b.frames.map Frame.container) = .key by rw [hb]; rfl] at hc'
    have hvalue : Stops w limit ⟨b.index + 1 + 2, .value, .object done name :: outer, b.result⟩ tv
        (v.leaves depth) _ := Stops.value hv rfl (by rwa [hb] at hf) (by rwa [hb] at hl)
    obtain ⟨last, hrest⟩ := Stops.members
      (b := ⟨b.index + 1 + 2 + tv.length, .commaOrClose, .object ((name, v) :: done) name :: outer,
        b.result⟩) hr rfl rfl (by rwa [hb] at hf) (by rwa [hb] at hl)
    have hall := hcomma.append (Stops.member (b := ⟨b.index + 1, .key, b.frames, b.result⟩) hk hc
      rfl hb hvalue hrest)
    refine ⟨last, ?_⟩
    simpa [memberLeaves, Nat.add_assoc, Nat.add_comm, Nat.add_left_comm] using hall

end

end Builder

/-! ## Whole windows -/

/-- Between two depths at which containers open, containers open at every depth. -/
theorem Scan.Control.Run.exists_opening {limits : Scan.Limits} {c c' : Scan.Control}
    {ls : List Leaf} (h : Scan.Control.Run limits c ls c') {depth : Nat}
    (hc : c.stack.length ≤ depth) (hl : ∃ l ∈ ls, l.kind.isOpening ∧ depth ≤ l.depth) :
    ∃ l ∈ ls, l.kind.isOpening ∧ l.depth = depth := by
  -- The stack grows by one at a time: the first container to open at the depth or deeper does so at
  -- the depth.
  induction h with
  | nil => simp at hl
  | @cons c c₁ c₂ l ls hs hr ih =>
    by_cases hfirst : l.kind.isOpening ∧ l.depth = depth
    · exact ⟨l, List.mem_cons_self, hfirst⟩
    have hstack : c₁.stack.length ≤ depth ∧ (l.kind.isOpening → l.depth < depth) := by
      cases hs with
      | opening k ha hd =>
        have hne : c.stack.length ≠ depth := fun he => hfirst ⟨rfl, he⟩
        exact ⟨by rw [List.length_cons]; omega, fun _ => show c.stack.length < depth by omega⟩
      | closing k ha =>
        refine ⟨?_, nofun⟩
        rw [List.length_cons] at hc
        exact Nat.le_of_succ_le hc
      | scalar content hk ha =>
        exact ⟨hc, fun ho => absurd ho (TokenKind.not_isOpening_of_isScalar hk)⟩
      | _ => exact ⟨hc, nofun⟩
    obtain ⟨m, hm, ho, hd⟩ := hl
    rcases List.mem_cons.1 hm with rfl | hm
    · exact absurd (hstack.2 ho) (by omega)
    · obtain ⟨n, hn, hon⟩ := ih hstack.1 ⟨m, hm, ho, hd⟩
      exact ⟨n, List.mem_cons_of_mem _ hn, hon⟩

/-- The leaves of a value are read at any depth, if enough containers may nest. -/
theorem Value.run_leaves (v : Value) (depth : Nat) : Scan.Control.Run ⟨depth + v.nesting, false⟩
    ⟨.document, List.replicate depth .array⟩ (v.leaves depth)
    (Scan.Control.endValue ⟨.document, List.replicate depth .array⟩) := by
  have hlen : (List.replicate depth Container.array).length = depth := List.length_replicate
  have hrun := @Scan.Control.Run.value ⟨depth + v.nesting, false⟩ v
    ⟨.document, List.replicate depth .array⟩ rfl (Nat.le_of_eq (by rw [hlen]))
  rwa [hlen] at hrun

/-- No container opens so deep just when the containers of the value nest no deeper. -/
theorem firstDeep_eq_none_iff (v : Value) (depth bound : Nat) :
    firstDeep (depth + bound) (v.leaves depth) = none ↔ v.nesting ≤ bound := by
  have hlen : (List.replicate depth Container.array).length = depth := List.length_replicate
  have hrun := v.run_leaves depth
  rw [firstDeep, List.findIdx?_eq_none_iff]
  constructor
  · intro hnone
    have hlt : ∀ l ∈ v.leaves depth, l.kind.isOpening → l.depth < depth + bound := by
      intro l hl ho
      refine Nat.lt_of_not_le fun hge => ?_
      obtain ⟨m, hm, hmo, hmd⟩ :=
        hrun.exists_opening (by rw [hlen]; exact Nat.le_add_right _ _) ⟨l, hl, ho, hge⟩
      have hfalse := hnone m hm
      simp [hmo, hmd] at hfalse
    have hle : depth + v.nesting ≤ depth + bound := v.nesting_le hlt (Nat.le_add_right _ _)
    omega
  · intro hle l hl
    by_cases ho : l.kind.isOpening
    · have hlt : l.depth < depth + v.nesting := hrun.depth_lt l hl ho
      have hne : l.depth ≠ depth + bound := by omega
      simp [hne]
    · simp [ho]

/-- The value of a window that starts with the tokens of a value. -/
theorem Window.value_of_shows {w : Window} {ts rest : List Token} {v : Value} {depth : Nat}
    (hw : w.tokens = ts ++ rest) (h : List.Forall₂ (Shows w) ts (v.leaves depth)) :
    w.value = match firstDeep (depth + maxTreeDepth) (v.leaves depth) with
      | some i => .error (.depthLimitExceeded i)
      | none => if rest.isEmpty then .ok v else .error (.trailingTokens ts.length) := by
  have hne : w.tokens.isEmpty = false := by
    cases ts with
    | nil => exact absurd (List.forall₂_nil_left_iff.1 h) (v.leaves_ne_nil depth)
    | cons t ts => rw [hw]; rfl
  have hstops : Builder.Stops w (depth + maxTreeDepth) {} ts (v.leaves depth) _ :=
    Builder.Stops.value h rfl (Nat.zero_le _) (Nat.add_zero _)
  obtain ⟨-, hrun⟩ := hstops
  unfold Window.value
  rw [hne, hw, Builder.run_append, hrun]
  cases firstDeep (depth + maxTreeDepth) (v.leaves depth) with
  | some i => simp [Except.bind]
  | none =>
    cases rest with
    | nil => rfl
    | cons t rest => simp [Except.bind, Builder.run, Builder.step, Builder.deliver, Builder.skip]

/-- A window that decodes holds one value and nothing else. -/
theorem Window.value_eq_ok_iff {w : Window} {ts rest : List Token} {v u : Value} {depth : Nat}
    (hw : w.tokens = ts ++ rest) (h : List.Forall₂ (Shows w) ts (v.leaves depth)) :
    w.value = .ok u ↔ v.nesting ≤ maxTreeDepth ∧ rest = [] ∧ u = v := by
  rw [Window.value_of_shows hw h, ← firstDeep_eq_none_iff v depth]
  cases firstDeep (depth + maxTreeDepth) (v.leaves depth) with
  | some i => simp
  | none =>
    cases rest with
    | nil => simp [eq_comm]
    | cons t rest => simp

end FlatJson
