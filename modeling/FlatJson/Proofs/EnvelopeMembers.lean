import FlatJson.Proofs.Navigation
import FlatJson.Proofs.SampledOffsets

/-!
# Members of an object that are arrays

The scan of an object knows a depth and whether a colon came last.  On an accepted text that is
enough: it samples an array just where a member of the object itself has one.

* `Envelope.Finds` — what the scan samples over pieces of a text.
* `Envelope.Agrees` — the scan agrees with the automaton that decides which token may follow.
* `Envelope.Agrees.step`, `Envelope.Agrees.run` — one piece, and pieces in a row.
* `Tokenizer.shape_of_object` — the shape of an accepted text that starts with an object.
-/

namespace FlatJson

open Scan (Control Limits)

/-- Whether the token is the opening bracket of an array that is a member of a root object. -/
def Token.isMemberArray (t : Token) : Bool := t.kind == .opening .array && t.depth == 1

namespace Envelope

variable {settings : ShapeSettings} {e e' x : Envelope} {b : UInt8} {u v rest : Bytes}

/-! ## Texts without arrays -/

/-- Over `u`, before `rest`, nothing is sampled, and `e` becomes `e'`. -/
def Quiet (settings : ShapeSettings) (e e' : Envelope) (u rest : Bytes) : Prop :=
  ∀ offset, sampledFrom settings offset e (u ++ rest) =
    sampledFrom settings (offset + u.length) e' rest

theorem Quiet.nil (e : Envelope) (rest : Bytes) : Quiet settings e e [] rest := fun _ => rfl

theorem Quiet.trans (h : Quiet settings e e' u (v ++ rest)) (h' : Quiet settings e' x v rest) :
    Quiet settings e x (u ++ v) rest := by
  intro offset
  rw [List.append_assoc, h, h', List.length_append, Nat.add_assoc]

theorem quiet_byte (h : e.step settings b rest = some e') (hs : e.samples b = false) :
    Quiet settings e e' [b] rest := by
  intro offset
  rw [List.singleton_append, sampledFrom, h, hs]
  rfl

theorem step_between (he : e.place = .between) (b : UInt8) (rest : Bytes) :
    e.step settings b rest = e.structural settings b rest := by
  rw [step, he]

theorem quiet_closer (he : e.place = .between) (hd : e.depth ≠ 0) (k : Container) :
    Quiet settings e { e with depth := e.depth - 1 } [k.closer] rest := by
  refine quiet_byte ?_ ?_
  · rw [step_between he]
    cases k <;> simp [structural, Container.closer, Byte.quote, hd]
  · cases k <;> simp [samples, Container.closer]

theorem quiet_comma (he : e.place = .between) :
    Quiet settings e { e with afterColon := false } [0x2C] rest := by
  refine quiet_byte ?_ (by simp [samples])
  rw [step_between he]
  rfl

theorem quiet_colon (he : e.place = .between) :
    Quiet settings e { e with afterColon := e.depth == 0 } [0x3A] rest := by
  refine quiet_byte ?_ (by simp [samples])
  rw [step_between he]
  by_cases hd : e.depth = 0
  · simp [structural, Byte.quote, hd]
  · simp [structural, Byte.quote, Byte.isBlank, hd]

theorem quiet_blank (he : e.place = .between) (hu : Blank u) : Quiet settings e e u rest := by
  induction u with
  | nil => exact .nil e rest
  | cons b u ih =>
    obtain ⟨hb, hu⟩ := List.forall_mem_cons.1 hu
    have hstep : e.step settings b (u ++ rest) = some e := by
      rw [step_between he]
      exact structural_blank hb
    have hopener : ∀ b, Byte.isBlank b → (b == 0x5B) = false := by decide +kernel
    have hbyte : Quiet settings e e [b] (u ++ rest) :=
      quiet_byte hstep (by simp [samples, hopener b hb])
    exact hbyte.trans (ih hu)

/-- Inside a string. -/
theorem quiet_string (escaped : Bool) (he : e.place = Sample.stringPlace escaped)
    (h : e.step settings b rest = some e') : Quiet settings e e' [b] rest := by
  refine quiet_byte h ?_
  cases escaped <;> simp [samples, he, Sample.stringPlace]

theorem quiet_content (e : Envelope) (hu : IsContent u) :
    Quiet settings { e with place := .string } { e with place := .string } u rest := by
  have hplain : ∀ (b : UInt8) (rest : Bytes), b ≠ Byte.quote → b ≠ Byte.backslash →
      Quiet settings { e with place := .string } { e with place := .string } [b] rest := by
    intro b rest hq hb
    have hq : (b == Byte.quote) = false := by simpa using hq
    have hb : (b == Byte.backslash) = false := by simpa using hb
    exact quiet_string false rfl (by simp [step, hq, hb])
  have hescape : ∀ (b : UInt8) (rest : Bytes), Quiet settings { e with place := .string }
      { e with place := .string } [Byte.backslash, b] rest := by
    intro b rest
    have hback : Quiet settings { e with place := .string } { e with place := .escape }
        [Byte.backslash] ([b] ++ rest) := quiet_string false rfl rfl
    exact hback.trans (quiet_string true rfl rfl)
  induction hu with
  | nil => exact .nil _ rest
  | plain _ hq hb _ ih => exact (hplain _ _ hq hb).trans ih
  | short _ _ ih => exact (hescape _ _).trans ih
  | @unit h₁ h₂ h₃ h₄ s d₁ d₂ d₃ d₄ _ ih =>
    have hdigit : ∀ b, Byte.isHexDigit b → b ≠ Byte.quote ∧ b ≠ Byte.backslash := by
      decide +kernel
    have hbyte : ∀ b rest, Byte.isHexDigit b →
        Quiet settings { e with place := .string } { e with place := .string } [b] rest :=
      fun b rest hb => hplain b rest (hdigit b hb).1 (hdigit b hb).2
    have hdigits : Quiet settings { e with place := .string } { e with place := .string }
        ([h₁] ++ ([h₂] ++ ([h₃] ++ ([h₄] ++ s)))) rest :=
      have hlast := (hbyte h₃ _ d₃).trans ((hbyte h₄ _ d₄).trans ih)
      (hbyte h₁ _ d₁).trans ((hbyte h₂ _ d₂).trans hlast)
    exact (hescape 0x75 (h₁ :: h₂ :: h₃ :: h₄ :: (s ++ rest))).trans hdigits

theorem quiet_quoted (he : e.place = .between) (hu : IsContent u) :
    Quiet settings e { e with afterColon := false } (quoted u) rest := by
  have hopen : Quiet settings e { e with place := .string, afterColon := false } [Byte.quote]
      (u ++ [Byte.quote] ++ rest) := by
    refine quiet_byte ?_ (by simp [samples, Byte.quote])
    rw [step, he]
    rfl
  have hin : Quiet settings { e with place := .string, afterColon := false }
      { e with place := .string, afterColon := false } u ([Byte.quote] ++ rest) :=
    quiet_content { e with afterColon := false } hu
  have hclose : Quiet settings { e with place := .string, afterColon := false }
      { e with afterColon := false } [Byte.quote] rest := by
    refine quiet_string false rfl ?_
    rw [he]
    rfl
  exact hopen.trans (hin.trans hclose)

theorem quiet_scalarByte (he : e.place = .between) (hb : Cursor.isSeparator b = false) :
    Quiet settings e { e with afterColon := false } [b] rest := by
  simp only [Cursor.isSeparator, Bool.or_eq_false_iff] at hb
  refine quiet_byte ?_ (by simp [samples, hb])
  simp [step, structural, he, hb]

theorem quiet_scalar (he : e.place = .between) (hne : u ≠ [])
    (hu : ∀ b ∈ u, Cursor.isSeparator b = false) :
    Quiet settings e { e with afterColon := false } u rest := by
  induction u generalizing e with
  | nil => exact absurd rfl hne
  | cons b u ih =>
    obtain ⟨hb, hu⟩ := List.forall_mem_cons.1 hu
    have hfirst : Quiet settings e { e with afterColon := false } [b] (u ++ rest) :=
      quiet_scalarByte he hb
    by_cases hnil : u = []
    · subst hnil
      exact hfirst
    · exact hfirst.trans (ih he hnil hu)

/-- A value that is no container. -/
theorem quiet_leaf {l : Leaf} (he : e.place = .between) (h : Spells l.kind l.content)
    (hk : l.kind.isScalar) : Quiet settings e { e with afterColon := false } l.spelling rest := by
  obtain ⟨kind, depth, content⟩ := l
  cases h with
  | string hc => exact quiet_quoted he hc
  | number hn => exact quiet_scalar he hn.ne_nil hn.not_separator
  | word w => exact quiet_scalar he (by cases w <;> exact List.cons_ne_nil _ _) w.not_separator
  | _ => cases hk

/-! ## Pieces -/

/-- Over pieces, before `rest`, the arrays that are sampled are the member arrays among the tokens
of the pieces, and `e` becomes `e'`. -/
def Finds (settings : ShapeSettings) (e e' : Envelope) (ps : List Piece) (rest : Bytes) : Prop :=
  ∀ offset, sampledFrom settings offset e (spread ps ++ rest) =
    ((tokensAt offset ps).filter Token.isMemberArray).map Token.offset ++
      sampledFrom settings (offset + (spread ps).length) e' rest

variable {p : Piece} {ps qs : List Piece}

theorem Finds.nil (e : Envelope) (rest : Bytes) : Finds settings e e [] rest := fun _ => rfl

theorem Finds.append (h : Finds settings e e' ps (spread qs ++ rest))
    (h' : Finds settings e' x qs rest) : Finds settings e x (ps ++ qs) rest := by
  intro offset
  rw [spread_append, List.append_assoc, h, h', tokensAt_append, List.filter_append,
    List.map_append, List.append_assoc, List.length_append, Nat.add_assoc]

theorem isMemberArray_token (p : Piece) (offset : Nat) : (p.token offset).isMemberArray =
    (p.leaf.kind == .opening .array && p.leaf.depth == 1) := by
  have hdepth : (min p.leaf.depth maxReportedDepth == 1) = (p.leaf.depth == 1) := by
    rw [Bool.eq_iff_iff, beq_iff_eq, beq_iff_eq, maxReportedDepth]
    omega
  rw [← hdepth]
  rfl

/-- A piece that is no member array. -/
theorem Finds.of_quiet (he : e.place = .between) (hp : Blank p.pad)
    (hk : (p.leaf.kind == .opening .array && p.leaf.depth == 1) = false)
    (h : Quiet settings e e' p.leaf.spelling rest) : Finds settings e e' [p] rest := by
  intro offset
  have hpad : Quiet settings e e p.pad (p.leaf.spelling ++ rest) := quiet_blank he hp
  have htokens : (tokensAt offset [p]).filter Token.isMemberArray = [] := by
    rw [tokensAt, tokensAt, List.filter_cons, isMemberArray_token, hk]
    rfl
  have htext : spread [p] = p.pad ++ p.leaf.spelling := List.append_nil _
  rw [htokens, htext, hpad.trans h]
  rfl

theorem step_opener (settings : ShapeSettings) (he : e.place = .between) (k : Container)
    (rest : Bytes) :
    ∃ e', e.step settings k.opener rest = some e' ∧ e'.place = .between ∧
      e'.depth = e.depth + 1 ∧ e'.afterColon = false := by
  rw [step_between he]
  cases k with
  | object => exact ⟨{ e with depth := e.depth + 1, afterColon := false }, rfl, he, rfl, rfl⟩
  | array =>
    by_cases hsampled : e.depth == 0 && e.afterColon
    · refine ⟨{ e with
        depth := e.depth + 1, afterColon := false
        best := e.best.larger (sampleArray settings rest) }, ?_, he, rfl, rfl⟩
      simp [structural, Container.opener, Byte.quote, hsampled, offer_eq]
    · refine ⟨{ e with depth := e.depth + 1, afterColon := false }, ?_, he, rfl, rfl⟩
      simp [structural, Container.opener, Byte.quote, hsampled]

/-- An opening bracket is sampled if it opens a member array. -/
theorem finds_opening (settings : ShapeSettings) (he : e.place = .between) {pad : Bytes}
    (hpad : Blank pad) (k : Container) (hcolon : e.depth = 0 → e.afterColon = true)
    (rest : Bytes) :
    ∃ e', e'.place = .between ∧ e'.depth = e.depth + 1 ∧ e'.afterColon = false ∧
      Finds settings e e' [⟨pad, .opening k (e.depth + 1)⟩] rest := by
  obtain ⟨e', hstep, hplace, hdepth, hafter⟩ := step_opener settings he k rest
  refine ⟨e', hplace, hdepth, hafter, fun offset => ?_⟩
  obtain ⟨p, hp⟩ : ∃ p : Piece, p = ⟨pad, .opening k (e.depth + 1)⟩ := ⟨_, rfl⟩
  have hsamples : e.samples k.opener = (p.token offset).isMemberArray := by
    rw [isMemberArray_token, hp]
    cases k with
    | object => simp [samples, Leaf.opening, Container.opener]
    | array =>
      by_cases hd : e.depth = 0
      · simp [samples, he, hd, hcolon hd, Leaf.opening, Container.opener]
      · have hd : (e.depth == 0) = false := by simpa using hd
        simp [samples, he, hd, Leaf.opening]
  have hoffset : (p.token offset).offset = offset + pad.length := by
    rw [hp]
    rfl
  have htext : spread [p] ++ rest = pad ++ k.opener :: rest := by
    rw [hp]
    simp [Piece.text, Leaf.opening, Leaf.spelling, Leaf.isQuoted]
  have hlen : offset + (spread [p]).length = offset + pad.length + 1 := by
    rw [hp]
    simp [Piece.text, Leaf.opening, Leaf.spelling, Leaf.isQuoted, Nat.add_assoc]
  rw [← hp, htext, hlen, quiet_blank he hpad, sampledFrom, hstep, hsamples, tokensAt, tokensAt,
    List.filter_cons, ← hoffset]
  cases (p.token offset).isMemberArray <;> rfl

/-! ## Agreement with the automaton -/

/-- Before a closing bracket outside all containers but its own, only its own is open. -/
theorem stack_of_closing {limits : Limits} {c c' : Control} {k : Container}
    (h : Control.Step limits c (.closing k 0) c') : c.stack = [k] := by
  generalize hl : Leaf.closing k 0 = l at h
  have hkind : l.kind = .closing k := hl ▸ rfl
  have hdepth : l.depth = 0 := hl ▸ rfl
  cases h with
  | closing k' _ =>
    cases hkind
    rw [List.length_eq_zero_iff.1 hdepth]
  | @scalar _ kind _ hk _ =>
    obtain rfl : kind = .closing k := hkind
    cases hk
  | _ => cases hkind

/-- The scan of an object and the automaton are in the same place inside a root object: the depth
is that of the open containers, and after a colon of the object itself a value is awaited. -/
structure Agrees (several : Bool) (c : Control) (e : Envelope) : Prop where
  place : e.place = .between
  stack : ∃ inner, c.stack = inner ++ [.object] ∧ inner.length = e.depth
  colon : e.afterColon = (e.depth == 0 && c.awaiting.admitsValue several)

variable {limits : Limits} {c c' : Control}

theorem awaiting_endValue (h : c.stack ≠ []) : c.endValue.awaiting = .commaOrClose :=
  if_neg (by simpa using h)

/-- **One piece keeps the scan of an object and the automaton in agreement.** -/
theorem Agrees.step (settings : ShapeSettings) (h : Agrees limits.several c e) (hp : p.Proper)
    (hs : Control.Step limits c p.leaf c') (hd : p.leaf.depth ≠ 0) (rest : Bytes) :
    ∃ e', Agrees limits.several c' e' ∧ Finds settings e e' [p] rest := by
  obtain ⟨pad, l⟩ := p
  obtain ⟨hpad, hspells⟩ := hp
  obtain ⟨hplace, ⟨inner, hstack, hdepth⟩, hcolon⟩ := h
  have hlen : c.stack.length = e.depth + 1 := by
    rw [hstack, List.length_append, hdepth]
    rfl
  cases hs with
  | opening k ha _ =>
    have hvalue : e.depth = 0 → e.afterColon = true := by
      intro h0
      rw [hcolon, h0, ha]
      rfl
    obtain ⟨e', hplace', hdepth', hcolon', hfinds⟩ :=
      finds_opening settings hplace hpad k hvalue rest
    rw [hlen]
    refine ⟨e', ⟨hplace', ⟨k :: inner, ?_, ?_⟩, ?_⟩, hfinds⟩
    · rw [hstack, List.cons_append]
    · rw [List.length_cons, hdepth, hdepth']
    · rw [hcolon', hdepth']
      rfl
  | @closing a stack k _ =>
    have hne : stack ≠ [] := fun h => hd (by rw [h]; rfl)
    obtain ⟨inner', rfl, hinner⟩ : ∃ inner', inner = k :: inner' ∧ stack = inner' ++ [.object] := by
      rcases List.cons_eq_append_iff.1 hstack with ⟨rfl, hnil⟩ | ⟨inner', rfl, htail⟩
      · exact absurd (List.cons.inj hnil).2.symm hne
      · exact ⟨inner', rfl, htail⟩
    have hpos : e.depth ≠ 0 := by
      rw [← hdepth, List.length_cons]
      exact Nat.succ_ne_zero _
    have hfalse : e.afterColon = false := by
      rw [hcolon, beq_false_of_ne hpos]
      rfl
    refine ⟨{ e with depth := e.depth - 1 }, ⟨hplace, ⟨inner', hinner, ?_⟩, ?_⟩,
      .of_quiet hplace hpad rfl (quiet_closer hplace hpos k)⟩
    · rw [List.length_cons] at hdepth
      show inner'.length = e.depth - 1
      omega
    · rw [awaiting_endValue hne]
      exact hfalse.trans (Bool.and_false _).symm
  | @comma stack =>
    refine ⟨{ e with afterColon := false }, ⟨hplace, ⟨inner, hstack, hdepth⟩, ?_⟩,
      .of_quiet hplace hpad rfl (quiet_comma hplace)⟩
    -- After a comma of the object itself a name is awaited.
    cases inner with
    | nil =>
      obtain rfl : stack = [.object] := hstack
      exact (Bool.and_false _).symm
    | cons k inner =>
      have hpos : e.depth ≠ 0 := by
        rw [← hdepth, List.length_cons]
        exact Nat.succ_ne_zero _
      simp [hpos]
  | colon =>
    exact ⟨{ e with afterColon := e.depth == 0 },
      ⟨hplace, ⟨inner, hstack, hdepth⟩, (Bool.and_true _).symm⟩,
      .of_quiet hplace hpad rfl (quiet_colon hplace)⟩
  | key name ha =>
    have hquiet : Quiet settings e { e with afterColon := false } (quoted name.bytes) rest := by
      cases hspells with
      | key hn => exact quiet_quoted hplace hn
    exact ⟨{ e with afterColon := false },
      ⟨hplace, ⟨inner, hstack, hdepth⟩, (Bool.and_false _).symm⟩, .of_quiet hplace hpad rfl hquiet⟩
  | @scalar _ kind content hk ha =>
    have hkind : (kind == .opening .array) = false := by
      rw [beq_eq_false_iff_ne]
      rintro rfl
      cases hk
    have hne : c.stack ≠ [] := by simp [hstack]
    refine ⟨{ e with afterColon := false }, ⟨hplace, ⟨inner, hstack, hdepth⟩, ?_⟩,
      .of_quiet hplace hpad (by simp [hkind]) (quiet_leaf hplace hspells hk)⟩
    rw [awaiting_endValue hne]
    exact (Bool.and_false _).symm

/-- **Pieces inside a root object**: what is sampled over them are the member arrays among them. -/
theorem Agrees.run (settings : ShapeSettings) (h : Agrees limits.several c e)
    (hr : Control.Run limits c (ps.map Piece.leaf) c') (hps : ∀ p ∈ ps, p.Proper)
    (hd : ∀ p ∈ ps, p.leaf.depth ≠ 0) (rest : Bytes) :
    ∃ e', Agrees limits.several c' e' ∧ Finds settings e e' ps rest := by
  induction ps generalizing c e with
  | nil =>
    cases hr
    exact ⟨e, h, .nil e rest⟩
  | cons p ps ih =>
    obtain ⟨hp, hps⟩ := List.forall_mem_cons.1 hps
    obtain ⟨hdp, hd⟩ := List.forall_mem_cons.1 hd
    cases hr with
    | cons hs hr =>
      obtain ⟨e₁, h₁, hfinds⟩ := h.step settings hp hs hdp (spread ps ++ rest)
      obtain ⟨e', h', hlater⟩ := ih h₁ hr hps hd
      exact ⟨e', h', hfinds.append hlater⟩

/-- The scan of an object ends at its closing bracket. -/
theorem sampledFrom_closer (he : e.place = .between) (hd : e.depth = 0) {pad : Bytes}
    (hpad : Blank pad) (offset : Nat) (rest : Bytes) :
    sampledFrom settings offset e (pad ++ 0x7D :: rest) = [] := by
  have hstep : e.step settings 0x7D rest = none := by
    rw [step_between he]
    simp [structural, Byte.quote, hd]
  rw [quiet_blank he hpad, sampledFrom, hstep]

/-- What is sampled inside an object is sampled at its member arrays. -/
theorem sampledFrom_members (settings : ShapeSettings) {members : List (RawText × Value)}
    (hl : Laid ps (memberLeaves 1 members false) (spread ps)) {pad : Bytes} (hpad : Blank pad)
    (offset : Nat) (rest : Bytes) :
    sampledFrom settings offset {} (spread ps ++ (pad ++ 0x7D :: rest)) =
      ((tokensAt offset ps).filter Token.isMemberArray).map Token.offset := by
  -- The automaton reads the object when it is alone in a text.
  have hrun : Control.Run ⟨(Value.object members).nesting, false⟩ {}
      ((Value.object members).leaves 0) _ := Control.Run.value rfl (Nat.le_of_eq (Nat.zero_add _))
  obtain ⟨c, hstack, hin⟩ : ∃ c : Control, c.stack = [.object] ∧
      Control.Run ⟨(Value.object members).nesting, false⟩ ⟨.inside .object, [.object]⟩
        (memberLeaves 1 members false) c := by
    cases hrun with
    | cons hopen hrun =>
      obtain ⟨c, hin, hlast⟩ := hrun.of_append
      cases hopen with
      | opening =>
        cases hlast with
        | cons hclose _ => exact ⟨c, stack_of_closing hclose, hin⟩
      | scalar _ hk => cases hk
  have hstart : Agrees false ⟨.inside .object, [.object]⟩ {} := ⟨rfl, ⟨[], rfl, rfl⟩, rfl⟩
  have hdepth : ∀ p ∈ ps, p.leaf.depth ≠ 0 := by
    intro p hp
    have hleaf : p.leaf ∈ memberLeaves 1 members false := hl.leaves ▸ List.mem_map_of_mem hp
    have hle := memberLeaves_le_depth p.leaf hleaf
    omega
  obtain ⟨e', hend, hfinds⟩ := hstart.run settings (hl.leaves ▸ hin) hl.proper hdepth
    (pad ++ 0x7D :: rest)
  obtain ⟨inner, hinner, hzero⟩ := hend.stack
  have hclosed : e'.depth = 0 := by
    rw [hstack] at hinner
    have hlen := congrArg List.length hinner
    rw [List.length_append, List.length_singleton] at hlen
    omega
  rw [hfinds, sampledFrom_closer hend.place hclosed hpad, List.append_nil]

end Envelope

/-! ## Accepted texts -/

/-- The arrays that are sampled in a text that starts with an object. -/
theorem sampledOffsets_of_members {settings : ShapeSettings} {members : List (RawText × Value)}
    {ps : List Piece} {pad u : Bytes} (hl : Laid ps (memberLeaves 1 members false) (spread ps))
    (hpad : Blank pad) (hu : Blank u) (rest : Bytes) :
    sampledOffsets settings (pad ++ 0x7B :: (spread ps ++ u ++ 0x7D :: rest)) =
      ((tokensAt (pad.length + 1) ps).filter fun a =>
        a.isMemberArray && decide (a.offset < pad.length + 1 + settings.envelopeWindow)).map
          Token.offset := by
  have hskip : skipBlank (pad ++ 0x7B :: (spread ps ++ u ++ 0x7D :: rest)) =
      0x7B :: (spread ps ++ u) ++ 0x7D :: rest := skipBlank_append hpad (by simp [Byte.isBlank])
  have hlead : (pad ++ 0x7B :: (spread ps ++ u ++ 0x7D :: rest)).takeWhile Byte.isBlank = pad :=
    takeWhile_blank hpad rfl _
  obtain ⟨rest', htrim⟩ := exists_trimBlank_eq hskip rfl
  have hfound := Envelope.sampledFrom_members settings hl hu (pad.length + 1) rest'
  rw [← List.append_assoc] at hfound
  have hfilter : ∀ ts : List Token, (ts.filter Token.isMemberArray).filter
      ((fun i => decide (i < pad.length + 1 + settings.envelopeWindow)) ∘ Token.offset) =
      ts.filter fun a =>
        a.isMemberArray && decide (a.offset < pad.length + 1 + settings.envelopeWindow) := by
    intro ts
    rw [List.filter_filter]
    exact List.filter_congr fun a _ => Bool.and_comm _ _
  rw [sampledOffsets, hlead, htrim]
  show List.filter _ (Envelope.sampledFrom settings (pad.length + 1) {}
    (spread ps ++ u ++ 0x7D :: rest')) = _
  rw [hfound, List.filter_map, hfilter]

/-- Only the leaves of an object start with its opening bracket. -/
theorem Value.eq_object_of_leaves {v : Value} {depth : Nat} {l : Leaf} {ls : List Leaf}
    (h : v.leaves depth = l :: ls) (hk : l.kind = .opening .object) :
    ∃ members, v = .object members := by
  have hhead : (v.leaves depth).head?.map Leaf.kind = some (.opening .object) := by
    rw [h, ← hk]
    rfl
  cases v with
  | object members => exact ⟨members, rfl⟩
  | bool b => cases b <;> cases hhead
  | _ => cases hhead

/-- The arrays that are sampled in a text whose first value is an object. -/
theorem sampledOffsets_of_object (settings : ShapeSettings) {v : Value} {ps : List Piece}
    {opening : Token} {inside : List Token} (hl : Laid ps (v.leaves 0) (spread ps))
    (htokens : tokensAt 0 ps = opening :: inside) (hk : opening.kind = .opening .object)
    (rest : Bytes) :
    sampledOffsets settings (spread ps ++ rest) =
      (inside.filter fun a => a.isMemberArray &&
        decide (a.offset < opening.offset + 1 + settings.envelopeWindow)).map Token.offset := by
  have hleaves : v.leaves 0 = ps.map Piece.leaf := hl.leaves.symm
  obtain ⟨members, rfl⟩ : ∃ members, v = .object members := by
    cases ps with
    | nil => cases htokens
    | cons p ps =>
      obtain ⟨rfl, -⟩ := List.cons.inj htokens
      exact Value.eq_object_of_leaves hleaves hk
  rw [Value.leaves] at hl
  obtain ⟨pad, ms, u, rfl, hpad, hu, hmembers⟩ := hl.of_container
  rw [tokensAt_container, Nat.zero_add] at htokens
  obtain ⟨rfl, rfl⟩ := List.cons.inj htokens
  have htext : spread (⟨pad, .opening .object 0⟩ :: (ms ++ [⟨u, .closing .object 0⟩])) ++ rest =
      pad ++ 0x7B :: (spread ms ++ u ++ 0x7D :: rest) := by
    rw [spread_container]
    simp [Container.opener, Container.closer]
  rw [htext, List.filter_append, sampledOffsets_of_members hmembers hpad hu]
  -- The closing bracket of the object is no array.
  exact congrArg (List.map Token.offset) (List.append_nil _).symm

/-- The tokens of the first value of an accepted text. -/
theorem Tokenizer.exists_first_value (t : Tokenizer) {text : Bytes}
    (h : (t.parse text).1.error = none) :
    ∃ v ps qs rest, Laid ps (Value.leaves 0 v) (spread ps) ∧ text = spread ps ++ rest ∧
      (t.parse text).1.tokens = tokensAt 0 ps ++ tokensAt (spread ps).length qs ∧
      splitValue (t.parse text).1.tokens =
        some (tokensAt 0 ps, tokensAt (spread ps).length qs) := by
  obtain ⟨roots, ps, trail, hl, -, -, htokens⟩ := Scan.layout_of_scan h
  obtain ⟨v, roots, rfl⟩ := List.exists_cons_of_ne_nil hl.ne_nil
  obtain ⟨ps, qs, _, _, rfl, -, hv, hlater⟩ := hl.laid.of_append
  have htext : text = spread ps ++ (spread qs ++ trail) := by
    rw [hl.text_eq, spread_append, List.append_assoc]
  have htokens : (t.parse text).1.tokens = tokensAt 0 ps ++ tokensAt (spread ps).length qs := by
    rw [← Nat.zero_add (spread ps).length, ← tokensAt_append]
    exact htokens
  have hplace : ((t.parse text).1.window text).text.toList =
      [] ++ (spread ps ++ (spread qs ++ trail)) := htext
  have hshows : List.Forall₂ (Shows ((t.parse text).1.window text)) (tokensAt 0 ps)
      (ps.map Piece.leaf) := shows_tokensAt hv.proper hplace
  rw [hv.leaves] at hshows
  refine ⟨v, ps, qs, _, ⟨hv.leaves, rfl, hv.proper⟩, htext, htokens, ?_⟩
  rw [htokens]
  exact splitValue_of_shows hshows fun _ => by decide

/-- **The shape of an accepted text that starts with an object** is that of the first of the
largest among the arrays that are members of the object and start in its window; only those are
sampled. -/
theorem Tokenizer.shape_of_object (t : Tokenizer) (settings : ShapeSettings) {text : Bytes}
    {opening : Token} {rest : List Token} (h : (t.parse text).1.error = none)
    (hfirst : (t.parse text).1.tokens = opening :: rest) (hk : opening.kind = .opening .object) :
    ∃ inside later, rest = inside ++ later ∧
      splitValue (t.parse text).1.tokens = some (opening :: inside, later) ∧
      let arrays := inside.filter fun a =>
        a.isMemberArray && decide (a.offset < opening.offset + 1 + settings.envelopeWindow)
      let elements := fun a : Token => (arrayShapeAt settings text a.offset).estimatedElements
      sampledOffsets settings text = arrays.map Token.offset ∧
      ((detectShape settings text = .notLarge ∧ ∀ a ∈ arrays, elements a = 0) ∨
        ∃ earlier best others, arrays = earlier ++ best :: others ∧
          detectShape settings text = arrayShapeAt settings text best.offset ∧
          0 < elements best ∧ (∀ a ∈ earlier, elements a < elements best) ∧
          ∀ a ∈ others, elements a ≤ elements best) := by
  obtain ⟨v, ps, qs, more, hl, htext, htokens, hsplit⟩ := t.exists_first_value h
  obtain ⟨first, inside, hroot⟩ := List.exists_cons_of_ne_nil (splitValue_ne_nil hsplit)
  rw [hroot] at htokens hsplit
  obtain ⟨rfl, rfl⟩ := List.cons.inj (hfirst.symm.trans htokens)
  refine ⟨inside, tokensAt (spread ps).length qs, rfl, hsplit, ?_⟩
  intro arrays elements
  have hsampled : sampledOffsets settings text = arrays.map Token.offset := by
    rw [htext]
    exact sampledOffsets_of_object settings hl hroot hk more
  refine ⟨hsampled, ?_⟩
  rw [detectShape_eq_foldl, hsampled, List.foldl_map]
  rcases foldl_larger (fun a : Token => arrayShapeAt settings text a.offset) arrays .notLarge with
    ⟨hfold, hle⟩ | ⟨earlier, best, others, heq, hfold, hpos, hearlier, hothers⟩
  · exact .inl ⟨hfold, fun a ha => Nat.eq_zero_of_le_zero (hle a ha)⟩
  · exact .inr ⟨earlier, best, others, heq, hfold, hpos, hearlier, hothers⟩

/-- The text `{"":[],"":[1,2],"":{"":[0]}}`, whose second array is the largest of its members. -/
theorem Tokenizer.shape_of_object_second :
    let text : Bytes := [0x7B, 0x22, 0x22, 0x3A, 0x5B, 0x5D, 0x2C, 0x22, 0x22, 0x3A, 0x5B, 0x31,
      0x2C, 0x32, 0x5D, 0x2C, 0x22, 0x22, 0x3A, 0x7B, 0x22, 0x22, 0x3A, 0x5B, 0x30, 0x5D, 0x7D,
      0x7D]
    let tokens := (({} : Tokenizer).parse text).1.tokens
    (({} : Tokenizer).parse text).1.error = none ∧
    tokens = ⟨.opening .object, 0, 0, 1⟩ :: tokens.tail ∧
    sampledOffsets {} text = [4, 10] ∧ detectShape {} text = arrayShapeAt {} text 10 := by
  intro text tokens
  have herror : (({} : Tokenizer).parse text).1.error = none := by decide
  have hfirst : tokens = ⟨.opening .object, 0, 0, 1⟩ :: tokens.tail := by decide
  have hroot : splitValue tokens = some (⟨.opening .object, 0, 0, 1⟩ :: tokens.tail, []) := by
    decide
  refine ⟨herror, hfirst, ?_, by decide⟩
  obtain ⟨inside, later, -, hsplit, hsampled, -⟩ :=
    Tokenizer.shape_of_object {} {} herror hfirst rfl
  obtain ⟨hinside, -⟩ := Prod.mk.inj (Option.some.inj (hroot.symm.trans hsplit))
  obtain rfl : tokens.tail = inside := (List.cons.inj hinside).2
  exact hsampled.trans (by decide)

end FlatJson
