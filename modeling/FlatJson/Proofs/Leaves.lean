import FlatJson.Proofs.Grammar

/-!
# The leaves of a value, and their layout in a text

Read from left to right, the tree of a value is a list of leaves, one for each token.  A text lays
the leaves out with blanks before each, and where it lays them decides the spans of the tokens.

* `Leaf` — kind, depth and content of a token, without a place.
* `Value.leaves` — the leaves of a value inside so many containers.
* `Piece`, `spread` — a leaf with the blanks before it, and the text of such pieces.
* `tokensAt` — the tokens of pieces that stand at a position.
* `Laid` — pieces that lay given leaves out as a given text.

`Value.Written.laid` and `Laid.written` say that the grammar derives a value from exactly those
texts that lay its leaves out.
-/

namespace FlatJson

/-! ## Leaves -/

def Container.opener : Container → UInt8
  | .object => 0x7B
  | .array => 0x5B

/-- What a token of a kind may consist of, without quotes. -/
inductive Spells : TokenKind → Bytes → Prop
  | opening (c : Container) : Spells (.opening c) [c.opener]
  | closing (c : Container) : Spells (.closing c) [c.closer]
  | key {s : Bytes} : IsContent s → Spells .key s
  | string {s : Bytes} : IsContent s → Spells .string s
  | number {s : Bytes} : IsNumber s → Spells .number s
  | word (w : Keyword) : Spells (.word w) w.spelling
  | comma : Spells .comma [0x2C]
  | colon : Spells .colon [0x3A]

/-- A token without its place. -/
structure Leaf where
  kind : TokenKind
  /-- How many containers enclose the token. -/
  depth : Nat
  /-- The bytes of the token, without quotes. -/
  content : Bytes

namespace Leaf

def opening (c : Container) (depth : Nat) : Leaf := ⟨.opening c, depth, [c.opener]⟩

def closing (c : Container) (depth : Nat) : Leaf := ⟨.closing c, depth, [c.closer]⟩

def comma (depth : Nat) : Leaf := ⟨.comma, depth, [0x2C]⟩

def key (name : RawText) (depth : Nat) : Leaf := ⟨.key, depth, name.bytes⟩

def colon (depth : Nat) : Leaf := ⟨.colon, depth, [0x3A]⟩

/-- Whether quotes enclose the content. -/
def isQuoted (l : Leaf) : Bool :=
  match l.kind with
  | .key | .string => true
  | _ => false

/-- The bytes of the token, with its quotes. -/
def spelling (l : Leaf) : Bytes :=
  if l.isQuoted then quoted l.content else l.content

end Leaf

mutual

/-- The leaves of a value inside `depth` containers. -/
def Value.leaves (depth : Nat) : Value → List Leaf
  | .null => [⟨.word .null, depth, Keyword.null.spelling⟩]
  | .bool true => [⟨.word .yes, depth, Keyword.yes.spelling⟩]
  | .bool false => [⟨.word .no, depth, Keyword.no.spelling⟩]
  | .number n => [⟨.number, depth, n.bytes⟩]
  | .string s => [⟨.string, depth, s.bytes⟩]
  | .array items =>
    .opening .array depth :: (itemLeaves (depth + 1) items false ++ [.closing .array depth])
  | .object members =>
    .opening .object depth :: (memberLeaves (depth + 1) members false ++ [.closing .object depth])

/-- The leaves of elements, with a comma before each but the first. -/
def itemLeaves (depth : Nat) : List Value → (comma : Bool) → List Leaf
  | [], _ => []
  | v :: rest, comma =>
    (if comma then [.comma depth] else []) ++ (v.leaves depth ++ itemLeaves depth rest true)

/-- The leaves of members, with a comma before each but the first. -/
def memberLeaves (depth : Nat) : List (RawText × Value) → (comma : Bool) → List Leaf
  | [], _ => []
  | (name, v) :: rest, comma =>
    (if comma then [.comma depth] else []) ++
      (.key name depth :: .colon depth :: (v.leaves depth ++ memberLeaves depth rest true))

end

/-- The leaves of several values next to each other. -/
def rootLeaves (roots : List Value) : List Leaf :=
  roots.flatMap (Value.leaves 0)

theorem rootLeaves_singleton (v : Value) : rootLeaves [v] = v.leaves 0 := List.append_nil _

theorem Value.leaves_ne_nil (v : Value) (depth : Nat) : v.leaves depth ≠ [] := by
  cases v with
  | bool b => cases b <;> exact List.cons_ne_nil _ _
  | _ => exact List.cons_ne_nil _ _

theorem itemLeaves_true (depth : Nat) {items : List Value} (h : items ≠ []) :
    itemLeaves depth items true = .comma depth :: itemLeaves depth items false := by
  cases items with
  | nil => exact absurd rfl h
  | cons v rest => simp [itemLeaves]

theorem memberLeaves_true (depth : Nat) {members : List (RawText × Value)} (h : members ≠ []) :
    memberLeaves depth members true = .comma depth :: memberLeaves depth members false := by
  cases members with
  | nil => exact absurd rfl h
  | cons m rest => simp [memberLeaves]

theorem WrittenItems.ne_nil {items : List Value} {s : Bytes} (h : WrittenItems items s) :
    items ≠ [] := by
  cases h <;> simp

theorem WrittenMembers.ne_nil {members : List (RawText × Value)} {s : Bytes}
    (h : WrittenMembers members s) : members ≠ [] := by
  cases h <;> simp

/-! ## Nesting -/

mutual

/-- If containers open only at depths below a bound, a value nests no deeper than the bound. -/
theorem Value.nesting_le : ∀ {v : Value} {depth bound : Nat},
    (∀ l ∈ v.leaves depth, l.kind.isOpening → l.depth < bound) → depth ≤ bound →
    depth + v.nesting ≤ bound
  | .null, _, _, _, hd => by simpa [Value.nesting] using hd
  | .bool _, _, _, _, hd => by simpa [Value.nesting] using hd
  | .number _, _, _, _, hd => by simpa [Value.nesting] using hd
  | .string _, _, _, _, hd => by simpa [Value.nesting] using hd
  | .array items, depth, bound, h, _ => by
    have hlt : depth < bound := h (.opening .array depth) List.mem_cons_self rfl
    have hin : depth + 1 + nestingItems items ≤ bound :=
      nestingItems_le (fun l hl => h l (List.mem_cons_of_mem _ (List.mem_append_left _ hl))) hlt
    rw [Value.nesting]
    omega
  | .object members, depth, bound, h, _ => by
    have hlt : depth < bound := h (.opening .object depth) List.mem_cons_self rfl
    have hin : depth + 1 + nestingMembers members ≤ bound :=
      nestingMembers_le (fun l hl => h l (List.mem_cons_of_mem _ (List.mem_append_left _ hl))) hlt
    rw [Value.nesting]
    omega

theorem nestingItems_le : ∀ {items : List Value} {depth bound : Nat} {comma : Bool},
    (∀ l ∈ itemLeaves depth items comma, l.kind.isOpening → l.depth < bound) → depth ≤ bound →
    depth + nestingItems items ≤ bound
  | [], _, _, _, _, hd => by rwa [nestingItems]
  | v :: items, depth, bound, comma, h, hd => by
    have hv : depth + v.nesting ≤ bound := v.nesting_le
      (fun l hl => h l (List.mem_append_right _ (List.mem_append_left _ hl))) hd
    have hi : depth + nestingItems items ≤ bound := nestingItems_le
      (fun l hl => h l (List.mem_append_right _ (List.mem_append_right _ hl))) hd
    rw [nestingItems]
    omega

theorem nestingMembers_le : ∀ {members : List (RawText × Value)} {depth bound : Nat} {comma : Bool},
    (∀ l ∈ memberLeaves depth members comma, l.kind.isOpening → l.depth < bound) →
    depth ≤ bound → depth + nestingMembers members ≤ bound
  | [], _, _, _, _, hd => by rwa [nestingMembers]
  | (name, v) :: members, depth, bound, comma, h, hd => by
    have hmem : ∀ l ∈ v.leaves depth ++ memberLeaves depth members true,
        l.kind.isOpening → l.depth < bound := fun l hl =>
      h l (List.mem_append_right _ (List.mem_cons_of_mem _ (List.mem_cons_of_mem _ hl)))
    have hv : depth + v.nesting ≤ bound :=
      v.nesting_le (fun l hl => hmem l (List.mem_append_left _ hl)) hd
    have hi : depth + nestingMembers members ≤ bound :=
      nestingMembers_le (fun l hl => hmem l (List.mem_append_right _ hl)) hd
    rw [nestingMembers]
    omega

end

/-! ## Pieces of a text -/

/-- A leaf and the blanks before it. -/
structure Piece where
  pad : Bytes
  leaf : Leaf

namespace Piece

def text (p : Piece) : Bytes := p.pad ++ p.leaf.spelling

/-- Only blanks stand before the leaf, and its content fits its kind. -/
def Proper (p : Piece) : Prop := Blank p.pad ∧ Spells p.leaf.kind p.leaf.content

/-- The token of a piece whose blanks start at `start`; its span leaves out the quotes. -/
def token (start : Nat) (p : Piece) : Token :=
  ⟨p.leaf.kind, min p.leaf.depth maxReportedDepth,
    start + p.pad.length + (if p.leaf.isQuoted then 1 else 0), p.leaf.content.length⟩

end Piece

theorem spells_of_proper {ps : List Piece} (h : ∀ p ∈ ps, p.Proper) :
    ∀ l ∈ ps.map Piece.leaf, Spells l.kind l.content := by
  intro l hl
  obtain ⟨p, hp, rfl⟩ := List.mem_map.1 hl
  exact (h p hp).2

/-- The text of pieces in a row. -/
def spread (ps : List Piece) : Bytes := ps.flatMap Piece.text

@[simp] theorem spread_nil : spread [] = [] := rfl

@[simp] theorem spread_cons (p : Piece) (ps : List Piece) :
    spread (p :: ps) = p.text ++ spread ps := rfl

@[simp] theorem spread_append (ps qs : List Piece) : spread (ps ++ qs) = spread ps ++ spread qs :=
  List.flatMap_append

/-- The tokens of pieces in a row, the first of which starts at `start`. -/
def tokensAt (start : Nat) : List Piece → List Token
  | [] => []
  | p :: ps => p.token start :: tokensAt (start + p.text.length) ps

theorem tokensAt_append (start : Nat) (ps qs : List Piece) :
    tokensAt start (ps ++ qs) =
      tokensAt start ps ++ tokensAt (start + (spread ps).length) qs := by
  induction ps generalizing start with
  | nil => simp [tokensAt]
  | cons p ps ih => simp [tokensAt, ih, Nat.add_assoc]

theorem length_tokensAt (start : Nat) (ps : List Piece) :
    (tokensAt start ps).length = ps.length := by
  induction ps generalizing start with
  | nil => rfl
  | cons p ps ih => rw [tokensAt, List.length_cons, List.length_cons, ih]

/-- Pieces whose tokens are two runs in a row are two runs in a row. -/
theorem exists_of_tokensAt_eq_append {start : Nat} {ps : List Piece} {ts us : List Token}
    (h : tokensAt start ps = ts ++ us) :
    ∃ qs rs, ps = qs ++ rs ∧ tokensAt start qs = ts ∧
      tokensAt (start + (spread qs).length) rs = us := by
  induction ts generalizing start ps with
  | nil => exact ⟨[], ps, rfl, rfl, h⟩
  | cons t ts ih =>
    cases ps with
    | nil => cases h
    | cons p ps =>
      obtain ⟨hp, hps⟩ := List.cons.inj h
      obtain ⟨qs, rs, rfl, hqs, hrs⟩ := ih hps
      refine ⟨p :: qs, rs, rfl, ?_, ?_⟩
      · rw [tokensAt, hp, hqs]
      · rwa [spread_cons, List.length_append, ← Nat.add_assoc]

/-- The pieces `ps` lay the leaves `ls` out as the text `s`. -/
structure Laid (ps : List Piece) (ls : List Leaf) (s : Bytes) : Prop where
  leaves : ps.map Piece.leaf = ls
  text : spread ps = s
  proper : ∀ p ∈ ps, p.Proper

namespace Laid

variable {ps qs : List Piece} {ls ms : List Leaf} {l : Leaf} {s t : Bytes}

theorem nil : Laid [] [] [] := ⟨rfl, rfl, fun _ h => nomatch h⟩

theorem append (h₁ : Laid ps ls s) (h₂ : Laid qs ms t) : Laid (ps ++ qs) (ls ++ ms) (s ++ t) := by
  refine ⟨?_, ?_, ?_⟩
  · rw [List.map_append, h₁.leaves, h₂.leaves]
  · rw [spread_append, h₁.text, h₂.text]
  · intro p hp
    rcases List.mem_append.1 hp with hp | hp
    · exact h₁.proper p hp
    · exact h₂.proper p hp

theorem single {pad : Bytes} (hp : Blank pad) (hl : Spells l.kind l.content) :
    Laid [⟨pad, l⟩] [l] (pad ++ l.spelling) := by
  refine ⟨rfl, by simp [Piece.text], ?_⟩
  intro p hm
  rw [List.mem_singleton.1 hm]
  exact ⟨hp, hl⟩

theorem of_append (h : Laid ps (ls ++ ms) s) :
    ∃ ps₁ ps₂ s₁ s₂, ps = ps₁ ++ ps₂ ∧ s = s₁ ++ s₂ ∧ Laid ps₁ ls s₁ ∧ Laid ps₂ ms s₂ := by
  obtain ⟨ps₁, ps₂, rfl, h₁, h₂⟩ := List.map_eq_append_iff.1 h.leaves
  refine ⟨ps₁, ps₂, spread ps₁, spread ps₂, rfl, ?_, ⟨h₁, rfl, ?_⟩, ⟨h₂, rfl, ?_⟩⟩
  · rw [← h.text, spread_append]
  · exact fun p hp => h.proper p (List.mem_append_left _ hp)
  · exact fun p hp => h.proper p (List.mem_append_right _ hp)

theorem of_cons (h : Laid ps (l :: ls) s) :
    ∃ pad ps' s', ps = ⟨pad, l⟩ :: ps' ∧ s = pad ++ l.spelling ++ s' ∧ Blank pad ∧
      Spells l.kind l.content ∧ Laid ps' ls s' := by
  obtain ⟨p, ps', rfl, rfl, h₂⟩ := List.map_eq_cons_iff.1 h.leaves
  have hp := h.proper p List.mem_cons_self
  refine ⟨p.pad, ps', spread ps', rfl, ?_, hp.1, hp.2, h₂, rfl, ?_⟩
  · rw [← h.text, spread_cons, Piece.text]
  · exact fun q hq => h.proper q (List.mem_cons_of_mem _ hq)

theorem of_nil (h : Laid ps [] s) : ps = [] ∧ s = [] := by
  have hps := List.map_eq_nil_iff.1 h.leaves
  exact ⟨hps, by rw [← h.text, hps, spread_nil]⟩

theorem of_single (h : Laid ps [l] s) :
    ∃ pad, s = pad ++ l.spelling ∧ Blank pad ∧ Spells l.kind l.content := by
  obtain ⟨pad, _, _, -, rfl, hp, hl, h⟩ := h.of_cons
  obtain ⟨-, rfl⟩ := h.of_nil
  exact ⟨pad, by rw [List.append_nil], hp, hl⟩

end Laid

/-! ## From derivations to layouts -/

section
variable {pad : Bytes}

theorem Laid.opening (c : Container) (depth : Nat) (hp : Blank pad) :
    Laid [⟨pad, .opening c depth⟩] [.opening c depth] (pad ++ [c.opener]) :=
  .single hp (.opening c)

theorem Laid.closing (c : Container) (depth : Nat) (hp : Blank pad) :
    Laid [⟨pad, .closing c depth⟩] [.closing c depth] (pad ++ [c.closer]) :=
  .single hp (.closing c)

theorem Laid.comma (depth : Nat) (hp : Blank pad) :
    Laid [⟨pad, .comma depth⟩] [.comma depth] (pad ++ [0x2C]) :=
  .single hp .comma

theorem Laid.colon (depth : Nat) (hp : Blank pad) :
    Laid [⟨pad, .colon depth⟩] [.colon depth] (pad ++ [0x3A]) :=
  .single hp .colon

theorem Laid.key {name : Bytes} (depth : Nat) (hp : Blank pad) (hn : IsContent name) :
    Laid [⟨pad, .key ⟨name⟩ depth⟩] [.key ⟨name⟩ depth] (pad ++ quoted name) :=
  .single hp (.key hn)

end

/-- A container from the layout of what it holds. -/
theorem Laid.enclose {ps : List Piece} {ls : List Leaf} {pad s u : Bytes} {depth : Nat}
    (c : Container) (hp : Blank pad) (h : Laid ps ls s) (hu : Blank u) :
    ∃ qs, Laid qs (.opening c depth :: (ls ++ [.closing c depth]))
      (pad ++ c.opener :: (s ++ u ++ [c.closer])) := by
  have hall := (Laid.opening c depth hp).append (h.append (Laid.closing c depth hu))
  exact ⟨_, by simpa using hall⟩

mutual

/-- A derived value is laid out by its bytes, at any depth and after any blanks. -/
theorem Value.Written.laid {v : Value} {s : Bytes} (h : v.Written s) (depth : Nat) {pad : Bytes}
    (hp : Blank pad) : ∃ ps, Laid ps (v.leaves depth) (pad ++ s) := by
  cases h with
  | null => exact ⟨_, .single hp (.word .null)⟩
  | yes => exact ⟨_, .single hp (.word .yes)⟩
  | no => exact ⟨_, .single hp (.word .no)⟩
  | number hn => exact ⟨_, .single hp (.number hn)⟩
  | string hs => exact ⟨_, .single hp (.string hs)⟩
  | emptyArray hu => exact Laid.nil.enclose .array hp hu
  | emptyObject hu => exact Laid.nil.enclose .object hp hu
  | array hi =>
    obtain ⟨ps, s', u, rfl, hu, hl⟩ := hi.laid (depth + 1)
    exact hl.enclose .array hp hu
  | object hm =>
    obtain ⟨ps, s', u, rfl, hu, hl⟩ := hm.laid (depth + 1)
    exact hl.enclose .object hp hu

theorem WrittenItems.laid {items : List Value} {s : Bytes} (h : WrittenItems items s)
    (depth : Nat) :
    ∃ ps s' u, s = s' ++ u ∧ Blank u ∧ Laid ps (itemLeaves depth items false) s' := by
  cases h with
  | one hu hv hw =>
    obtain ⟨ps, hl⟩ := hv.laid depth hu
    rw [itemLeaves, itemLeaves, List.append_nil]
    exact ⟨ps, _, _, rfl, hw, hl⟩
  | more hu hv hw hr =>
    obtain ⟨ps, hl⟩ := hv.laid depth hu
    obtain ⟨qs, t', x, rfl, hx, hq⟩ := hr.laid depth
    rw [itemLeaves, itemLeaves_true depth hr.ne_nil]
    exact ⟨_, _, x, by simp, hx, hl.append ((Laid.comma depth hw).append hq)⟩

theorem WrittenMembers.laid {members : List (RawText × Value)} {s : Bytes}
    (h : WrittenMembers members s) (depth : Nat) :
    ∃ ps s' u, s = s' ++ u ∧ Blank u ∧ Laid ps (memberLeaves depth members false) s' := by
  cases h with
  | one ha hn hb hc hv hw =>
    obtain ⟨ps, hl⟩ := hv.laid depth hc
    rw [memberLeaves, memberLeaves, List.append_nil]
    exact ⟨_, _, _, by simp, hw, (Laid.key depth ha hn).append ((Laid.colon depth hb).append hl)⟩
  | more ha hn hb hc hv hw hr =>
    obtain ⟨ps, hl⟩ := hv.laid depth hc
    obtain ⟨qs, t', x, rfl, hx, hq⟩ := hr.laid depth
    rw [memberLeaves, memberLeaves_true depth hr.ne_nil]
    have hrest := hl.append ((Laid.comma depth hw).append hq)
    exact ⟨_, _, x, by simp, hx, (Laid.key depth ha hn).append ((Laid.colon depth hb).append hrest)⟩

end

/-! ## From layouts to derivations -/

/-- What a container holds, from the layout of the container. -/
theorem Laid.of_enclose {ps : List Piece} {ls : List Leaf} {s : Bytes} {depth : Nat}
    {c : Container} (h : Laid ps (.opening c depth :: (ls ++ [.closing c depth])) s) :
    ∃ pad qs t u, s = pad ++ c.opener :: (t ++ u ++ [c.closer]) ∧ Blank pad ∧ Blank u ∧
      Laid qs ls t := by
  obtain ⟨pad, _, _, -, rfl, hp, -, h⟩ := h.of_cons
  obtain ⟨qs, _, t, _, -, rfl, ht, h⟩ := h.of_append
  obtain ⟨u, rfl, hu, -⟩ := h.of_single
  exact ⟨pad, qs, t, u, by simp [Leaf.spelling, Leaf.isQuoted, Leaf.opening, Leaf.closing],
    hp, hu, ht⟩

/-- The pieces of a container: its brackets, and the pieces of what it holds. -/
theorem Laid.of_container {ps : List Piece} {ls : List Leaf} {s : Bytes} {depth : Nat}
    {c : Container} (h : Laid ps (.opening c depth :: (ls ++ [.closing c depth])) s) :
    ∃ pad qs u, ps = ⟨pad, .opening c depth⟩ :: (qs ++ [⟨u, .closing c depth⟩]) ∧ Blank pad ∧
      Blank u ∧ Laid qs ls (spread qs) := by
  obtain ⟨pad, _, _, rfl, -, hpad, -, hin⟩ := h.of_cons
  obtain ⟨qs, _, _, _, rfl, -, hqs, hlast⟩ := hin.of_append
  obtain ⟨u, _, _, rfl, -, hu, -, hnil⟩ := hlast.of_cons
  obtain ⟨rfl, -⟩ := hnil.of_nil
  exact ⟨pad, qs, u, rfl, hpad, hu, hqs.leaves, rfl, hqs.proper⟩

theorem spread_container (c : Container) (depth : Nat) (pad u : Bytes) (ps : List Piece) :
    spread (⟨pad, .opening c depth⟩ :: (ps ++ [⟨u, .closing c depth⟩])) =
      pad ++ c.opener :: (spread ps ++ u ++ [c.closer]) := by
  simp [Piece.text, Leaf.opening, Leaf.closing, Leaf.spelling, Leaf.isQuoted]

theorem tokensAt_container (c : Container) (depth start : Nat) (pad u : Bytes) (ps : List Piece) :
    tokensAt start (⟨pad, .opening c depth⟩ :: (ps ++ [⟨u, .closing c depth⟩])) =
      ⟨.opening c, min depth maxReportedDepth, start + pad.length, 1⟩ ::
        (tokensAt (start + pad.length + 1) ps ++
          [⟨.closing c, min depth maxReportedDepth,
            start + pad.length + 1 + (spread ps).length + u.length, 1⟩]) := by
  have hlen : start + (Piece.mk pad (.opening c depth)).text.length = start + pad.length + 1 := by
    simp [Piece.text, Leaf.opening, Leaf.spelling, Leaf.isQuoted, Nat.add_assoc]
  rw [tokensAt, tokensAt_append, hlen]
  rfl

/-- The name and the colon of a member, from the layout of the member. -/
theorem Laid.of_member {ps : List Piece} {ls : List Leaf} {s : Bytes} {depth : Nat}
    {name : RawText} (h : Laid ps (.key name depth :: .colon depth :: ls) s) :
    ∃ a b qs t, s = a ++ quoted name.bytes ++ b ++ 0x3A :: t ∧ Blank a ∧ IsContent name.bytes ∧
      Blank b ∧ Laid qs ls t := by
  obtain ⟨a, _, _, -, rfl, ha, hn, h⟩ := h.of_cons
  obtain ⟨b, qs, t, -, rfl, hb, -, h⟩ := h.of_cons
  cases hn with
  | key hn =>
    exact ⟨a, b, qs, t, by simp [Leaf.spelling, Leaf.isQuoted, Leaf.key, Leaf.colon], ha, hn, hb, h⟩

/-- The comma after some leaves, from the layout of them all. -/
theorem Laid.of_comma {ps : List Piece} {ls ms : List Leaf} {s : Bytes} {depth : Nat}
    (h : Laid ps (ls ++ .comma depth :: ms) s) :
    ∃ qs rs t w r, s = t ++ w ++ 0x2C :: r ∧ Laid qs ls t ∧ Blank w ∧ Laid rs ms r := by
  obtain ⟨qs, _, t, _, -, rfl, ht, h⟩ := h.of_append
  obtain ⟨w, rs, r, -, rfl, hw, -, h⟩ := h.of_cons
  exact ⟨qs, rs, t, w, r, by simp [Leaf.spelling, Leaf.isQuoted, Leaf.comma], ht, hw, h⟩

mutual

/-- Whatever lays out the leaves of a value is derived from it, blanks before it apart. -/
theorem Laid.written : ∀ {v : Value} {ps : List Piece} {s : Bytes} {depth : Nat},
    Laid ps (v.leaves depth) s → ∃ pad t, s = pad ++ t ∧ Blank pad ∧ v.Written t
  | .null, _, _, _, h => by
    obtain ⟨pad, rfl, hp, -⟩ := h.of_single
    exact ⟨pad, _, rfl, hp, .null⟩
  | .bool true, _, _, _, h => by
    obtain ⟨pad, rfl, hp, -⟩ := h.of_single
    exact ⟨pad, _, rfl, hp, .yes⟩
  | .bool false, _, _, _, h => by
    obtain ⟨pad, rfl, hp, -⟩ := h.of_single
    exact ⟨pad, _, rfl, hp, .no⟩
  | .number _, _, _, _, h => by
    obtain ⟨pad, rfl, hp, hn⟩ := h.of_single
    cases hn with
    | number hn => exact ⟨pad, _, rfl, hp, .number hn⟩
  | .string _, _, _, _, h => by
    obtain ⟨pad, rfl, hp, hs⟩ := h.of_single
    cases hs with
    | string hs => exact ⟨pad, _, rfl, hp, .string hs⟩
  | .array [], _, _, _, h => by
    obtain ⟨pad, _, _, u, rfl, hp, hu, h⟩ := h.of_enclose
    obtain ⟨-, rfl⟩ := h.of_nil
    exact ⟨pad, _, rfl, hp, .emptyArray hu⟩
  | .array (_ :: _), _, _, _, h => by
    obtain ⟨pad, _, _, u, rfl, hp, hu, h⟩ := h.of_enclose
    exact ⟨pad, _, rfl, hp, .array (h.writtenItems (List.cons_ne_nil _ _) hu)⟩
  | .object [], _, _, _, h => by
    obtain ⟨pad, _, _, u, rfl, hp, hu, h⟩ := h.of_enclose
    obtain ⟨-, rfl⟩ := h.of_nil
    exact ⟨pad, _, rfl, hp, .emptyObject hu⟩
  | .object (_ :: _), _, _, _, h => by
    obtain ⟨pad, _, _, u, rfl, hp, hu, h⟩ := h.of_enclose
    exact ⟨pad, _, rfl, hp, .object (h.writtenMembers (List.cons_ne_nil _ _) hu)⟩

theorem Laid.writtenItems : ∀ {items : List Value} {ps : List Piece} {s u : Bytes} {depth : Nat},
    items ≠ [] → Laid ps (itemLeaves depth items false) s → Blank u → WrittenItems items (s ++ u)
  | [], _, _, _, _, hne, _, _ => absurd rfl hne
  | [v], _, _, _, depth, _, h, hu => by
    rw [itemLeaves, itemLeaves, List.append_nil] at h
    obtain ⟨pad, t, rfl, hp, hv⟩ := Laid.written h
    exact .one hp hv hu
  | v :: w :: items, _, _, _, depth, _, h, hu => by
    rw [itemLeaves, itemLeaves_true depth (List.cons_ne_nil w items)] at h
    obtain ⟨_, _, _, x, r, rfl, hv, hx, hr⟩ := Laid.of_comma h
    obtain ⟨pad, t, rfl, hp, hv⟩ := hv.written
    simpa using WrittenItems.more hp hv hx (hr.writtenItems (List.cons_ne_nil w items) hu)

theorem Laid.writtenMembers : ∀ {members : List (RawText × Value)} {ps : List Piece}
    {s u : Bytes} {depth : Nat}, members ≠ [] → Laid ps (memberLeaves depth members false) s →
    Blank u → WrittenMembers members (s ++ u)
  | [], _, _, _, _, hne, _, _ => absurd rfl hne
  | [(name, v)], _, _, _, depth, _, h, hu => by
    rw [memberLeaves, memberLeaves, List.append_nil] at h
    obtain ⟨a, b, _, t, rfl, ha, hn, hb, h⟩ := Laid.of_member h
    obtain ⟨c, t, rfl, hc, hv⟩ := h.written
    simpa using WrittenMembers.one ha hn hb hc hv hu
  | (name, v) :: m :: members, _, _, _, depth, _, h, hu => by
    rw [memberLeaves, memberLeaves_true depth (List.cons_ne_nil m members)] at h
    obtain ⟨a, b, _, t, rfl, ha, hn, hb, h⟩ := Laid.of_member h
    obtain ⟨_, _, _, x, r, rfl, hv, hx, hr⟩ := h.of_comma
    obtain ⟨c, t, rfl, hc, hv⟩ := hv.written
    have hrest := hr.writtenMembers (List.cons_ne_nil m members) hu
    simpa using WrittenMembers.more ha hn hb hc hv hx hrest

end

end FlatJson
