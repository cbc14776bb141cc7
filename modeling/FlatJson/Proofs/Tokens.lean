import FlatJson.Proofs.Accepting
import FlatJson.Window
import Mathlib.Data.List.Forall2

/-!
# The tokens of a text

* `Token.first`, `Token.past` — the extent of a token with its quotes.
* `Shows` — a token stands for a leaf, wherever it is.
* `Covered` — extents in order, with nothing but blanks between them.

At the end stands which texts a tokenizer accepts, and that the tokens of such a text are the
leaves of its values.
-/

namespace FlatJson

/-! ## Extents -/

/-- The bytes from one position to another. -/
def slice (text : Bytes) (start stop : Nat) : Bytes := (text.drop start).take (stop - start)

/-- How many quotes stand on each side of the span. -/
def Token.quotes (t : Token) : Nat :=
  match t.kind with
  | .key | .string => 1
  | _ => 0

/-- Where the token starts, an opening quote included. -/
def Token.first (t : Token) : Nat := t.offset - t.quotes

/-- The position after the token, a closing quote included. -/
def Token.past (t : Token) : Nat := t.stop + t.quotes

theorem slice_append (pre s post : Bytes) :
    slice (pre ++ (s ++ post)) pre.length (pre.length + s.length) = s := by
  unfold slice
  rw [List.drop_left, Nat.add_sub_cancel_left, List.take_left]

theorem Piece.token_quotes (p : Piece) (start : Nat) :
    (p.token start).quotes = if p.leaf.isQuoted then 1 else 0 := by
  unfold Token.quotes Leaf.isQuoted Piece.token
  cases p.leaf.kind <;> rfl

theorem Piece.token_first (p : Piece) (start : Nat) :
    (p.token start).first = start + p.pad.length := by
  unfold Token.first
  rw [p.token_quotes]
  exact Nat.add_sub_cancel _ _

theorem Piece.token_past (p : Piece) (start : Nat) :
    (p.token start).past = start + p.text.length := by
  unfold Token.past Token.stop
  rw [p.token_quotes]
  unfold Piece.token Piece.text Leaf.spelling
  cases p.leaf.isQuoted
  · simp
    omega
  · simp [quoted]
    omega

theorem IsNumber.ne_nil {s : Bytes} (h : IsNumber s) : s ≠ [] := by
  obtain ⟨b, t, -, -, rfl, -⟩ := Scan.NumberPart.Reads.of_isNumber h
  exact List.cons_ne_nil b t

/-- A token is not empty once its quotes are restored. -/
theorem Spells.spelling_ne_nil {l : Leaf} (h : Spells l.kind l.content) : l.spelling ≠ [] := by
  obtain ⟨kind, depth, content⟩ := l
  cases h with
  | key | string => exact List.cons_ne_nil _ _
  | number hn => exact hn.ne_nil
  | word w => cases w <;> exact List.cons_ne_nil _ _
  | _ => exact List.cons_ne_nil _ _

/-! ## Tokens and leaves -/

theorem exists_of_forall₂ {α β : Type} {r : α → β → Prop} {l : List α} {m : List β}
    (h : List.Forall₂ r l m) {a : α} (ha : a ∈ l) : ∃ b ∈ m, r a b := by
  induction h with
  | nil => cases ha
  | @cons a' b l m hr _ ih =>
    rcases List.mem_cons.1 ha with rfl | ha
    · exact ⟨b, List.mem_cons_self, hr⟩
    · obtain ⟨c, hc, hac⟩ := ih ha
      exact ⟨c, List.mem_cons_of_mem _ hc, hac⟩

/-- The token has the kind, the depth and the bytes of the leaf, which fit its kind. -/
structure Shows (w : Window) (t : Token) (l : Leaf) : Prop where
  spells : Spells l.kind l.content
  kind : t.kind = l.kind
  depth : t.depth = min l.depth maxReportedDepth
  lexeme : w.lexeme t = l.content
  extent : slice w.text.toList t.first t.past = l.spelling

theorem Window.lexeme_eq (w : Window) (t : Token) (h : t.stop ≤ w.text.size) :
    w.lexeme t = slice w.text.toList t.offset t.stop := by
  unfold Window.lexeme slice
  rw [if_pos h, Array.toList_extract]

theorem Window.lexeme_of_append {w : Window} {t : Token} (pre s post : Bytes)
    (h : w.text.toList = pre ++ (s ++ post)) (ho : t.offset = pre.length) (hl : t.len = s.length) :
    w.lexeme t = s := by
  have hstop : t.stop = pre.length + s.length := by rw [Token.stop, ho, hl]
  have hsize : w.text.size = pre.length + (s.length + post.length) := by
    rw [← Array.length_toList, h, List.length_append, List.length_append]
  rw [w.lexeme_eq t (by omega), h, hstop, ho, slice_append]

/-- The token of a piece shows its leaf. -/
theorem Piece.Proper.shows {p : Piece} (hp : p.Proper) {w : Window} {pre post : Bytes}
    (h : w.text.toList = pre ++ (p.text ++ post)) : Shows w (p.token pre.length) p.leaf := by
  refine ⟨hp.2, rfl, rfl, ?_, ?_⟩
  · cases hq : p.leaf.isQuoted
    · refine Window.lexeme_of_append (pre ++ p.pad) _ post ?_ ?_ rfl
      · rw [h, Piece.text, Leaf.spelling, hq]
        simp
      · simp [Piece.token, hq]
    · refine Window.lexeme_of_append (pre ++ p.pad ++ [Byte.quote]) _ ([Byte.quote] ++ post)
        ?_ ?_ rfl
      · rw [h, Piece.text, Leaf.spelling, hq]
        simp [quoted]
      · simp [Piece.token, hq, Nat.add_assoc]
  · have hs := slice_append (pre ++ p.pad) p.leaf.spelling post
    rw [p.token_first, p.token_past, h, Piece.text]
    simpa [Nat.add_assoc] using hs

/-- The tokens of pieces show their leaves. -/
theorem shows_tokensAt {ps : List Piece} (hps : ∀ p ∈ ps, p.Proper) {w : Window} {pre post : Bytes}
    (h : w.text.toList = pre ++ (spread ps ++ post)) :
    List.Forall₂ (Shows w) (tokensAt pre.length ps) (ps.map Piece.leaf) := by
  induction ps generalizing pre with
  | nil => exact .nil
  | cons p ps ih =>
    rw [spread_cons, List.append_assoc] at h
    have hrest : w.text.toList = (pre ++ p.text) ++ (spread ps ++ post) := by
      rw [h, List.append_assoc]
    have hshows := ih (fun q hq => hps q (List.mem_cons_of_mem _ hq)) hrest
    rw [List.length_append] at hshows
    exact .cons ((hps p List.mem_cons_self).shows h) hshows

/-! ## Nothing but blanks between tokens -/

/-- The extents of the tokens stand in order from `start` to the end of the text, none is empty,
and all bytes outside them are blank. -/
def Covered (text : Bytes) : (start : Nat) → List Token → Prop
  | start, [] => Blank (text.drop start)
  | start, t :: ts =>
    start ≤ t.first ∧ t.first < t.past ∧ t.past ≤ text.length ∧
      Blank (slice text start t.first) ∧ Covered text t.past ts

/-- Pieces and blanks at the end cover a text. -/
theorem covered_tokensAt (ps : List Piece) (pre : Bytes) {text trail : Bytes}
    (h : text = pre ++ (spread ps ++ trail)) (hps : ∀ p ∈ ps, p.Proper) (ht : Blank trail) :
    Covered text pre.length (tokensAt pre.length ps) := by
  induction ps generalizing pre with
  | nil =>
    rw [tokensAt, Covered, h, List.drop_left]
    exact ht
  | cons p ps ih =>
    obtain ⟨hpad, hsp⟩ := hps p List.mem_cons_self
    rw [spread_cons, List.append_assoc] at h
    have hrest : text = (pre ++ p.text) ++ (spread ps ++ trail) := by
      rw [h, List.append_assoc]
    have hlen : p.text.length = p.pad.length + p.leaf.spelling.length := List.length_append
    have hpos : 0 < p.leaf.spelling.length := List.length_pos_iff.2 hsp.spelling_ne_nil
    have hps' := ih _ hrest fun q hq => hps q (List.mem_cons_of_mem _ hq)
    rw [List.length_append] at hps'
    refine ⟨?_, ?_, ?_, ?_, ?_⟩
    · rw [p.token_first]
      omega
    · rw [p.token_first, p.token_past]
      omega
    · rw [p.token_past, h, List.length_append, List.length_append]
      omega
    · rw [p.token_first, h, Piece.text, List.append_assoc, slice_append]
      exact hpad
    · rwa [p.token_past]

/-! ## Texts that a tokenizer accepts -/

theorem Tokenizer.parse_error_eq_none_iff (t : Tokenizer) (text : Bytes) :
    (t.parse text).1.error = none ↔ InLanguage t.settings.limits text :=
  Scan.scan_error_eq_none_iff t.settings.limits text

/-- **A tokenizer accepts exactly the texts of the language under the limits of its settings**, if
the room that it wants is there or within the limit; if not, it has no result.  The length of the
text and the initial capacity bound what is wanted. -/
theorem Tokenizer.parse?_accepts_iff (t : Tokenizer) (text : Bytes) :
    (t.wanted text ≤ max t.capacity Room.limit → ∃ parsed, (t.parse? text).1 = some parsed ∧
      (parsed.error = none ↔ InLanguage t.settings.limits text)) ∧
    (max t.capacity Room.limit < t.wanted text → (t.parse? text).1 = none) ∧
    t.wanted text ≤ max text.length t.settings.initialCapacity := by
  refine ⟨?_, parse?_eq_none_iff.2, t.wanted_le text⟩
  intro hroom
  exact ⟨(t.parse text).1, parse?_eq_some_iff.2 ⟨hroom, rfl⟩, t.parse_error_eq_none_iff text⟩

/-- The text `1` with room for one token at first. -/
theorem Tokenizer.parse?_accepts_digit :
    let t : Tokenizer := { settings := { initialCapacity := 1 } }
    t.wanted [0x31] ≤ max t.capacity Room.limit ∧
    ∃ parsed, (t.parse? [0x31]).1 = some parsed ∧
      (parsed.error = none ↔ InLanguage t.settings.limits [0x31]) := by
  intro t
  have hroom : t.wanted [0x31] ≤ max t.capacity Room.limit := by decide
  exact ⟨hroom, (t.parse?_accepts_iff [0x31]).1 hroom⟩

/-- The text `1` is in the language, and there is no result where the largest count of tokens is to
have room. -/
theorem Tokenizer.exists_refused_in_language :
    let t : Tokenizer := { settings := { initialCapacity := maxCount } }
    InLanguage t.settings.limits [0x31] ∧ (t.parse? [0x31]).1 = none ∧
    ¬ ∀ (t : Tokenizer) (text : Bytes),
      (∃ parsed, (t.parse? text).1 = some parsed ∧ parsed.error = none) ↔
        InLanguage t.settings.limits text := by
  intro t
  have haccepted : (t.parse [0x31]).1.error = none := by decide
  have hin : InLanguage t.settings.limits [0x31] := (t.parse_error_eq_none_iff [0x31]).1 haccepted
  have hrefused : (t.parse? [0x31]).1 = none := by decide
  refine ⟨hin, hrefused, ?_⟩
  intro h
  obtain ⟨parsed, hsome, -⟩ := (h t [0x31]).2 hin
  rw [hrefused] at hsome
  cases hsome

theorem Value.nesting_le_of_mem {v : Value} {items : List Value} (h : v ∈ items) :
    v.nesting ≤ nestingItems items := by
  induction items with
  | nil => cases h
  | cons w items ih =>
    rw [nestingItems]
    rcases List.mem_cons.1 h with rfl | h
    · exact Nat.le_max_left _ _
    · exact Nat.le_trans (ih h) (Nat.le_max_right _ _)

/-- Two layouts of a text have the same tokens: both are those of a scan that allows several values
and nesting enough for either. -/
theorem LaidText.tokens_unique {roots roots' : List Value} {ps ps' : List Piece}
    {trail trail' text : Bytes} (h : LaidText roots ps trail text)
    (h' : LaidText roots' ps' trail' text) : tokensAt 0 ps = tokensAt 0 ps' := by
  have hn : ∀ v ∈ roots ++ roots', v.nesting ≤ nestingItems (roots ++ roots') :=
    fun _ hv => Value.nesting_le_of_mem hv
  have hs : Scan.scan ⟨nestingItems (roots ++ roots'), true⟩ text = ⟨tokensAt 0 ps, [], none⟩ :=
    Scan.scan_of_laidText h (.inl rfl) fun v hv => hn v (List.mem_append_left _ hv)
  have hs' : Scan.scan ⟨nestingItems (roots ++ roots'), true⟩ text = ⟨tokensAt 0 ps', [], none⟩ :=
    Scan.scan_of_laidText h' (.inl rfl) fun v hv => hn v (List.mem_append_right _ hv)
  exact congrArg Scan.Outcome.tokens (hs.symm.trans hs')

theorem Tokenizer.tokens_eq_tokensAt (t : Tokenizer) {text : Bytes}
    (h : (t.parse text).1.error = none) {roots : List Value} {ps : List Piece} {trail : Bytes}
    (hl : LaidText roots ps trail text) : (t.parse text).1.tokens = tokensAt 0 ps := by
  obtain ⟨roots', ps', trail', hl', -, -, ht⟩ := Scan.layout_of_scan h
  exact ht.trans (hl'.tokens_unique hl)

/-- The tokens of an accepted text show the leaves of its values. -/
theorem Tokenizer.tokens_show_leaves (t : Tokenizer) {text : Bytes}
    (h : (t.parse text).1.error = none) {roots : List Value} (hr : WrittenText roots text) :
    List.Forall₂ (Shows ((t.parse text).1.window text)) (t.parse text).1.tokens
      (rootLeaves roots) := by
  obtain ⟨ps, trail, hl⟩ := hr.laidText
  have hs : ((t.parse text).1.window text).text.toList = [] ++ (spread ps ++ trail) := hl.text_eq
  rw [t.tokens_eq_tokensAt h hl, ← hl.leaves]
  exact shows_tokensAt hl.proper hs

/-- **The tokens of an accepted text are the leaves of its values from left to right, each at its
place, and nothing but blanks is left of the text without them.** -/
theorem Tokenizer.tokens_eq_flattening (t : Tokenizer) (text : Bytes)
    (h : (t.parse text).1.error = none) :
    (∃ roots, WrittenText roots text) ∧
    (∀ roots, WrittenText roots text →
      List.Forall₂ (Shows ((t.parse text).1.window text)) (t.parse text).1.tokens
        (rootLeaves roots)) ∧
    (∀ roots ps trail, LaidText roots ps trail text →
      (t.parse text).1.tokens = tokensAt 0 ps) ∧
    Covered text 0 (t.parse text).1.tokens := by
  obtain ⟨roots, ps, trail, hl, -, -, ht⟩ := Scan.layout_of_scan h
  refine ⟨⟨roots, hl.writtenText⟩, ?_, ?_, ?_⟩
  · exact fun _ hr => t.tokens_show_leaves h hr
  · exact fun _ _ _ hl' => t.tokens_eq_tokensAt h hl'
  · have hc : Covered text 0 (tokensAt 0 ps) :=
      covered_tokensAt ps [] hl.text_eq hl.proper hl.blank
    rwa [← ht] at hc

/-- The text `[1,""]`. -/
theorem Tokenizer.tokens_eq_flattening_pair :
    (({} : Tokenizer).parse [0x5B, 0x31, 0x2C, 0x22, 0x22, 0x5D]).1.error = none ∧
    (({} : Tokenizer).parse [0x5B, 0x31, 0x2C, 0x22, 0x22, 0x5D]).1.tokens =
      [⟨.opening .array, 0, 0, 1⟩, ⟨.number, 1, 1, 1⟩, ⟨.comma, 1, 2, 1⟩, ⟨.string, 1, 4, 0⟩,
        ⟨.closing .array, 0, 5, 1⟩] ∧
    Covered [0x5B, 0x31, 0x2C, 0x22, 0x22, 0x5D] 0
      (({} : Tokenizer).parse [0x5B, 0x31, 0x2C, 0x22, 0x22, 0x5D]).1.tokens :=
  ⟨by decide, by decide, (Tokenizer.tokens_eq_flattening {} _ (by decide)).2.2.2⟩

end FlatJson
