import FlatJson.Proofs.Leaves

/-!
# The layout of whole texts

* `Apart` — no number outside all containers runs into a digit.
* `LaidText` — pieces that lay the leaves of one value or several out as a whole text.

`WrittenText.laidText` and `LaidText.writtenText` say that this is the grammar of texts once more,
and the layout also tells where each token stands.  `writtenText_spelling` is the case without
blanks.
-/

namespace FlatJson

/-! ## Depths of leaves -/

mutual

/-- No leaf of a value is less deep than the value. -/
theorem Value.le_depth : ∀ {v : Value} {depth : Nat}, ∀ l ∈ v.leaves depth, depth ≤ l.depth
  | .null, _, l, h => by simp [Value.leaves] at h; simp [h]
  | .bool true, _, l, h => by simp [Value.leaves] at h; simp [h]
  | .bool false, _, l, h => by simp [Value.leaves] at h; simp [h]
  | .number _, _, l, h => by simp [Value.leaves] at h; simp [h]
  | .string _, _, l, h => by simp [Value.leaves] at h; simp [h]
  | .array items, depth, l, h => by
    rw [Value.leaves, List.mem_cons, List.mem_append, List.mem_singleton] at h
    rcases h with rfl | h | rfl
    · exact Nat.le_refl depth
    · have hle := itemLeaves_le_depth l h
      omega
    · exact Nat.le_refl depth
  | .object members, depth, l, h => by
    rw [Value.leaves, List.mem_cons, List.mem_append, List.mem_singleton] at h
    rcases h with rfl | h | rfl
    · exact Nat.le_refl depth
    · have hle := memberLeaves_le_depth l h
      omega
    · exact Nat.le_refl depth

theorem itemLeaves_le_depth : ∀ {items : List Value} {depth : Nat} {comma : Bool},
    ∀ l ∈ itemLeaves depth items comma, depth ≤ l.depth
  | [], _, _, _, h => nomatch h
  | v :: items, depth, comma, l, h => by
    rw [itemLeaves, List.mem_append, List.mem_append] at h
    rcases h with h | h | h
    · cases comma with
      | false => cases h
      | true => rw [List.mem_singleton.1 h]; exact Nat.le_refl depth
    · exact v.le_depth l h
    · exact itemLeaves_le_depth l h

theorem memberLeaves_le_depth : ∀ {members : List (RawText × Value)} {depth : Nat} {comma : Bool},
    ∀ l ∈ memberLeaves depth members comma, depth ≤ l.depth
  | [], _, _, _, h => nomatch h
  | (name, v) :: members, depth, comma, l, h => by
    rw [memberLeaves, List.mem_append, List.mem_cons, List.mem_cons, List.mem_append] at h
    rcases h with h | rfl | rfl | h | h
    · cases comma with
      | false => cases h
      | true => rw [List.mem_singleton.1 h]; exact Nat.le_refl depth
    · exact Nat.le_refl depth
    · exact Nat.le_refl depth
    · exact v.le_depth l h
    · exact memberLeaves_le_depth l h

end

/-- Only a number has a number among its leaves that is no deeper than itself. -/
theorem Value.isNumber_of_leaf {v : Value} {depth : Nat} {l : Leaf} (h : l ∈ v.leaves depth)
    (hk : l.kind = .number) (hd : l.depth = depth) : v.asNumber?.isSome := by
  cases v with
  | number n => rfl
  | array items =>
    rw [Value.leaves, List.mem_cons, List.mem_append, List.mem_singleton] at h
    rcases h with rfl | h | rfl
    · cases hk
    · have hle := itemLeaves_le_depth l h
      omega
    · cases hk
  | object members =>
    rw [Value.leaves, List.mem_cons, List.mem_append, List.mem_singleton] at h
    rcases h with rfl | h | rfl
    · cases hk
    · have hle := memberLeaves_le_depth l h
      omega
    · cases hk
  | bool b => cases b <;> (rw [List.mem_singleton.1 h] at hk; cases hk)
  | _ => rw [List.mem_singleton.1 h] at hk; cases hk

/-! ## Numbers apart -/

/-- No number outside all containers is followed by a digit, where `trail` follows the pieces. -/
def Apart : List Piece → (trail : Bytes) → Prop
  | [], _ => True
  | p :: ps, trail =>
    (p.leaf.kind = .number → p.leaf.depth = 0 → ¬ StartsWithDigit (spread ps ++ trail)) ∧
      Apart ps trail

theorem apart_append (ps qs : List Piece) (trail : Bytes) :
    Apart (ps ++ qs) trail ↔ Apart ps (spread qs ++ trail) ∧ Apart qs trail := by
  induction ps with
  | nil => simp [Apart]
  | cons p ps ih => simp [Apart, ih, and_assoc]

/-- Pieces are apart if no number stands outside all containers. -/
theorem apart_of_forall {ps : List Piece} {trail : Bytes}
    (h : ∀ p ∈ ps, p.leaf.kind = .number → p.leaf.depth ≠ 0) : Apart ps trail := by
  induction ps with
  | nil => trivial
  | cons p ps ih =>
    constructor
    · intro hk hd
      exact absurd hd (h p List.mem_cons_self hk)
    · exact ih fun q hq => h q (List.mem_cons_of_mem _ hq)

/-- The pieces of a value are apart just when what follows a number does not start with a digit. -/
theorem apart_value_iff {ps : List Piece} {v : Value} {trail : Bytes}
    (h : ps.map Piece.leaf = v.leaves 0) :
    Apart ps trail ↔ (v.asNumber?.isSome → ¬ StartsWithDigit trail) := by
  by_cases hv : v.asNumber?.isSome
  · cases v with
    | number n =>
      obtain ⟨p, rfl, hp⟩ := List.map_eq_singleton_iff.1 h
      simp [Apart, hp, hv]
    | _ => cases hv
  · refine ⟨fun _ hv' => absurd hv' hv, fun _ => apart_of_forall ?_⟩
    intro p hp hk hd
    have hl : p.leaf ∈ v.leaves 0 := h ▸ List.mem_map_of_mem hp
    exact hv (Value.isNumber_of_leaf hl hk hd)

theorem Blank.not_startsWithDigit {s : Bytes} (h : Blank s) : ¬ StartsWithDigit s := by
  rintro ⟨b, hb, hd⟩
  have hblank : Byte.isBlank b := h b (List.mem_of_mem_head? hb)
  have hnot : ∀ b, Byte.isBlank b → ¬ Byte.isDigit b := by decide +kernel
  exact hnot b hblank hd

/-! ## Whole texts -/

/-- The pieces `ps` and the blanks `trail` after them lay the values `roots` out as the text. -/
structure LaidText (roots : List Value) (ps : List Piece) (trail text : Bytes) : Prop where
  ne_nil : roots ≠ []
  leaves : ps.map Piece.leaf = rootLeaves roots
  proper : ∀ p ∈ ps, p.Proper
  blank : Blank trail
  apart : Apart ps trail
  text_eq : text = spread ps ++ trail

theorem LaidText.laid {roots : List Value} {ps : List Piece} {trail text : Bytes}
    (h : LaidText roots ps trail text) : Laid ps (rootLeaves roots) (spread ps) :=
  ⟨h.leaves, rfl, h.proper⟩

/-- Every text of the grammar is laid out by pieces. -/
theorem WrittenText.laidText {roots : List Value} {text : Bytes} (h : WrittenText roots text) :
    ∃ ps trail, LaidText roots ps trail text := by
  induction h with
  | @one v u s w hu hv hw =>
    obtain ⟨ps, hl⟩ := hv.laid 0 hu
    refine ⟨ps, w, List.cons_ne_nil v [], ?_, hl.proper, hw, ?_, by rw [hl.text]⟩
    · rw [hl.leaves]
      exact (List.append_nil _).symm
    · exact (apart_value_iff hl.leaves).2 fun _ => hw.not_startsWithDigit
  | @more v roots u s t hu hv _ hn ih =>
    obtain ⟨ps, hl⟩ := hv.laid 0 hu
    obtain ⟨qs, trail, hq⟩ := ih
    have hall := hl.append hq.laid
    refine ⟨ps ++ qs, trail, List.cons_ne_nil v roots, hall.leaves, hall.proper, hq.blank, ?_, ?_⟩
    · rw [apart_append, apart_value_iff hl.leaves, ← hq.text_eq]
      exact ⟨hn, hq.apart⟩
    · rw [hq.text_eq, hall.text, List.append_assoc (u ++ s)]

/-- Whatever pieces lay out is a text of the grammar. -/
theorem LaidText.writtenText {roots : List Value} {ps : List Piece} {trail text : Bytes}
    (h : LaidText roots ps trail text) : WrittenText roots text := by
  induction roots generalizing ps text with
  | nil => exact absurd rfl h.ne_nil
  | cons v roots ih =>
    obtain ⟨ps₁, ps₂, _, _, rfl, -, h₁, h₂⟩ := h.laid.of_append
    obtain ⟨happ₁, happ₂⟩ := (apart_append ps₁ ps₂ trail).1 h.apart
    obtain ⟨pad, t, hs, hp, hv⟩ := h₁.written
    have htext : text = pad ++ t ++ (spread ps₂ ++ trail) := by
      rw [h.text_eq, spread_append, h₁.text, hs, List.append_assoc]
    cases roots with
    | nil =>
      obtain ⟨rfl, -⟩ := h₂.of_nil
      rw [htext]
      exact .one hp hv h.blank
    | cons w roots =>
      have hrest : LaidText (w :: roots) ps₂ trail (spread ps₂ ++ trail) :=
        ⟨List.cons_ne_nil w roots, h₂.leaves, h₂.proper, h.blank, happ₂, rfl⟩
      rw [htext]
      exact .more hp hv (ih hrest) ((apart_value_iff h₁.leaves).1 happ₁)

/-! ## Texts without blanks -/

theorem LaidText.spells {roots : List Value} {ps : List Piece} {trail text : Bytes}
    (h : LaidText roots ps trail text) : ∀ l ∈ rootLeaves roots, Spells l.kind l.content := by
  rw [← h.leaves]
  exact spells_of_proper h.proper

/-- Leaves next to each other are laid out without blanks. -/
theorem Laid.spelling {ls : List Leaf} (h : ∀ l ∈ ls, Spells l.kind l.content) :
    Laid (ls.map (Piece.mk [])) ls (ls.flatMap Leaf.spelling) := by
  refine ⟨?_, ?_, ?_⟩
  · rw [List.map_map]
    exact List.map_id ls
  · rw [spread, List.flatMap_map]
    rfl
  · intro p hp
    obtain ⟨l, hl, rfl⟩ := List.mem_map.1 hp
    exact ⟨.nil, h l hl⟩

/-- **The leaves of one value, next to each other, are that value written down.** -/
theorem writtenText_spelling {v : Value} (h : ∀ l ∈ v.leaves 0, Spells l.kind l.content) :
    WrittenText [v] ((v.leaves 0).flatMap Leaf.spelling) := by
  obtain ⟨pad, t, hs, hp, hv⟩ := (Laid.spelling h).written
  rw [hs]
  simpa using WrittenText.one hp hv .nil

end FlatJson
