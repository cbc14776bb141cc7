import FlatJson.Proofs.Building

/-!
# What a value prints

A value prints the text that it was read from, without the blanks between its tokens.

* `Region`, `compact` — a text without the blanks outside its strings.
* `compact_spread` — only the leaves are left of a text that lays them out.
* `Value.print_eq` — a value prints its leaves from left to right.
* `Tokenizer.print_eq_compact` — the value of a text prints the compact text.
-/

namespace FlatJson

/-! ## Compact texts -/

/-- Where a byte of a text stands. -/
inductive Region where
  | outside
  /-- Between the quotes of a string. -/
  | inside
  /-- Between the quotes of a string, after a backslash. -/
  | escaped
  deriving DecidableEq

/-- Where the byte after this one stands. -/
def Region.next (region : Region) (b : UInt8) : Region :=
  match region with
  | .outside => if b = Byte.quote then .inside else .outside
  | .inside =>
    if b = Byte.quote then .outside else if b = Byte.backslash then .escaped else .inside
  | .escaped => .inside

/-- The bytes from a region on, without the blanks outside strings. -/
def compactFrom (region : Region) : Bytes → Bytes
  | [] => []
  | b :: s =>
    if region = .outside ∧ Byte.isBlank b then compactFrom (region.next b) s
    else b :: compactFrom (region.next b) s

/-- The text without the blanks outside its strings. -/
def compact (text : Bytes) : Bytes := compactFrom .outside text

theorem compactFrom_blank {u : Bytes} (hu : Blank u) (s : Bytes) :
    compactFrom .outside (u ++ s) = compactFrom .outside s := by
  have hquote : ∀ b, Byte.isBlank b → b ≠ Byte.quote := by decide +kernel
  induction u with
  | nil => rfl
  | cons b u ih =>
    have hb : Byte.isBlank b := hu b List.mem_cons_self
    rw [List.cons_append, compactFrom, if_pos ⟨rfl, hb⟩, Region.next, if_neg (hquote b hb)]
    exact ih fun c hc => hu c (List.mem_cons_of_mem _ hc)

/-- Outside strings, what is neither blank nor a quote stays. -/
theorem compactFrom_outside {c : Bytes}
    (hc : ∀ b ∈ c, Byte.isBlank b = false ∧ b ≠ Byte.quote) (s : Bytes) :
    compactFrom .outside (c ++ s) = c ++ compactFrom .outside s := by
  induction c with
  | nil => rfl
  | cons b c ih =>
    obtain ⟨hblank, hquote⟩ := hc b List.mem_cons_self
    rw [List.cons_append, compactFrom, if_neg (by simp [hblank]), Region.next, if_neg hquote,
      ih fun d hd => hc d (List.mem_cons_of_mem _ hd), List.cons_append]

theorem compactFrom_inside {region : Region} (h : region ≠ .outside) (b : UInt8) (s : Bytes) :
    compactFrom region (b :: s) = b :: compactFrom (region.next b) s := by
  rw [compactFrom, if_neg fun hb => h hb.1]

theorem compactFrom_plain {b : UInt8} (hq : b ≠ Byte.quote) (hb : b ≠ Byte.backslash)
    (s : Bytes) : compactFrom .inside (b :: s) = b :: compactFrom .inside s := by
  rw [@compactFrom_inside .inside nofun, Region.next, if_neg hq, if_neg hb]

theorem compactFrom_escape (b : UInt8) (s : Bytes) :
    compactFrom .inside (Byte.backslash :: b :: s) =
      Byte.backslash :: b :: compactFrom .inside s := by
  have hnext : Region.inside.next Byte.backslash = .escaped := by decide
  rw [@compactFrom_inside .inside nofun, hnext, @compactFrom_inside .escaped nofun]
  rfl

theorem compactFrom_hexDigit {b : UInt8} (h : Byte.isHexDigit b) (s : Bytes) :
    compactFrom .inside (b :: s) = b :: compactFrom .inside s := by
  have hplain : ∀ b, Byte.isHexDigit b → b ≠ Byte.quote ∧ b ≠ Byte.backslash := by decide +kernel
  exact compactFrom_plain (hplain b h).1 (hplain b h).2 s

/-- The content of a string stays, and the quote after it ends the string. -/
theorem compactFrom_content {c : Bytes} (hc : IsContent c) (s : Bytes) :
    compactFrom .inside (c ++ Byte.quote :: s) = c ++ Byte.quote :: compactFrom .outside s := by
  induction hc with
  | nil => exact @compactFrom_inside .inside nofun _ _
  | plain _ hq hb _ ih => rw [List.cons_append, compactFrom_plain hq hb, ih, List.cons_append]
  | short _ _ ih =>
    rw [List.cons_append, List.cons_append, compactFrom_escape, ih, List.cons_append,
      List.cons_append]
  | unit h₁ h₂ h₃ h₄ _ ih =>
    simp only [List.cons_append]
    rw [compactFrom_escape, compactFrom_hexDigit h₁, compactFrom_hexDigit h₂,
      compactFrom_hexDigit h₃, compactFrom_hexDigit h₄, ih]

/-! ## Leaves and layouts -/

theorem compactFrom_quoted {c : Bytes} (hc : IsContent c) (s : Bytes) :
    compactFrom .outside (quoted c ++ s) = quoted c ++ compactFrom .outside s := by
  have hopen : ∀ r, compactFrom .outside (Byte.quote :: r) =
      Byte.quote :: compactFrom .inside r := fun _ => rfl
  rw [quoted, List.cons_append, List.append_assoc, hopen, List.singleton_append,
    compactFrom_content hc, List.cons_append, List.append_assoc, List.singleton_append]

/-- A leaf stays, with its quotes or without. -/
theorem compactFrom_spelling {l : Leaf} (h : Spells l.kind l.content) (s : Bytes) :
    compactFrom .outside (l.spelling ++ s) = l.spelling ++ compactFrom .outside s := by
  have hnumeric : ∀ b, Byte.isNumeric b → Byte.isBlank b = false ∧ b ≠ Byte.quote := by
    decide +kernel
  obtain ⟨kind, depth, content⟩ := l
  cases h with
  | key hc | string hc => exact compactFrom_quoted hc s
  | number hn => exact compactFrom_outside (fun b hb => hnumeric b (hn.isNumeric b hb)) s
  | opening c => cases c <;> exact @compactFrom_outside [_] (by decide +kernel) s
  | closing c => cases c <;> exact @compactFrom_outside [_] (by decide +kernel) s
  | word k =>
    have hword : ∀ b ∈ k.spelling, Byte.isBlank b = false ∧ b ≠ Byte.quote := by
      cases k <;> decide +kernel
    exact compactFrom_outside hword s
  | comma => exact @compactFrom_outside [0x2C] (by decide +kernel) s
  | colon => exact @compactFrom_outside [0x3A] (by decide +kernel) s

/-- **Only the leaves are left of a text that lays them out.** -/
theorem compact_spread {ps : List Piece} (hps : ∀ p ∈ ps, p.Proper) {trail : Bytes}
    (ht : Blank trail) :
    compact (spread ps ++ trail) = (ps.map Piece.leaf).flatMap Leaf.spelling := by
  unfold compact
  induction ps with
  | nil =>
    have hall := compactFrom_blank ht []
    rwa [List.append_nil] at hall
  | cons p ps ih =>
    obtain ⟨hpad, hsp⟩ := hps p List.mem_cons_self
    rw [spread_cons, Piece.text, List.append_assoc, List.append_assoc, compactFrom_blank hpad,
      compactFrom_spelling hsp, ih fun q hq => hps q (List.mem_cons_of_mem _ hq)]
    rfl

/-! ## Printed leaves -/

/-- What is printed of a leaf. -/
def Leaf.printed (l : Leaf) : Bytes :=
  if l.isQuoted then quoted (Utf8.replaceInvalid l.content) else l.content

theorem Leaf.printed_of_isValid {l : Leaf} (h : l.isQuoted → Utf8.isValid l.content) :
    l.printed = l.spelling := by
  unfold Leaf.printed Leaf.spelling
  split
  · next hq => rw [Utf8.replaceInvalid_of_isValid (h hq)]
  · rfl

def printedLeaves (ls : List Leaf) : Bytes := ls.flatMap Leaf.printed

theorem writeText_eq (s : RawText) (out : Bytes) :
    Value.writeText s out = (quoted (Utf8.replaceInvalid s.bytes)).reverse ++ out := by
  simp [Value.writeText, quoted, RawText.display]

@[simp] theorem printedLeaves_nil : printedLeaves [] = [] := rfl

@[simp] theorem printedLeaves_cons (l : Leaf) (ls : List Leaf) :
    printedLeaves (l :: ls) = l.printed ++ printedLeaves ls := rfl

@[simp] theorem printedLeaves_append (ls ms : List Leaf) :
    printedLeaves (ls ++ ms) = printedLeaves ls ++ printedLeaves ms :=
  List.flatMap_append

mutual

/-- A value writes its leaves, the latest byte first. -/
theorem Value.write_eq : ∀ (v : Value) (depth : Nat) (out : Bytes),
    v.write out = (printedLeaves (v.leaves depth)).reverse ++ out
  | .null, _, _ | .bool true, _, _ | .bool false, _, _ => rfl
  | .number n, _, _ => by simp [Value.write, Value.leaves, Leaf.printed, Leaf.isQuoted]
  | .string s, _, _ => by
    simp [Value.write, Value.leaves, Leaf.printed, Leaf.isQuoted, writeText_eq]
  | .array items, depth, out => by
    rw [Value.write, writeItems_eq items (depth + 1)]
    simp [Value.leaves, Leaf.printed, Leaf.isQuoted, Leaf.opening, Leaf.closing, Container.opener,
      Container.closer]
  | .object members, depth, out => by
    rw [Value.write, writeMembers_eq members (depth + 1)]
    simp [Value.leaves, Leaf.printed, Leaf.isQuoted, Leaf.opening, Leaf.closing, Container.opener,
      Container.closer]

theorem writeItems_eq : ∀ (items : List Value) (depth : Nat) (comma : Bool) (out : Bytes),
    Value.writeItems items comma out =
      (printedLeaves (itemLeaves depth items comma)).reverse ++ out
  | [], _, _, _ => rfl
  | v :: items, depth, comma, out => by
    rw [Value.writeItems, v.write_eq depth, writeItems_eq items depth]
    cases comma <;> simp [itemLeaves, Leaf.printed, Leaf.isQuoted, Leaf.comma]

theorem writeMembers_eq : ∀ (members : List (RawText × Value)) (depth : Nat) (comma : Bool)
    (out : Bytes), Value.writeMembers members comma out =
      (printedLeaves (memberLeaves depth members comma)).reverse ++ out
  | [], _, _, _ => rfl
  | (name, v) :: members, depth, comma, out => by
    rw [Value.writeMembers, v.write_eq depth, writeMembers_eq members depth]
    cases comma <;>
      simp [memberLeaves, Leaf.printed, Leaf.isQuoted, Leaf.comma, Leaf.key, Leaf.colon,
        writeText_eq]

end

/-- **A value prints its leaves from left to right.** -/
theorem Value.print_eq (v : Value) (depth : Nat) : v.print = printedLeaves (v.leaves depth) := by
  rw [Value.print, v.write_eq depth, List.append_nil, List.reverse_reverse]

/-! ## Values of texts -/

/-- The value of a window onto all tokens of a text prints the compact text, if its strings are
UTF-8. -/
theorem Tokenizer.print_eq_compact (t : Tokenizer) {text : Bytes} {v : Value}
    (h : (t.parse text).1.error = none) (hv : ((t.parse text).1.window text).value = .ok v)
    (hs : ∀ k ∈ (t.parse text).1.tokens, ∀ s ∈ ((t.parse text).1.window text).rawText? k,
      Utf8.isValid s.bytes) :
    v.print = compact text := by
  obtain ⟨roots, hr, -, -⟩ := (Scan.scan_error_eq_none_iff t.settings.limits text).1 h
  obtain ⟨ps, trail, hl⟩ := hr.laidText
  have hshow := t.tokens_show_leaves h hr
  cases roots with
  | nil => exact absurd rfl hl.ne_nil
  | cons u roots =>
    obtain ⟨ts, rest, htokens, hu, hrest⟩ := forall₂_append_right (m := u.leaves 0) hshow
    obtain ⟨-, rfl, rfl⟩ := (Window.value_eq_ok_iff htokens hu).1 hv
    -- The window holds one value only, so there are no other roots.
    have hleaves : ps.map Piece.leaf = v.leaves 0 := by
      have hnil : roots.flatMap (Value.leaves 0) = [] := List.forall₂_nil_left_iff.1 hrest
      have hall : ps.map Piece.leaf = v.leaves 0 ++ roots.flatMap (Value.leaves 0) := hl.leaves
      rwa [hnil, List.append_nil] at hall
    have hprinted : ∀ l ∈ v.leaves 0, l.printed = l.spelling := by
      intro l hmem
      obtain ⟨k, hk, hkl⟩ := exists_of_forall₂ hu.flip hmem
      have htoken : k ∈ (t.parse text).1.tokens := by
        rw [htokens]
        exact List.mem_append_left _ hk
      exact Leaf.printed_of_isValid fun hq =>
        hs k htoken _ (hkl.rawText_eq hq)
    rw [v.print_eq 0, hl.text_eq, compact_spread hl.proper hl.blank, hleaves]
    exact List.flatMap_congr hprinted

/-- **The value of a text whose strings are UTF-8 prints the text without the blanks outside its
strings.** -/
theorem print_parseValue {text : Bytes} {v : Value} (h : (parseValue text).1 = .ok v)
    (hs : ∀ k ∈ (Tokenizer.parse {} text).1.tokens,
      ∀ s ∈ ((Tokenizer.parse {} text).1.window text).rawText? k, Utf8.isValid s.bytes) :
    v.print = compact text := by
  simp only [parseValue] at h
  split at h
  · cases h
  · next herror =>
    split at h
    · next hv =>
      cases h
      exact Tokenizer.print_eq_compact {} herror hv hs
    · cases h

/-- The text `[1.0, "a b"]`. -/
theorem print_parseValue_pair :
    (Value.array [.number ⟨[0x31, 0x2E, 0x30]⟩, .string ⟨[0x61, 0x20, 0x62]⟩]).print =
      compact [0x5B, 0x31, 0x2E, 0x30, 0x2C, 0x20, 0x22, 0x61, 0x20, 0x62, 0x22, 0x5D] :=
  print_parseValue rfl (by decide)

end FlatJson
