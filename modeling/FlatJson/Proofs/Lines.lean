import FlatJson.Proofs.Viability
import Mathlib.Data.List.Basic
import Mathlib.Data.List.Induction
import Mathlib.Data.Prod.Lex
import Mathlib.Order.Interval.Set.Defs

/-!
# Offsets as lines and columns

The line and the column of an offset are counted forwards, over all that stands before it.  They can
be told apart from behind as well: the line says where it starts, and the column how far that is.

* `lineColumn_eq` — the line by the number of line feeds, the column by the last of them.
* `lineStarts` — where the lines of a text start, whether or not anything asks for them.
* `lineStarts_of_end` — the count over a text ends in its last line.
* `lineColumn_start` — an offset inside the text is found again in its line.
* `strictMonoOn_lineColumn` — a later offset is on a later line, or further right.

`Tokenizer.error_found_by_position` puts this together with the places of errors.
-/

namespace FlatJson

variable {text : Bytes} {i j : Nat}

/-- The offsets at which lines start: the first, and that after each line feed. -/
def lineStarts (text : Bytes) : List Nat :=
  0 :: text.idxsOf Byte.lineFeed 1

/-! ## The count over a whole text -/

/-- Only what stands before an offset is counted. -/
theorem lineColumn_take (text : Bytes) (i : Nat) :
    lineColumn text i = lineColumn (text.take i) (text.take i).length := by
  rw [lineColumn, lineColumn, List.take_length]

/-- One byte more. -/
theorem lineColumn_snoc (text : Bytes) (b : UInt8) :
    lineColumn (text ++ [b]) (text ++ [b]).length =
      if b = Byte.lineFeed then ((lineColumn text text.length).1 + 1, 1)
      else ((lineColumn text text.length).1, (lineColumn text text.length).2 + 1) := by
  rw [lineColumn, lineColumn, List.take_length, List.take_length, List.foldl_append]
  rfl

/-- Where a byte stands last, searched for from the end. -/
def lastIndex? (b : UInt8) (s : Bytes) : Option Nat :=
  (s.reverse.idxOf? b).map (s.length - 1 - ·)

theorem lastIndex?_snoc (b c : UInt8) (s : Bytes) :
    lastIndex? b (s ++ [c]) = if c = b then some s.length else lastIndex? b s := by
  unfold lastIndex?
  rw [List.reverse_append, List.reverse_singleton, List.singleton_append, List.idxOf?_cons]
  by_cases hc : c = b
  · simp [hc]
  · simp only [beq_iff_eq, if_neg hc, Option.map_map, List.length_append, List.length_singleton]
    apply Option.map_congr
    intro k _
    simp only [Function.comp_apply]
    omega

theorem le_of_lastIndex? {b : UInt8} {s : Bytes} {k : Nat} (h : lastIndex? b s = some k) :
    k ≤ s.length := by
  obtain ⟨j, -, rfl⟩ := Option.map_eq_some_iff.1 h
  omega

/-- **The count forwards is the search backwards**: the line is one more than the line feeds before
the offset, and the column is the distance from the last of them, or from before the text. -/
theorem lineColumn_eq (text : Bytes) (i : Nat) :
    lineColumn text i = ((text.take i).count Byte.lineFeed + 1,
      match lastIndex? Byte.lineFeed (text.take i) with
      | some newline => (text.take i).length - newline
      | none => (text.take i).length + 1) := by
  rw [lineColumn_take]
  generalize text.take i = s
  induction s using List.reverseRecOn with
  | nil => rfl
  | append_singleton s b ih =>
    rw [lineColumn_snoc, ih, lastIndex?_snoc, List.count_append]
    by_cases hb : b = Byte.lineFeed
    · simp [hb]
    · cases hlast : lastIndex? Byte.lineFeed s with
      | none => simp [hb]
      | some newline =>
        have hle := le_of_lastIndex? hlast
        have hsub : s.length + 1 - newline = s.length - newline + 1 := by omega
        simp [hb, hsub]

theorem lineStarts_append (s u : Bytes) :
    lineStarts (s ++ u) = lineStarts s ++ u.idxsOf Byte.lineFeed (s.length + 1) := by
  rw [lineStarts, lineStarts, List.idxsOf, List.findIdxs_append, Nat.add_comm 1]
  rfl

/-- There is one line more than there are line feeds. -/
theorem length_lineStarts (text : Bytes) :
    (lineStarts text).length = text.count Byte.lineFeed + 1 := by
  rw [lineStarts, List.length_cons, List.idxsOf, List.length_findIdxs]
  rfl

/-- The count over a text ends in its last line, as far behind its start as the column says. -/
theorem lineStarts_of_end (text : Bytes) :
    (lineColumn text text.length).1 = text.count Byte.lineFeed + 1 ∧
    0 < (lineColumn text text.length).2 ∧
    ∃ front start, lineStarts text = front ++ [start] ∧
      start + (lineColumn text text.length).2 = text.length + 1 := by
  induction text using List.reverseRecOn with
  | nil => exact ⟨rfl, Nat.one_pos, [], 0, rfl, rfl⟩
  | append_singleton text b ih =>
    obtain ⟨hline, hcolumn, front, start, hstarts, hsum⟩ := ih
    rw [lineColumn_snoc, lineStarts_append, List.length_append, List.length_singleton,
      List.count_append]
    by_cases hb : b = Byte.lineFeed
    · subst hb
      refine ⟨?_, ?_, lineStarts text, text.length + 1, ?_, ?_⟩
      · simp [hline]
      · simp
      · rfl
      · simp
    · refine ⟨?_, ?_, front, start, ?_, ?_⟩
      · simp [hline, hb]
      · simp [hb]
      · simp [hstarts, List.idxsOf, hb]
      · simp only [hb, if_false]
        omega

/-! ## Offsets inside a text -/

/-- The line of an offset is counted by the line feeds before it. -/
theorem lineColumn_line (text : Bytes) (i : Nat) :
    (lineColumn text i).1 = (text.take i).count Byte.lineFeed + 1 := by
  rw [lineColumn_take]
  exact (lineStarts_of_end (text.take i)).1

theorem lineColumn_column_pos (text : Bytes) (i : Nat) : 0 < (lineColumn text i).2 := by
  rw [lineColumn_take]
  exact (lineStarts_of_end (text.take i)).2.1

/-- An offset stands in its line as far behind the start as its column says. -/
theorem lineColumn_start (h : i ≤ text.length) :
    ∃ start, (lineStarts text)[(lineColumn text i).1 - 1]? = some start ∧
      start + (lineColumn text i).2 = i + 1 := by
  obtain ⟨hline, -, front, start, hstarts, hsum⟩ := lineStarts_of_end (text.take i)
  rw [← lineColumn_take, List.length_take_of_le h] at hsum
  refine ⟨start, ?_, hsum⟩
  have hindex : (lineColumn text i).1 - 1 = front.length := by
    have hlength := length_lineStarts (text.take i)
    rw [hstarts, List.length_append, List.length_singleton] at hlength
    rw [lineColumn_line]
    omega
  have hall : lineStarts text = front ++ start ::
      (text.drop i).idxsOf Byte.lineFeed ((text.take i).length + 1) := by
    rw [← List.take_append_drop i text, lineStarts_append, List.take_append_drop, hstarts,
      List.append_assoc, List.singleton_append]
  rw [hindex, hall, List.getElem?_append_right (Nat.le_refl _), Nat.sub_self,
    List.getElem?_cons_zero]

/-- On one line, columns grow as offsets do. -/
theorem lineColumn_column_lt (hij : i < j) (hj : j ≤ text.length)
    (hline : (lineColumn text i).1 = (lineColumn text j).1) :
    (lineColumn text i).2 < (lineColumn text j).2 := by
  have hi : i ≤ text.length := by omega
  obtain ⟨start, hstart, hsum⟩ := lineColumn_start hi
  obtain ⟨start', hstart', hsum'⟩ := lineColumn_start hj
  rw [hline, hstart'] at hstart
  cases hstart
  omega

/-- **A later offset is on a later line, or on the same line in a later column.** -/
theorem strictMonoOn_lineColumn (text : Bytes) :
    StrictMonoOn (fun i => toLex (lineColumn text i)) (Set.Iic text.length) := by
  intro i _ j hj hij
  have hlonger : text.take i <+: text.take j := List.take_prefix_take_left (Nat.le_of_lt hij)
  have hle : (lineColumn text i).1 ≤ (lineColumn text j).1 := by
    rw [lineColumn_line, lineColumn_line]
    exact Nat.succ_le_succ (hlonger.sublist.count_le Byte.lineFeed)
  rw [Prod.Lex.toLex_lt_toLex]
  rcases Nat.lt_or_eq_of_le hle with hlt | heq
  · exact .inl hlt
  · exact .inr ⟨heq, lineColumn_column_lt hij hj heq⟩

theorem injOn_lineColumn (text : Bytes) :
    Set.InjOn (lineColumn text) (Set.Iic text.length) := by
  intro i hi j hj h
  exact (strictMonoOn_lineColumn text).injOn hi hj (congrArg toLex h)

/-- An offset past the text counts as its end. -/
theorem lineColumn_of_le (h : text.length ≤ i) :
    lineColumn text i = lineColumn text text.length := by
  rw [lineColumn, lineColumn, List.take_of_length_le h, List.take_length]

/-! ## Errors -/

/-- **Lines and columns tell the offsets of a text apart, and errors by them.**  They grow with the
offsets, first by line and then by column.  Before an offset there are as many line feeds as lines
before its own, and its column counts from the start of its line.  An offset past the text counts as
its end; but an error is never found there, so its line and column belong to its place alone. -/
theorem Tokenizer.error_found_by_position (t : Tokenizer) (text : Bytes) :
    StrictMonoOn (fun i => toLex (lineColumn text i)) (Set.Iic text.length) ∧
    Set.InjOn (lineColumn text) (Set.Iic text.length) ∧
    (∀ i ≤ text.length, (lineColumn text i).1 = (text.take i).count Byte.lineFeed + 1 ∧
      0 < (lineColumn text i).2 ∧
      ∃ start, (lineStarts text)[(lineColumn text i).1 - 1]? = some start ∧ start ≤ i ∧
        i = start + (lineColumn text i).2 - 1) ∧
    (∀ i, text.length ≤ i → lineColumn text i = lineColumn text text.length) ∧
    ∀ e, (t.parse text).1.error = some e → e.offset ≤ text.length ∧
      ∀ i ≤ text.length, lineColumn text i = lineColumn text e.offset → i = e.offset := by
  refine ⟨strictMonoOn_lineColumn text, injOn_lineColumn text, ?_, ?_, ?_⟩
  · intro i hi
    have hcolumn := lineColumn_column_pos text i
    obtain ⟨start, hstart, hsum⟩ := lineColumn_start hi
    exact ⟨lineColumn_line text i, hcolumn, start, hstart, by omega, by omega⟩
  · exact fun i hi => lineColumn_of_le hi
  · intro e he
    have hle : e.offset ≤ text.length := (Scan.scan_error_located he).le_length
    exact ⟨hle, fun i hi h => injOn_lineColumn text hi hle h⟩

/-- The text `[1`, with a comma and a bracket on lines of their own: the bracket is refused. -/
theorem Tokenizer.error_found_by_position_third_line :
    (({} : Tokenizer).parse [0x5B, 0x31, 0x0A, 0x2C, 0x0A, 0x5D]).1.error =
      some ⟨.unexpectedCharacter ']' "a value", 5⟩ ∧
    lineStarts [0x5B, 0x31, 0x0A, 0x2C, 0x0A, 0x5D] = [0, 3, 5] ∧
    lineColumn [0x5B, 0x31, 0x0A, 0x2C, 0x0A, 0x5D] 5 = (3, 1) ∧
    ∀ i ≤ 6, lineColumn [0x5B, 0x31, 0x0A, 0x2C, 0x0A, 0x5D] i = (3, 1) → i = 5 := by
  have herror : (({} : Tokenizer).parse [0x5B, 0x31, 0x0A, 0x2C, 0x0A, 0x5D]).1.error =
      some ⟨.unexpectedCharacter ']' "a value", 5⟩ := by decide
  obtain ⟨-, -, -, -, herrors⟩ :=
    Tokenizer.error_found_by_position {} [0x5B, 0x31, 0x0A, 0x2C, 0x0A, 0x5D]
  exact ⟨herror, by decide, by decide, (herrors _ herror).2⟩

end FlatJson
