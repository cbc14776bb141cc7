import FlatJson.Proofs.Leaves

/-!
# Which leaves may follow each other

Between two tokens the scanner decides by what is awaited and by the open containers alone.  Here
that decision is cut out as an automaton over leaves.

* `Control` — what is awaited, and the open containers.
* `Control.Step`, `Control.Run` — one leaf, and leaves in a row.

`Run.value` and `Run.roots` run over the leaves of whole values; the converse, that a run from the
start to the end has read whole values, needs all that was read before a leaf, and is proved
elsewhere.
-/

namespace FlatJson

theorem TokenKind.not_isOpening_of_isScalar {k : TokenKind} (h : k.isScalar) : ¬ k.isOpening := by
  cases k <;> simp_all [TokenKind.isScalar, TokenKind.isOpening]

theorem TokenKind.not_isClosing_of_isScalar {k : TokenKind} (h : k.isScalar) : ¬ k.isClosing := by
  cases k <;> simp_all [TokenKind.isScalar, TokenKind.isClosing]

namespace Scan

/-! ## The automaton -/

/-- What is awaited right after a bracket. -/
def Awaiting.inside : Container → Awaiting
  | .object => .keyOrClose
  | .array => .itemOrClose

/-- What is awaited after a comma, given the open containers. -/
def Awaiting.next : List Container → Awaiting
  | .object :: _ => .key
  | _ => .value

/-- What decides about the next leaf: what is awaited, and the open containers, the innermost
first. -/
structure Control where
  awaiting : Awaiting := .document
  stack : List Container := []

def Control.endValue (c : Control) : Control :=
  { c with awaiting := if c.stack.isEmpty then .ending else .commaOrClose }

/-- One leaf. -/
inductive Control.Step (limits : Limits) : Control → Leaf → Control → Prop
  | opening {c : Control} (k : Container) :
      c.awaiting.admitsValue limits.several → c.stack.length < limits.maxDepth →
      Control.Step limits c (.opening k c.stack.length) ⟨.inside k, k :: c.stack⟩
  | closing {a : Awaiting} {stack : List Container} (k : Container) :
      a.admitsClose →
      Control.Step limits ⟨a, k :: stack⟩ (.closing k stack.length) (Control.endValue ⟨a, stack⟩)
  | comma {stack : List Container} :
      Control.Step limits ⟨.commaOrClose, stack⟩ (.comma stack.length) ⟨.next stack, stack⟩
  | colon {stack : List Container} :
      Control.Step limits ⟨.colon, stack⟩ (.colon stack.length) ⟨.value, stack⟩
  | key {c : Control} (name : RawText) :
      c.awaiting.admitsKey →
      Control.Step limits c (.key name c.stack.length) ⟨.colon, c.stack⟩
  | scalar {c : Control} {kind : TokenKind} (content : Bytes) :
      kind.isScalar → c.awaiting.admitsValue limits.several →
      Control.Step limits c ⟨kind, c.stack.length, content⟩ c.endValue

/-- Leaves in a row. -/
inductive Control.Run (limits : Limits) : Control → List Leaf → Control → Prop
  | nil (c : Control) : Control.Run limits c [] c
  | cons {c c' c'' : Control} {l : Leaf} {ls : List Leaf} :
      Control.Step limits c l c' → Control.Run limits c' ls c'' → Control.Run limits c (l :: ls) c''

namespace Control

variable {limits : Limits} {c c' c'' : Control} {l : Leaf} {ls ms : List Leaf}

theorem Run.single (h : Step limits c l c') : Run limits c [l] c' := .cons h (.nil c')

theorem Run.append (h : Run limits c ls c') (h' : Run limits c' ms c'') :
    Run limits c (ls ++ ms) c'' := by
  induction h with
  | nil => exact h'
  | cons hs _ ih => exact .cons hs (ih h')

theorem Run.of_append (h : Run limits c (ls ++ ms) c'') :
    ∃ c', Run limits c ls c' ∧ Run limits c' ms c'' := by
  induction ls generalizing c with
  | nil => exact ⟨c, .nil c, h⟩
  | cons l ls ih =>
    cases h with
    | cons hs hr =>
      obtain ⟨c', h₁, h₂⟩ := ih hr
      exact ⟨c', .cons hs h₁, h₂⟩

/-- Containers open only below the limit. -/
theorem Run.depth_lt (h : Run limits c ls c') :
    ∀ l ∈ ls, l.kind.isOpening → l.depth < limits.maxDepth := by
  induction h with
  | nil => intro l hl; cases hl
  | cons hs _ ih =>
    intro l hl hk
    rcases List.mem_cons.1 hl with rfl | hl
    · cases hs with
      | opening k ha hd => exact hd
      | scalar content hsc ha => exact absurd hk (TokenKind.not_isOpening_of_isScalar hsc)
      | _ => exact absurd hk Bool.false_ne_true
    · exact ih l hl hk

/-! ## Runs over whole values -/

/-- The name and the colon of a member are read before its value. -/
theorem Run.member {a : Awaiting} {stack : List Container} (name : RawText) (ha : a.admitsKey)
    (h : Run limits ⟨.value, stack⟩ ls c') :
    Run limits ⟨a, stack⟩ (.key name stack.length :: .colon stack.length :: ls) c' :=
  .cons (.key name ha) (.cons .colon h)

mutual

/-- The leaves of a value are read wherever a value may start, if its containers do not nest too
deep there. -/
theorem Run.value : ∀ {v : Value} {c : Control}, c.awaiting.admitsValue limits.several →
    c.stack.length + v.nesting ≤ limits.maxDepth →
    Run limits c (v.leaves c.stack.length) c.endValue
  | .null, _, ha, _ => .single (.scalar _ rfl ha)
  | .bool true, _, ha, _ => .single (.scalar _ rfl ha)
  | .bool false, _, ha, _ => .single (.scalar _ rfl ha)
  | .number _, _, ha, _ => .single (.scalar _ rfl ha)
  | .string _, _, ha, _ => .single (.scalar _ rfl ha)
  | .array [], c, ha, hd => by
    rw [Value.nesting] at hd
    refine .cons (.opening .array ha (by omega)) (.single ?_)
    exact .closing .array rfl
  | .array (v :: items), c, ha, hd => by
    rw [Value.nesting, nestingItems] at hd
    have hv : Run limits ⟨.itemOrClose, .array :: c.stack⟩ (v.leaves (c.stack.length + 1))
        ⟨.commaOrClose, .array :: c.stack⟩ :=
      Run.value (v := v) (c := ⟨.itemOrClose, .array :: c.stack⟩) rfl
        (by rw [List.length_cons]; omega)
    have hi : Run limits ⟨.commaOrClose, .array :: c.stack⟩
        (itemLeaves (c.stack.length + 1) items true) ⟨.commaOrClose, .array :: c.stack⟩ :=
      Run.items (by omega)
    refine .cons (.opening .array ha (by omega)) (.append (hv.append hi) (.single ?_))
    exact .closing .array rfl
  | .object [], c, ha, hd => by
    rw [Value.nesting] at hd
    refine .cons (.opening .object ha (by omega)) (.single ?_)
    exact .closing .object rfl
  | .object ((name, v) :: members), c, ha, hd => by
    rw [Value.nesting, nestingMembers] at hd
    have hv : Run limits ⟨.value, .object :: c.stack⟩ (v.leaves (c.stack.length + 1))
        ⟨.commaOrClose, .object :: c.stack⟩ :=
      Run.value (v := v) (c := ⟨.value, .object :: c.stack⟩) rfl (by rw [List.length_cons]; omega)
    have hm : Run limits ⟨.commaOrClose, .object :: c.stack⟩
        (memberLeaves (c.stack.length + 1) members true) ⟨.commaOrClose, .object :: c.stack⟩ :=
      Run.members (by omega)
    have hin := Run.member (a := .keyOrClose) name rfl (hv.append hm)
    refine .cons (.opening .object ha (by omega)) (hin.append (.single ?_))
    exact .closing .object rfl

theorem Run.items : ∀ {items : List Value} {stack : List Container},
    stack.length + 1 + nestingItems items ≤ limits.maxDepth →
    Run limits ⟨.commaOrClose, .array :: stack⟩ (itemLeaves (stack.length + 1) items true)
      ⟨.commaOrClose, .array :: stack⟩
  | [], _, _ => .nil _
  | v :: items, stack, hd => by
    rw [nestingItems] at hd
    have hv : Run limits ⟨.value, .array :: stack⟩ (v.leaves (stack.length + 1))
        ⟨.commaOrClose, .array :: stack⟩ :=
      Run.value (v := v) (c := ⟨.value, .array :: stack⟩) rfl (by rw [List.length_cons]; omega)
    exact .cons .comma (hv.append (Run.items (by omega)))

theorem Run.members : ∀ {members : List (RawText × Value)} {stack : List Container},
    stack.length + 1 + nestingMembers members ≤ limits.maxDepth →
    Run limits ⟨.commaOrClose, .object :: stack⟩ (memberLeaves (stack.length + 1) members true)
      ⟨.commaOrClose, .object :: stack⟩
  | [], _, _ => .nil _
  | (name, v) :: members, stack, hd => by
    rw [nestingMembers] at hd
    have hv : Run limits ⟨.value, .object :: stack⟩ (v.leaves (stack.length + 1))
        ⟨.commaOrClose, .object :: stack⟩ :=
      Run.value (v := v) (c := ⟨.value, .object :: stack⟩) rfl (by rw [List.length_cons]; omega)
    exact .cons .comma (Run.member name rfl (hv.append (Run.members (by omega))))

end

/-- The leaves of one root or, where several are allowed, of all roots are read from the start. -/
theorem Run.roots : ∀ {roots : List Value} {c : Control}, roots ≠ [] →
    (limits.several ∨ roots.length = 1) → (∀ v ∈ roots, v.nesting ≤ limits.maxDepth) →
    c.awaiting.admitsValue limits.several → c.stack = [] →
    Run limits c (rootLeaves roots) ⟨.ending, []⟩
  | [], _, hne, _, _, _, _ => absurd rfl hne
  | v :: roots, ⟨a, _⟩, _, hs, hd, ha, rfl => by
    have hv : Run limits ⟨a, []⟩ (v.leaves 0) ⟨.ending, []⟩ :=
      Run.value (v := v) (c := ⟨a, []⟩) ha
        (by rw [List.length_nil, Nat.zero_add]; exact hd v List.mem_cons_self)
    refine hv.append ?_
    cases roots with
    | nil => exact .nil _
    | cons w roots =>
      have hs' : limits.several = true := by simpa using hs
      exact Run.roots (List.cons_ne_nil w roots) (.inl hs')
        (fun u hu => hd u (List.mem_cons_of_mem _ hu)) hs' rfl

end Control

end Scan

end FlatJson
