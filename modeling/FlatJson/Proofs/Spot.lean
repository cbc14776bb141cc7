import FlatJson.Proofs.Control
import FlatJson.Tree.Build

/-!
# Where a reader of leaves stands

A run of the automaton over leaves has always read some complete roots and then one more value up
to some place.  The place is described by the open containers with what they hold so far, so that
the leaves read up to it can be told from it.

* `Frame.leaves` — an open container up to where its next value stands.
* `Spot` — a place inside one more value, or right after it.
* `Reached` — nothing read yet, or complete roots and then a spot.

`Control.Run.reached` says that every run from the start gets to such a place, and
`Control.Run.of_ending` that a run which awaits the end has read whole values.
-/

namespace FlatJson

/-! ## Open containers -/

def Frame.container : Frame → Container
  | .array _ => .array
  | .object .. => .object

/-- Elements, the latest first, each with the comma after it. -/
def doneItems (depth : Nat) : List Value → List Leaf
  | [] => []
  | v :: earlier => doneItems depth earlier ++ v.leaves depth ++ [.comma depth]

/-- Members, the latest first, each with the comma after it. -/
def doneMembers (depth : Nat) : List (RawText × Value) → List Leaf
  | [] => []
  | (name, v) :: earlier =>
    doneMembers depth earlier ++ (.key name depth :: .colon depth :: v.leaves depth) ++
      [.comma depth]

/-- The leaves of an open container up to where its next value stands. -/
def Frame.leaves (depth : Nat) : Frame → List Leaf
  | .array items => .opening .array depth :: doneItems (depth + 1) items
  | .object members name =>
    .opening .object depth ::
      (doneMembers (depth + 1) members ++ [.key name (depth + 1), .colon (depth + 1)])

/-- The leaves of open containers inside each other, the innermost first. -/
def framesLeaves : List Frame → List Leaf
  | [] => []
  | frame :: outer => framesLeaves outer ++ frame.leaves outer.length

theorem itemLeaves_snoc (depth : Nat) (items : List Value) (v : Value) (comma : Bool) :
    itemLeaves depth (items ++ [v]) comma =
      itemLeaves depth items comma ++
        ((if comma || !items.isEmpty then [.comma depth] else []) ++ v.leaves depth) := by
  induction items generalizing comma with
  | nil => simp [itemLeaves]
  | cons w items ih => simp [itemLeaves, ih]

theorem memberLeaves_snoc (depth : Nat) (members : List (RawText × Value)) (name : RawText)
    (v : Value) (comma : Bool) :
    memberLeaves depth (members ++ [(name, v)]) comma =
      memberLeaves depth members comma ++
        ((if comma || !members.isEmpty then [.comma depth] else []) ++
          (.key name depth :: .colon depth :: v.leaves depth)) := by
  induction members generalizing comma with
  | nil => simp [memberLeaves]
  | cons m members ih => simp [memberLeaves, ih]

/-- A last element completes the elements of an array. -/
theorem itemLeaves_reverse (depth : Nat) (v : Value) (earlier : List Value) :
    itemLeaves depth (v :: earlier).reverse false = doneItems depth earlier ++ v.leaves depth := by
  induction earlier generalizing v with
  | nil => simp [itemLeaves, doneItems]
  | cons w earlier ih =>
    rw [List.reverse_cons, itemLeaves_snoc, ih w]
    simp [doneItems]

/-- A last member completes the members of an object. -/
theorem memberLeaves_reverse (depth : Nat) (name : RawText) (v : Value)
    (earlier : List (RawText × Value)) :
    memberLeaves depth ((name, v) :: earlier).reverse false =
      doneMembers depth earlier ++ (.key name depth :: .colon depth :: v.leaves depth) := by
  induction earlier generalizing name v with
  | nil => simp [memberLeaves, doneMembers]
  | cons m earlier ih =>
    rw [List.reverse_cons, memberLeaves_snoc, ih m.1 m.2]
    simp [doneMembers]

/-! ## Spots -/

/-- A place in a value that is read from left to right. -/
inductive Spot where
  /-- Where the next value of a container stands. -/
  | value (frame : Frame) (outer : List Frame)
  /-- Where the next name of an object stands, after these members. -/
  | name (members : List (RawText × Value)) (outer : List Frame)
  /-- Between a name and its colon. -/
  | colon (members : List (RawText × Value)) (name : RawText) (outer : List Frame)
  /-- Right after a value. -/
  | after (v : Value) (outer : List Frame)

namespace Spot

/-- The leaves up to a spot. -/
def leaves : Spot → List Leaf
  | .value frame outer => framesLeaves (frame :: outer)
  | .name members outer =>
    framesLeaves outer ++
      (.opening .object outer.length :: doneMembers (outer.length + 1) members)
  | .colon members key outer =>
    framesLeaves outer ++
      (.opening .object outer.length ::
        (doneMembers (outer.length + 1) members ++ [.key key (outer.length + 1)]))
  | .after v outer => framesLeaves outer ++ v.leaves outer.length

def awaiting : Spot → Scan.Awaiting
  | .value (.array []) _ => .itemOrClose
  | .value _ _ => .value
  | .name [] _ => .keyOrClose
  | .name _ _ => .key
  | .colon .. => .colon
  | .after _ [] => .ending
  | .after _ _ => .commaOrClose

def stack : Spot → List Container
  | .value frame outer => (frame :: outer).map Frame.container
  | .name _ outer | .colon _ _ outer => .object :: outer.map Frame.container
  | .after _ outer => outer.map Frame.container

end Spot

namespace Scan

/-- The leaves `ls` have been read from the start, and the automaton is in the state `c`: nothing
has been read yet, or complete roots and then one more value up to some spot. -/
inductive Reached (limits : Limits) : List Leaf → Control → Prop
  | start : Reached limits [] {}
  | spot (roots : List Value) (spot : Spot) :
      (limits.several ∨ roots = []) →
      Reached limits (rootLeaves roots ++ spot.leaves) ⟨spot.awaiting, spot.stack⟩

namespace Reached

variable {limits : Limits} {ls : List Leaf} {c c' : Control} {l : Leaf}

/-- Where a value may start, everything but the open containers is complete. -/
theorem of_admitsValue (h : Reached limits ls c) (ha : c.awaiting.admitsValue limits.several) :
    ∃ roots frames, (limits.several ∨ roots = []) ∧ ls = rootLeaves roots ++ framesLeaves frames ∧
      c.stack = frames.map Frame.container := by
  cases h with
  | start => exact ⟨[], [], .inr rfl, rfl, rfl⟩
  | spot roots spot hs =>
    cases spot with
    | value frame outer => exact ⟨roots, frame :: outer, hs, rfl, rfl⟩
    | name members outer => cases members <;> cases ha
    | colon members key outer => cases ha
    | after v outer =>
      cases outer with
      | nil =>
        refine ⟨roots ++ [v], [], .inl ha, ?_, rfl⟩
        simp [rootLeaves, Spot.leaves, framesLeaves]
      | cons frame outer => cases ha

/-- Where a name may stand, its object is open with what it holds so far. -/
theorem of_admitsKey (h : Reached limits ls c) (ha : c.awaiting.admitsKey) :
    ∃ roots members outer, (limits.several ∨ roots = []) ∧
      ls = rootLeaves roots ++ (Spot.name members outer).leaves ∧
      c.stack = .object :: outer.map Frame.container := by
  cases h with
  | start => cases ha
  | spot roots spot hs =>
    cases spot with
    | value frame outer => rcases frame with ⟨_ | _⟩ | _ <;> cases ha
    | name members outer => exact ⟨roots, members, outer, hs, rfl, rfl⟩
    | colon members key outer => cases ha
    | after v outer => cases outer <;> cases ha

/-- Between a name and its value, the name is known. -/
theorem of_colon (h : Reached limits ls c) (ha : c.awaiting = .colon) :
    ∃ roots members key outer, (limits.several ∨ roots = []) ∧
      ls = rootLeaves roots ++ (Spot.colon members key outer).leaves ∧
      c.stack = .object :: outer.map Frame.container := by
  cases h with
  | start => cases ha
  | spot roots spot hs =>
    cases spot with
    | value frame outer => rcases frame with ⟨_ | _⟩ | _ <;> cases ha
    | name members outer => cases members <;> cases ha
    | colon members key outer => exact ⟨roots, members, key, outer, hs, rfl, rfl⟩
    | after v outer => cases outer <;> cases ha

/-- After a value inside a container. -/
theorem of_commaOrClose (h : Reached limits ls c) (ha : c.awaiting = .commaOrClose) :
    ∃ roots v frame outer, (limits.several ∨ roots = []) ∧
      ls = rootLeaves roots ++ (Spot.after v (frame :: outer)).leaves ∧
      c.stack = (frame :: outer).map Frame.container := by
  cases h with
  | start => cases ha
  | spot roots spot hs =>
    cases spot with
    | value frame outer => rcases frame with ⟨_ | _⟩ | _ <;> cases ha
    | name members outer => cases members <;> cases ha
    | colon members key outer => cases ha
    | after v outer =>
      cases outer with
      | nil => cases ha
      | cons frame outer => exact ⟨roots, v, frame, outer, hs, rfl, rfl⟩

/-- Right after an opening bracket, the container is empty so far. -/
theorem of_inside (h : Reached limits ls c) {k : Container} (ha : c.awaiting = .inside k) :
    ∃ roots outer, (limits.several ∨ roots = []) ∧
      ls = rootLeaves roots ++ (framesLeaves outer ++ [.opening k outer.length]) ∧
      c.stack = k :: outer.map Frame.container := by
  cases h with
  | start => cases k <;> cases ha
  | spot roots spot hs =>
    cases spot with
    | value frame outer =>
      rcases frame with ⟨_ | _⟩ | _ <;> cases k <;> cases ha
      exact ⟨roots, outer, hs, rfl, rfl⟩
    | name members outer =>
      cases members <;> cases k <;> cases ha
      exact ⟨roots, outer, hs, rfl, rfl⟩
    | colon members key outer => cases k <;> cases ha
    | after v outer => cases outer <;> cases k <;> cases ha

/-- A run that awaits the end has read whole values. -/
theorem of_ending (h : Reached limits ls c) (ha : c.awaiting = .ending) :
    ∃ roots, roots ≠ [] ∧ (limits.several ∨ roots.length = 1) ∧ ls = rootLeaves roots ∧
      c.stack = [] := by
  cases h with
  | start => cases ha
  | spot roots spot hs =>
    cases spot with
    | value frame outer => rcases frame with ⟨_ | _⟩ | _ <;> cases ha
    | name members outer => cases members <;> cases ha
    | colon members key outer => cases ha
    | after v outer =>
      cases outer with
      | nil =>
        refine ⟨roots ++ [v], by simp, ?_, ?_, rfl⟩
        · rcases hs with hs | rfl
          · exact .inl hs
          · exact .inr rfl
        · simp [rootLeaves, Spot.leaves, framesLeaves]
      | cons frame outer => cases ha

/-- The automaton is at a spot when leaves and state are those of the spot. -/
theorem of_spot {roots : List Value} (spot : Spot) (hr : limits.several ∨ roots = [])
    (hls : ls = rootLeaves roots ++ spot.leaves) (hc : c = ⟨spot.awaiting, spot.stack⟩) :
    Reached limits ls c := by
  rw [hls, hc]
  exact .spot roots spot hr

theorem after_value {roots : List Value} {outer : List Frame} (v : Value) (a : Awaiting)
    (hr : limits.several ∨ roots = []) :
    Reached limits (rootLeaves roots ++ framesLeaves outer ++ v.leaves outer.length)
      (Control.endValue ⟨a, outer.map Frame.container⟩) := by
  refine of_spot (.after v outer) hr (List.append_assoc _ _ _) ?_
  cases outer <;> rfl

theorem closing_empty {a : Awaiting} {k : Container} {stack : List Container} (k' : Container)
    (h : Reached limits ls ⟨a, k :: stack⟩) (ha : a = .inside k') :
    Reached limits (ls ++ [.closing k stack.length]) (Control.endValue ⟨a, stack⟩) := by
  obtain ⟨roots, outer, hr, rfl, hst⟩ := h.of_inside ha
  cases hst
  rw [List.length_map]
  cases k with
  | array => simpa [Value.leaves, itemLeaves] using after_value (.array []) a hr
  | object => simpa [Value.leaves, memberLeaves] using after_value (.object []) a hr

theorem closing_after {k : Container} {stack : List Container}
    (h : Reached limits ls ⟨.commaOrClose, k :: stack⟩) :
    Reached limits (ls ++ [.closing k stack.length]) (Control.endValue ⟨.commaOrClose, stack⟩) := by
  obtain ⟨roots, v, frame, outer, hr, rfl, hst⟩ := h.of_commaOrClose rfl
  obtain ⟨rfl, rfl⟩ := List.cons.inj hst
  rw [List.length_map]
  cases frame with
  | array items =>
    have hv : Reached limits (rootLeaves roots ++ framesLeaves outer ++ _) _ :=
      after_value (.array (v :: items).reverse) .commaOrClose hr
    rw [Value.leaves, itemLeaves_reverse] at hv
    simpa [Spot.leaves, framesLeaves, Frame.leaves, Frame.container] using hv
  | object members name =>
    have hv : Reached limits (rootLeaves roots ++ framesLeaves outer ++ _) _ :=
      after_value (.object ((name, v) :: members).reverse) .commaOrClose hr
    rw [Value.leaves, memberLeaves_reverse] at hv
    simpa [Spot.leaves, framesLeaves, Frame.leaves, Frame.container] using hv

/-- A comma leads to where the next value or name stands. -/
theorem comma {stack : List Container} (h : Reached limits ls ⟨.commaOrClose, stack⟩) :
    Reached limits (ls ++ [.comma stack.length]) ⟨.next stack, stack⟩ := by
  obtain ⟨roots, v, frame, outer, hr, rfl, hst⟩ := h.of_commaOrClose rfl
  subst hst
  rw [List.length_map, List.length_cons]
  cases frame with
  | array items =>
    refine of_spot (.value (.array (v :: items)) outer) hr ?_ rfl
    simp [Spot.leaves, framesLeaves, Frame.leaves, doneItems]
  | object members name =>
    refine of_spot (.name ((name, v) :: members) outer) hr ?_ rfl
    simp [Spot.leaves, framesLeaves, Frame.leaves, doneMembers]

theorem scalar {kind : TokenKind} {content : Bytes} (h : Reached limits ls c)
    (hk : kind.isScalar) (ha : c.awaiting.admitsValue limits.several) (hl : Spells kind content) :
    Reached limits (ls ++ [⟨kind, c.stack.length, content⟩]) c.endValue := by
  obtain ⟨roots, frames, hr, rfl, hst⟩ := h.of_admitsValue ha
  obtain ⟨a, stack⟩ := c
  subst hst
  rw [List.length_map]
  cases hl with
  | string hs => exact after_value (.string ⟨content⟩) a hr
  | number hn => exact after_value (.number ⟨content⟩) a hr
  | word w =>
    cases w with
    | yes => exact after_value (.bool true) a hr
    | no => exact after_value (.bool false) a hr
    | null => exact after_value .null a hr
  | _ => cases hk

/-- One more leaf leads to a further spot. -/
theorem step (h : Reached limits ls c) (hs : Control.Step limits c l c')
    (hl : Spells l.kind l.content) : Reached limits (ls ++ [l]) c' := by
  cases hs with
  | opening k ha hd =>
    obtain ⟨roots, frames, hr, rfl, hst⟩ := h.of_admitsValue ha
    rw [hst, List.length_map, List.append_assoc]
    cases k with
    | array => exact .spot roots (.value (.array []) frames) hr
    | object => exact .spot roots (.name [] frames) hr
  | @closing a stack k ha =>
    -- What is awaited tells whether the container is empty or ends after a value.
    cases a with
    | itemOrClose => exact h.closing_empty .array rfl
    | keyOrClose => exact h.closing_empty .object rfl
    | commaOrClose => exact h.closing_after
    | _ => cases ha
  | comma => exact h.comma
  | colon =>
    obtain ⟨roots, members, key, outer, hr, rfl, hst⟩ := h.of_colon rfl
    subst hst
    refine of_spot (.value (.object members key) outer) hr ?_ rfl
    simp [Spot.leaves, framesLeaves, Frame.leaves]
  | key name ha =>
    obtain ⟨roots, members, outer, hr, rfl, hst⟩ := h.of_admitsKey ha
    rw [hst]
    refine of_spot (.colon members name outer) hr ?_ rfl
    simp [Spot.leaves]
  | scalar content hk ha => exact h.scalar hk ha hl

end Reached

/-- **Every run from the start gets to a spot.** -/
theorem Control.Run.reached {limits : Limits} {ls ms : List Leaf} {c c' : Control}
    (h : Control.Run limits c ms c') (hl : ∀ l ∈ ms, Spells l.kind l.content)
    (hc : Reached limits ls c) : Reached limits (ls ++ ms) c' := by
  induction h generalizing ls with
  | nil => rwa [List.append_nil]
  | @cons c c' c'' l ms hs _ ih =>
    have hstep := hc.step hs (hl l List.mem_cons_self)
    have hrest := ih (fun m hm => hl m (List.mem_cons_of_mem _ hm)) hstep
    rwa [List.append_assoc] at hrest

/-- **A run from the start to where the end is awaited has read whole values, one or, where
several are allowed, more, none of which nests too deep.** -/
theorem Control.Run.of_ending {limits : Limits} {ls : List Leaf} {c : Control}
    (h : Control.Run limits {} ls c) (hl : ∀ l ∈ ls, Spells l.kind l.content)
    (ha : c.awaiting = .ending) :
    ∃ roots, roots ≠ [] ∧ (limits.several ∨ roots.length = 1) ∧
      (∀ v ∈ roots, v.nesting ≤ limits.maxDepth) ∧ ls = rootLeaves roots := by
  obtain ⟨roots, hne, hs, rfl, -⟩ := (h.reached hl .start).of_ending ha
  refine ⟨roots, hne, hs, ?_, rfl⟩
  intro v hv
  have hlt : ∀ l ∈ v.leaves 0, l.kind.isOpening → l.depth < limits.maxDepth :=
    fun l hlv => h.depth_lt l (List.mem_flatMap.2 ⟨v, hv, hlv⟩)
  have hle : 0 + v.nesting ≤ limits.maxDepth := v.nesting_le hlt (Nat.zero_le _)
  rwa [Nat.zero_add] at hle

end Scan

end FlatJson
