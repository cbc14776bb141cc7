import FlatJson.Proofs.Lockstep
import Mathlib.Algebra.Group.Nat.Defs
import Mathlib.Data.List.TakeWhile

/-!
# Windows onto tokens that may break off

Elements and members are found by depth alone.  In the tokens of a scan, complete or not, the first
bracket that closes at the depth of an opening one belongs to it, so whatever is cut off at that
bracket is one whole value.

* `Scan.Control.Run.container` — what stands between a bracket and the next one of its depth.
* `splitValue_of_run` — a value that is cut off, and the run over what comes after it.
* `Window.Elements.heads_of_run`, `Window.fieldRun?_of_run` — elements and members.
* `Window.step_of_run`, `Window.walk_of_run` — one step down, and many.
* `Tokenizer.value_of_windows` — what the windows of any text decode to.
-/

namespace FlatJson

open Scan (Limits Control Awaiting Reached)

/-! ## Lists -/

theorem forall₂_append_left {α β : Type} {r : α → β → Prop} {l m : List α} {n : List β}
    (h : List.Forall₂ r (l ++ m) n) :
    ∃ n₁ n₂, n = n₁ ++ n₂ ∧ List.Forall₂ r l n₁ ∧ List.Forall₂ r m n₂ := by
  obtain ⟨n₁, n₂, hn, h₁, h₂⟩ := forall₂_append_right h.flip
  exact ⟨n₁, n₂, hn, h₁.flip, h₂.flip⟩

/-- The last member of a list without a property is determined, with all that comes after it. -/
theorem eq_of_append_cons {α : Type} {p : α → Prop} {x y l m : List α} {a b : α}
    (h : x ++ a :: l = y ++ b :: m) (ha : ¬ p a) (hb : ¬ p b) (hl : ∀ c ∈ l, p c)
    (hm : ∀ c ∈ m, p c) : a = b ∧ l = m := by
  rcases List.append_eq_append_iff.1 h with ⟨z, -, hz⟩ | ⟨z, -, hz⟩
  · cases z with
    | nil => exact List.cons.inj hz
    | cons d z =>
      obtain ⟨-, rfl⟩ := List.cons.inj hz
      exact absurd (hl b (List.mem_append_right z List.mem_cons_self)) hb
  · cases z with
    | nil =>
      obtain ⟨rfl, rfl⟩ := List.cons.inj hz
      exact ⟨rfl, rfl⟩
    | cons d z =>
      obtain ⟨-, rfl⟩ := List.cons.inj hz
      exact absurd (hm a (List.mem_append_right z List.mem_cons_self)) ha

/-! ## What stands inside a container -/

/-- A value that ends with a bracket is a container. -/
theorem Value.leaves_of_closing {v : Value} {depth : Nat} {ls : List Leaf} {l : Leaf}
    (h : v.leaves depth = ls ++ [l]) (hl : l.kind.isClosing) :
    ∃ k inner, ls = .opening k depth :: inner ∧ l = .closing k depth ∧
      ∀ m ∈ inner, depth < m.depth := by
  have hscalar : ∀ {m : Leaf}, v.leaves depth = [m] → m.kind.isScalar → False := by
    intro m hm hk
    have hsingle : [] ++ [m] = ls ++ [l] := hm.symm.trans h
    obtain ⟨-, hlast⟩ := List.append_inj' hsingle rfl
    rw [← (List.cons.inj hlast).1] at hl
    exact TokenKind.not_isClosing_of_isScalar hk hl
  cases v with
  | array items =>
    have happend : (Leaf.opening .array depth :: itemLeaves (depth + 1) items false) ++
        [.closing .array depth] = ls ++ [l] := h
    obtain ⟨rfl, hlast⟩ := List.append_inj' happend rfl
    refine ⟨.array, _, rfl, (List.cons.inj hlast).1.symm, ?_⟩
    intro m hm
    exact itemLeaves_le_depth m hm
  | object members =>
    have happend : (Leaf.opening .object depth :: memberLeaves (depth + 1) members false) ++
        [.closing .object depth] = ls ++ [l] := h
    obtain ⟨rfl, hlast⟩ := List.append_inj' happend rfl
    refine ⟨.object, _, rfl, (List.cons.inj hlast).1.symm, ?_⟩
    intro m hm
    exact memberLeaves_le_depth m hm
  | bool b => cases b <;> exact (hscalar rfl rfl).elim
  | _ => exact (hscalar rfl rfl).elim

/-- An open container that holds nothing yet. -/
def Frame.empty : Container → Frame
  | .array => .array []
  | .object => .object [] ⟨[]⟩

theorem Frame.map_empty (stack : List Container) :
    (stack.map Frame.empty).map Frame.container = stack := by
  have hid : ∀ k, (Frame.empty k).container = k := by
    intro k
    cases k <;> rfl
  rw [List.map_map]
  exact List.map_id'' hid stack

namespace Scan

variable {limits : Limits} {c c' : Control} {k : Container} {stack : List Container}
  {ls : List Leaf} {l : Leaf}

/-- After a value, that value is known. -/
theorem Reached.of_endValue {c : Control} (h : Reached limits ls c.endValue) :
    ∃ (before : List Leaf) (v : Value), ls = before ++ v.leaves c.stack.length := by
  obtain ⟨a, stack⟩ := c
  cases stack with
  | nil =>
    obtain ⟨roots, hne, -, rfl, -⟩ := h.of_ending rfl
    refine ⟨rootLeaves roots.dropLast, roots.getLast hne, ?_⟩
    have hroots : rootLeaves roots = rootLeaves (roots.dropLast ++ [roots.getLast hne]) := by
      rw [List.dropLast_append_getLast]
    rw [hroots, rootLeaves, List.flatMap_append]
    simp [rootLeaves]
  | cons k stack =>
    obtain ⟨roots, v, frame, outer, -, rfl, hstack⟩ := h.of_commaOrClose rfl
    have hlen : (k :: stack).length = (frame :: outer).length := by
      have hlen := congrArg List.length hstack
      rwa [List.length_map] at hlen
    refine ⟨rootLeaves roots ++ framesLeaves (frame :: outer), v, ?_⟩
    rw [show Control.stack ⟨a, k :: stack⟩ = k :: stack from rfl, hlen, Spot.leaves,
      List.append_assoc]

/-- Right after an opening bracket, whatever is open around it. -/
theorem Reached.opened (k : Container) (stack : List Container) :
    Reached limits (framesLeaves (stack.map Frame.empty) ++ [.opening k stack.length])
      ⟨.inside k, k :: stack⟩ := by
  have hstack := Frame.map_empty stack
  have hlen : (stack.map Frame.empty).length = stack.length := List.length_map _
  cases k with
  | array =>
    refine .of_spot (.value (.array []) (stack.map Frame.empty)) (.inr rfl) ?_ ?_
    · simp [rootLeaves, Spot.leaves, framesLeaves, Frame.leaves, doneItems, hlen]
    · simp only [Spot.awaiting, Spot.stack, List.map_cons, Frame.container, hstack]
      rfl
  | object =>
    refine .of_spot (.name [] (stack.map Frame.empty)) (.inr rfl) ?_ ?_
    · simp [rootLeaves, Spot.leaves, doneMembers, hlen]
    · simp only [Spot.awaiting, Spot.stack, hstack]
      rfl

/-- As long as no bracket closes at a depth, all that is open around it stays open. -/
theorem Control.Run.inside (h : Control.Run limits c ls c') {up base : List Container}
    (hc : c.stack = up ++ base) (hup : up ≠ [])
    (hl : ∀ l ∈ ls, l.kind.isClosing → l.depth ≠ base.length) :
    (∀ l ∈ ls, base.length < l.depth) ∧ ∃ up', up' ≠ [] ∧ c'.stack = up' ++ base := by
  induction h generalizing up with
  | nil => exact ⟨nofun, up, hup, hc⟩
  | @cons c c₁ c₂ l ls hs _ ih =>
    have hpos := List.length_pos_iff.2 hup
    have hlen : c.stack.length = up.length + base.length := by rw [hc, List.length_append]
    have hstep : base.length < l.depth ∧ ∃ up', up' ≠ [] ∧ c₁.stack = up' ++ base := by
      cases hs with
      | opening k ha hd =>
        refine ⟨show base.length < c.stack.length by omega, k :: up, List.cons_ne_nil k up, ?_⟩
        rw [hc, List.cons_append]
      | @closing a stack k ha =>
        have hne : stack.length ≠ base.length := hl _ List.mem_cons_self rfl
        cases up with
        | nil => exact absurd rfl hup
        | cons k' up =>
          obtain ⟨-, hstack⟩ := List.cons.inj hc
          have hlen' : stack.length = up.length + base.length := by
            rw [hstack]
            exact List.length_append
          refine ⟨show base.length < stack.length by omega, up, ?_, hstack⟩
          rintro rfl
          exact hne (hlen'.trans (Nat.zero_add _))
      | comma => exact ⟨show _ < List.length _ by rw [hlen]; omega, up, hup, hc⟩
      | colon => exact ⟨show _ < List.length _ by rw [hlen]; omega, up, hup, hc⟩
      | key name ha => exact ⟨show _ < List.length _ by rw [hlen]; omega, up, hup, hc⟩
      | scalar content hk ha => exact ⟨show _ < List.length _ by rw [hlen]; omega, up, hup, hc⟩
    obtain ⟨hlt, up', hup', hc₁⟩ := hstep
    obtain ⟨hrest, hend⟩ := ih hc₁ hup' fun m hm => hl m (List.mem_cons_of_mem _ hm)
    refine ⟨?_, hend⟩
    intro m hm
    rcases List.mem_cons.1 hm with rfl | hm
    · exact hlt
    · exact hrest m hm

/-- **From an opening bracket to the next bracket that closes at its depth stands one value**, and
that bracket belongs to it. -/
theorem Control.Run.container (h : Control.Run limits ⟨.inside k, k :: stack⟩ ls c)
    (hstep : Control.Step limits c l c') (hl : l.kind.isClosing) (hdepth : l.depth = stack.length)
    (hopen : ∀ m ∈ ls, m.kind.isClosing → m.depth ≠ stack.length)
    (hspells : ∀ m ∈ ls ++ [l], Spells m.kind m.content) :
    (∃ v : Value, v.leaves stack.length = .opening k stack.length :: (ls ++ [l])) ∧
      c' = Control.endValue ⟨.document, stack⟩ := by
  have hbase : Control.stack ⟨.inside k, k :: stack⟩ = [k] ++ stack := rfl
  obtain ⟨hdeep, up, hup, hstack⟩ := h.inside hbase (List.cons_ne_nil k []) hopen
  have hreached := (h.append (.single hstep)).reached hspells (Reached.opened k stack)
  -- Only the closing of the innermost container is a step with such a leaf.
  have hend : c' = Control.endValue ⟨.document, stack⟩ := by
    cases hstep with
    | @closing a outer k' ha =>
      cases up with
      | nil => exact absurd rfl hup
      | cons k'' up =>
        obtain ⟨-, houter⟩ := List.cons.inj hstack
        have hlen : outer.length = stack.length := hdepth
        have houter' : outer = up ++ stack := houter
        rw [houter', List.length_append] at hlen
        obtain rfl : up = [] := List.length_eq_zero_iff.1 (by omega)
        rw [houter']
        rfl
    | scalar content hk ha => exact absurd hl (TokenKind.not_isClosing_of_isScalar hk)
    | _ => cases hl
  refine ⟨?_, hend⟩
  rw [hend] at hreached
  obtain ⟨before, v, hv⟩ := hreached.of_endValue
  have hsplit : v.leaves stack.length ≠ [] := v.leaves_ne_nil _
  obtain ⟨init, last, hinit⟩ : ∃ init last, v.leaves stack.length = init ++ [last] :=
    ⟨_, _, (List.dropLast_append_getLast hsplit).symm⟩
  have hsame : (framesLeaves (stack.map Frame.empty) ++ [.opening k stack.length]) ++ ls ++ [l] =
      (before ++ init) ++ [last] := by
    rw [List.append_assoc, hv, List.append_assoc]
    exact congrArg _ hinit
  obtain ⟨hfront, hlast⟩ := List.append_inj' hsame rfl
  obtain rfl : l = last := (List.cons.inj hlast).1
  obtain ⟨k', inner, rfl, rfl, hinner⟩ := Value.leaves_of_closing hinit hl
  rw [List.append_assoc, List.singleton_append] at hfront
  obtain ⟨hopening, rfl⟩ := eq_of_append_cons (p := fun m : Leaf => stack.length < m.depth) hfront
    (Nat.lt_irrefl _) (Nat.lt_irrefl _) hdeep hinner
  exact ⟨v, by rw [hinit, hopening, List.cons_append]⟩

end Scan

/-! ## Cutting off a value -/

section

variable {w : Window} {limits : Limits} {c c' : Control} {ls : List Leaf}
  {ts tv inside rest : List Token} {t : Token} {l : Leaf} {depth : Nat}

/-- The tokens before a closing bracket are those that do not close at its depth. -/
theorem splitClosing_eq_some (h : splitClosing depth ts = some (inside, rest)) :
    ∃ mid close, ts = mid ++ close :: rest ∧ inside = mid ++ [close] ∧ close.closesAt depth ∧
      ∀ t ∈ mid, ¬ t.closesAt depth := by
  unfold splitClosing at h
  split at h
  · next close rest' hdrop =>
    cases h
    refine ⟨_, close, ?_, rfl, ?_, ?_⟩
    · rw [← hdrop, List.takeWhile_append_dropWhile]
    · have hhead := List.head?_dropWhile_not (fun t => !Token.closesAt depth t) ts
      rw [hdrop] at hhead
      simpa using hhead
    · intro t ht
      simpa using List.mem_takeWhile_imp ht
  · cases h

/-- A value that is cut off is a scalar, or ends with the first bracket that closes at the depth
of its first. -/
theorem splitValue_eq_some (h : splitValue (t :: ts) = some (tv, rest)) :
    (t.kind.isScalar ∧ tv = [t] ∧ rest = ts) ∨
      (t.kind.isOpening ∧ ∃ mid close, ts = mid ++ close :: rest ∧ tv = t :: (mid ++ [close]) ∧
        close.closesAt t.depth ∧ ∀ u ∈ mid, ¬ u.closesAt t.depth) := by
  rw [splitValue] at h
  by_cases hscalar : t.kind.isScalar
  · rw [if_pos hscalar] at h
    cases h
    exact .inl ⟨hscalar, rfl, rfl⟩
  · rw [if_neg hscalar] at h
    by_cases hopening : t.kind.isOpening
    · rw [if_pos hopening] at h
      obtain ⟨⟨inside, after⟩, hsplit, he⟩ := Option.map_eq_some_iff.1 h
      cases he
      obtain ⟨mid, close, hts, rfl, hclose, hmid⟩ := splitClosing_eq_some hsplit
      exact .inr ⟨hopening, mid, close, hts, rfl, hclose, hmid⟩
    · rw [if_neg hopening] at h
      cases h

theorem Shows.closesAt_iff (h : Shows w t l) (hd : depth < maxReportedDepth) :
    t.closesAt depth ↔ l.kind.isClosing ∧ l.depth = depth := by
  have hdepth : t.depth = depth ↔ l.depth = depth := by
    rw [h.depth]
    omega
  rw [Token.closesAt, Bool.and_eq_true, beq_iff_eq, h.kind, hdepth, and_comm]

/-- The leaf of a scalar is that of a value. -/
theorem Leaf.exists_value (hs : Spells l.kind l.content) (hk : l.kind.isScalar) :
    ∃ v : Value, v.leaves l.depth = [l] ∧ v.nesting = 0 := by
  obtain ⟨kind, depth, content⟩ := l
  cases hs with
  | string => exact ⟨.string ⟨content⟩, rfl, rfl⟩
  | number => exact ⟨.number ⟨content⟩, rfl, rfl⟩
  | word k =>
    cases k with
    | yes => exact ⟨.bool true, rfl, rfl⟩
    | no => exact ⟨.bool false, rfl, rfl⟩
    | null => exact ⟨.null, rfl, rfl⟩
  | _ => cases hk

/-- The tokens of a whole value at a depth, which nests no deeper than the scan allows. -/
def HoldsValue (w : Window) (limits : Limits) (depth : Nat) (ts : List Token) : Prop :=
  ∃ v : Value, List.Forall₂ (Shows w) ts (v.leaves depth) ∧
    (0 < v.nesting → depth + v.nesting ≤ limits.maxDepth)

/-- The tokens are read by the automaton, from the state on. -/
def ReadFrom (w : Window) (limits : Limits) (c : Control) (ts : List Token) : Prop :=
  ∃ ls c', List.Forall₂ (Shows w) ts ls ∧ Control.Run limits c ls c'

/-- The token of a scalar is that of a value. -/
theorem HoldsValue.of_scalar (ht : Shows w t l) (hk : l.kind.isScalar) :
    HoldsValue w limits l.depth [t] := by
  obtain ⟨v, hv, hn⟩ := Leaf.exists_value ht.spells hk
  refine ⟨v, ?_, fun hpos => absurd hn (Nat.ne_of_gt hpos)⟩
  rw [hv]
  exact .cons ht .nil

/-- From an opening bracket to the next bracket that closes at its depth stand the tokens of one
value. -/
theorem HoldsValue.of_container {k : Container} {stack : List Container} {mid : List Token}
    {close : Token} {lc : Leaf} {c₁ c₂ : Control}
    (ht : Shows w t (.opening k stack.length)) (hlimit : stack.length < limits.maxDepth)
    (hmid : List.Forall₂ (Shows w) mid ls) (hclose : Shows w close lc)
    (hrun : Control.Run limits ⟨.inside k, k :: stack⟩ ls c₁)
    (hstep : Control.Step limits c₁ lc c₂) (hkind : lc.kind.isClosing)
    (hdepth : lc.depth = stack.length)
    (hopen : ∀ m ∈ ls, m.kind.isClosing → m.depth ≠ stack.length) :
    HoldsValue w limits stack.length (t :: (mid ++ [close])) ∧
      c₂ = Control.endValue ⟨.document, stack⟩ := by
  have htokens : List.Forall₂ (Shows w) (mid ++ [close]) (ls ++ [lc]) :=
    List.rel_append hmid (.cons hclose .nil)
  obtain ⟨⟨v, hv⟩, hend⟩ := hrun.container hstep hkind hdepth hopen (spells_of_shows htokens)
  refine ⟨⟨v, ?_, ?_⟩, hend⟩
  · rw [hv]
    exact .cons ht htokens
  · intro _
    refine v.nesting_le ?_ (Nat.le_of_lt hlimit)
    intro l hl hk
    rw [hv] at hl
    rcases List.mem_cons.1 hl with rfl | hl
    · exact hlimit
    · exact (hrun.append (.single hstep)).depth_lt l hl hk

/-- Tokens after an opening bracket, up to the first bracket that closes at its depth. -/
theorem ReadFrom.container {k : Container} {stack : List Container} {mid : List Token}
    {close : Token} (ht : Shows w t (.opening k stack.length))
    (hlimit : stack.length < limits.maxDepth)
    (h : ReadFrom w limits ⟨.inside k, k :: stack⟩ (mid ++ close :: rest))
    (hd : stack.length < maxReportedDepth) (hclose : close.closesAt stack.length)
    (hmid : ∀ u ∈ mid, ¬ u.closesAt stack.length) :
    HoldsValue w limits stack.length (t :: (mid ++ [close])) ∧
      ReadFrom w limits (Control.endValue ⟨.document, stack⟩) rest := by
  obtain ⟨ls, c', hs, hr⟩ := h
  obtain ⟨lm, lr, rfl, hsm, hsr⟩ := forall₂_append_left hs
  cases hsr with
  | @cons _ lc _ lr hsc hsr =>
    obtain ⟨c₁, hrm, hrr⟩ := hr.of_append
    cases hrr with
    | @cons _ c₂ _ _ _ hsl hrr =>
      obtain ⟨hkind, hdepth⟩ := (hsc.closesAt_iff hd).1 hclose
      have hopen : ∀ m ∈ lm, m.kind.isClosing → m.depth ≠ stack.length := by
        intro m hm hk hmd
        obtain ⟨u, hu, hum⟩ := exists_of_forall₂ hsm.flip hm
        exact hmid u hu ((Shows.closesAt_iff hum hd).2 ⟨hk, hmd⟩)
      obtain ⟨hvalue, rfl⟩ := HoldsValue.of_container ht hlimit hsm hsc hrm hsl hkind hdepth hopen
      exact ⟨hvalue, lr, c', hsr, hrr⟩

/-- **What is cut off as a value is one**, and the automaton goes on after it as after a value. -/
theorem ReadFrom.splitValue (h : ReadFrom w limits c ts) (hmax : limits.maxDepth ≤ maxReportedDepth)
    (hsplit : splitValue ts = some (tv, rest)) :
    HoldsValue w limits c.stack.length tv ∧ ReadFrom w limits c.endValue rest := by
  obtain ⟨ls, c', hs, hr⟩ := h
  cases hs with
  | nil => cases hsplit
  | @cons t l ts ls ht hs =>
    cases hr with
    | @cons _ c₁ _ _ _ hstep hr =>
      rcases splitValue_eq_some hsplit with ⟨hscalar, rfl, rfl⟩ |
        ⟨hopening, mid, close, rfl, rfl, hclose, hmid⟩
      · rw [ht.kind] at hscalar
        cases hstep with
        | scalar content hk ha => exact ⟨.of_scalar ht hscalar, ls, c', hs, hr⟩
        | _ => cases hscalar
      · rw [ht.kind] at hopening
        cases hstep with
        | opening k ha hd =>
          have hlt : c.stack.length < maxReportedDepth := by omega
          have hdepth : t.depth = c.stack.length := ht.depth_of_lt hlt
          rw [hdepth] at hclose hmid
          exact ReadFrom.container ht hd ⟨ls, c', hs, hr⟩ hlt hclose hmid
        | scalar content hk ha => exact absurd hopening (TokenKind.not_isOpening_of_isScalar hk)
        | _ => cases hopening

/-! ## Elements and members -/

theorem ReadFrom.nil (w : Window) (limits : Limits) (c : Control) : ReadFrom w limits c [] :=
  ⟨[], c, .nil, .nil c⟩

/-- A comma leaves all containers open. -/
theorem ReadFrom.afterComma (h : ReadFrom w limits c ts) :
    ∃ c', ReadFrom w limits c' (afterComma ts) ∧ c'.stack = c.stack := by
  cases ts with
  | nil => exact ⟨c, .nil w limits c, rfl⟩
  | cons t ts =>
    rw [FlatJson.afterComma]
    by_cases hcomma : t.kind = .comma
    · rw [if_pos hcomma]
      obtain ⟨ls, c', hs, hr⟩ := h
      cases hs with
      | @cons _ l _ ls ht hs =>
        rw [ht.kind] at hcomma
        cases hr with
        | cons hstep hr =>
          cases hstep with
          | comma => exact ⟨_, ⟨ls, c', hs, hr⟩, rfl⟩
          | scalar content hk ha =>
            obtain rfl : _ = TokenKind.comma := hcomma
            cases hk
          | _ => cases hcomma
    · rw [if_neg hcomma]
      exact ⟨c, .nil w limits c, rfl⟩

/-- **The elements from a position on are whole values**, even if the tokens break off. -/
theorem Window.Elements.holds_of_run {e : Window.Elements}
    (h : ReadFrom e.window limits c e.pending) (hmax : limits.maxDepth ≤ maxReportedDepth) :
    ∀ w ∈ e.collect [], ∃ tv, w = e.window.onto tv ∧
      HoldsValue e.window limits c.stack.length tv := by
  induction hn : e.pending.length using Nat.strong_induction_on generalizing e c with
  | _ n ih =>
    match hnext : e.next with
    | (none, e') =>
      rw [Window.Elements.collect_none hnext]
      exact nofun
    | (some w', e') =>
      have hlt := Window.Elements.next_pending_length_lt hnext
      rw [Window.Elements.collect_cons hnext]
      cases hsplit : splitValue e.pending with
      | none =>
        rw [Window.Elements.next, hsplit] at hnext
        cases hnext
      | some cut =>
        obtain ⟨tv, rest⟩ := cut
        rw [Window.Elements.next, hsplit] at hnext
        cases hnext
        obtain ⟨hvalue, hrest⟩ := h.splitValue hmax hsplit
        obtain ⟨c', hc', hstack⟩ := hrest.afterComma
        have hlater := ih _ (hn ▸ hlt) (e := { e with pending := FlatJson.afterComma rest }) hc' rfl
        rw [hstack] at hlater
        intro w hw
        rcases List.mem_cons.1 hw with rfl | hw
        · exact ⟨tv, rfl, hvalue⟩
        · exact hlater w hw

/-- After a name comes a colon, and then a value inside the same containers. -/
theorem ReadFrom.member {key colon : Token} (h : ReadFrom w limits c (key :: colon :: ts))
    (hkey : key.kind = .key) : ∃ c', ReadFrom w limits c' ts ∧ c'.stack = c.stack := by
  obtain ⟨a, stack⟩ := c
  obtain ⟨ls, c', hs, hr⟩ := h
  cases hs with
  | @cons _ l _ ls hk hs =>
    cases hs with
    | @cons _ m _ ls hm hs =>
      rw [hk.kind] at hkey
      cases hr with
      | @cons _ c₁ _ _ _ hstep hr =>
        cases hr with
        | @cons _ c₂ _ _ _ hstep' hr =>
          have hc₁ : c₁ = ⟨.colon, stack⟩ := by
            cases hstep with
            | key name ha => rfl
            | scalar content hsc ha =>
              obtain rfl : _ = TokenKind.key := hkey
              cases hsc
            | _ => cases hkey
          subst hc₁
          cases hstep' with
          | colon => exact ⟨_, ⟨ls, c', hs, hr⟩, rfl⟩
          | opening k ha hd => cases ha
          | closing k ha => cases ha
          | key name ha => cases ha
          | scalar content hsc ha => cases ha

/-- **A member that is found is a whole value**, even if the tokens break off. -/
theorem Window.fieldRun?_of_run {name : String} (h : ReadFrom w limits c ts)
    (hmax : limits.maxDepth ≤ maxReportedDepth) (hfield : w.fieldRun? name ts = some tv) :
    HoldsValue w limits c.stack.length tv := by
  fun_induction w.fieldRun? name ts generalizing c with
  | case2 key colon rest hkey value after hsplit hname =>
    cases hfield
    obtain ⟨c', hc', hstack⟩ := h.member hkey
    rw [← hstack]
    exact (hc'.splitValue hmax hsplit).1
  | case3 key colon rest hkey value after hsplit hname ih =>
    -- The members after this one are inside the same containers.
    obtain ⟨c', hc', hstack⟩ := h.member hkey
    obtain ⟨c'', hc'', hstack'⟩ := (hc'.splitValue hmax hsplit).2.afterComma
    have hlater := ih hc'' hfield
    rw [hstack'] at hlater
    rw [← hstack]
    exact hlater
  | _ => cases hfield

/-! ## Ways down -/

/-- The tokens after the opening bracket of a container. -/
theorem ReadFrom.opened {k : Container} (h : ReadFrom w limits c (t :: ts))
    (ht : t.kind = .opening k) :
    c.stack.length < limits.maxDepth ∧ ReadFrom w limits ⟨.inside k, k :: c.stack⟩ ts := by
  obtain ⟨ls, c', hs, hr⟩ := h
  cases hs with
  | @cons _ l _ ls hl hs =>
    rw [hl.kind] at ht
    cases hr with
    | cons hstep hr =>
      cases hstep with
      | opening k' ha hd =>
        cases ht
        exact ⟨hd, ls, c', hs, hr⟩
      | scalar content hk ha =>
        obtain rfl : _ = TokenKind.opening k := ht
        cases hk
      | _ => cases ht

theorem HoldsValue.heads {tv : List Token} (h : HoldsValue w limits depth tv) :
    ∃ v : Value, (w.onto tv).Heads v depth [] ∧
      (0 < v.nesting → depth + v.nesting ≤ limits.maxDepth) := by
  obtain ⟨v, hv, hn⟩ := h
  exact ⟨v, Window.heads_onto hv, hn⟩

/-- **A step down from tokens that may break off leads to one whole value.** -/
theorem Window.step_of_run {w' : Window} {s : Step} (h : ReadFrom w limits c w.tokens)
    (hmax : limits.maxDepth ≤ maxReportedDepth) (hstep : w.step? s = some w') :
    ∃ v : Value, w'.Heads v (c.stack.length + 1) [] ∧
      (0 < v.nesting → c.stack.length + 1 + v.nesting ≤ limits.maxDepth) := by
  cases s with
  | member name =>
    obtain ⟨t, ts, tv, hw, hk, hrun, rfl⟩ := Window.exists_object_of_field? hstep
    rw [hw] at h
    exact (Window.fieldRun?_of_run (h.opened hk).2 hmax hrun).heads
  | item n =>
    obtain ⟨t, ts, hw, hk, hmem⟩ :=
      Window.exists_array_of_mem_elements (List.mem_of_getElem? hstep)
    rw [hw] at h
    obtain ⟨tv, rfl, hv⟩ := Window.Elements.holds_of_run (h.opened hk).2 hmax w' hmem
    exact hv.heads

/-- **Every way down from tokens that may break off leads to one whole value.** -/
theorem Window.walk_of_run {w' : Window} {way : List Step} (h : ReadFrom w limits c w.tokens)
    (hmax : limits.maxDepth ≤ maxReportedDepth) (hc : c.stack = []) (hway : way ≠ [])
    (hwalk : w.walk? way = some w') : ∃ v, w'.Heads v way.length [] := by
  cases way with
  | nil => exact absurd rfl hway
  | cons s way =>
    rw [Window.walk?_cons] at hwalk
    obtain ⟨w₁, hstep, hrest⟩ := Option.bind_eq_some_iff.1 hwalk
    obtain ⟨v, hheads, hn⟩ := Window.step_of_run h hmax hstep
    rw [hc] at hheads hn
    have hdepth : 0 + 1 + v.nesting ≤ maxReportedDepth := by
      have hone : 1 ≤ maxReportedDepth := by decide
      simp only [List.length_nil] at hn
      omega
    have hall := hheads.walk way (.inr (.inr (Nat.le_succ_of_le hdepth)))
    rw [hrest] at hall
    generalize v.walk? way = found at hall
    cases hall with
    | @some _ v' hv =>
      obtain ⟨-, rest', hheads', hrest'⟩ := hv
      rw [hrest' rfl] at hheads'
      refine ⟨v', ?_⟩
      rw [List.length_cons, Nat.add_comm]
      rwa [List.length_nil, Nat.zero_add] at hheads'

end

/-- A window that holds one value decodes to it, unless the value nests too deep. -/
theorem Window.Heads.value_cases {w : Window} {v : Value} {depth : Nat} (h : w.Heads v depth []) :
    w.value = .ok v ∨ ∃ i, w.value = .error (.depthLimitExceeded i) := by
  obtain ⟨ts, hw, hs⟩ := h
  rw [Window.value_of_shows hw hs]
  cases firstDeep (depth + maxTreeDepth) (v.leaves depth) with
  | some i => exact .inr ⟨i, rfl⟩
  | none => exact .inl rfl

/-- **What the tokens of any text decode to**, accepted or refused.  All of them together are never
found to have an unexpected token.  Every window further down, reached by names and by positions,
has the tokens of exactly one value, and decodes to it unless it nests too deep. -/
theorem Tokenizer.value_of_windows (t : Tokenizer) (hmax : t.settings.maxDepth < 2 ^ 32)
    (text : Bytes) :
    (∀ kind index, ((t.parse text).1.window text).value ≠ .error (.unexpectedToken kind index)) ∧
    ∀ way w, way ≠ [] → ((t.parse text).1.window text).walk? way = some w →
      ∃ v : Value, List.Forall₂ (Shows w) w.tokens (v.leaves way.length) ∧
        (w.value = .ok v ∨ ∃ i, w.value = .error (.depthLimitExceeded i)) := by
  obtain ⟨ls, c, hshows, hrun⟩ := t.exists_run text
  constructor
  · exact Window.value_ne_unexpectedToken hrun hshows
  · intro way w hway hwalk
    have hle : t.settings.limits.maxDepth ≤ maxReportedDepth := by
      have heq : maxReportedDepth + 1 = 2 ^ 32 := by decide
      show t.settings.maxDepth ≤ maxReportedDepth
      omega
    obtain ⟨v, hheads⟩ := Window.walk_of_run ⟨ls, c, hshows, hrun⟩ hle rfl hway hwalk
    have hvalue := hheads.value_cases
    obtain ⟨ts, hw, hs⟩ := hheads
    rw [List.append_nil] at hw
    rw [← hw] at hs
    exact ⟨v, hs, hvalue⟩

/-- The text `[[1],` breaks off after a comma; its tokens decode to nothing, and its only element is
an array. -/
theorem Tokenizer.value_of_windows_comma :
    ({} : Tokenizer).settings.maxDepth < 2 ^ 32 ∧
    ((({} : Tokenizer).parse [0x5B, 0x5B, 0x31, 0x5D, 0x2C]).1.window
      [0x5B, 0x5B, 0x31, 0x5D, 0x2C]).value = .error .unexpectedEnd ∧
    ∃ w, ((({} : Tokenizer).parse [0x5B, 0x5B, 0x31, 0x5D, 0x2C]).1.window
        [0x5B, 0x5B, 0x31, 0x5D, 0x2C]).walk? [.item 0] = some w ∧
      ∃ v : Value, List.Forall₂ (Shows w) w.tokens (v.leaves 1) ∧
        (w.value = .ok v ∨ ∃ i, w.value = .error (.depthLimitExceeded i)) := by
  have ht : (({} : Tokenizer).parse [0x5B, 0x5B, 0x31, 0x5D, 0x2C]).1.tokens =
      [⟨.opening .array, 0, 0, 1⟩, ⟨.opening .array, 1, 1, 1⟩, ⟨.number, 2, 2, 1⟩,
        ⟨.closing .array, 1, 3, 1⟩, ⟨.comma, 1, 4, 1⟩] := by decide
  have hwindows := (Tokenizer.value_of_windows {} (by decide) [0x5B, 0x5B, 0x31, 0x5D, 0x2C]).2
  generalize (({} : Tokenizer).parse [0x5B, 0x5B, 0x31, 0x5D, 0x2C]).1 = parsed at ht hwindows
  have hstart : (parsed.window [0x5B, 0x5B, 0x31, 0x5D, 0x2C]).elementsStart.next =
      (some ((parsed.window [0x5B, 0x5B, 0x31, 0x5D, 0x2C]).onto
        [⟨.opening .array, 1, 1, 1⟩, ⟨.number, 2, 2, 1⟩, ⟨.closing .array, 1, 3, 1⟩]),
        ⟨parsed.window [0x5B, 0x5B, 0x31, 0x5D, 0x2C], []⟩) := by
    unfold Window.elementsStart
    rw [show (parsed.window [0x5B, 0x5B, 0x31, 0x5D, 0x2C]).tokens = _ from ht]
    rfl
  have hwalk : (parsed.window [0x5B, 0x5B, 0x31, 0x5D, 0x2C]).walk? [.item 0] =
      some ((parsed.window [0x5B, 0x5B, 0x31, 0x5D, 0x2C]).onto
        [⟨.opening .array, 1, 1, 1⟩, ⟨.number, 2, 2, 1⟩, ⟨.closing .array, 1, 3, 1⟩]) := by
    rw [Window.walk?_single, Window.step?, Window.elements, Window.Elements.collect_cons hstart]
    rfl
  refine ⟨by decide, ?_, _, hwalk, hwindows [.item 0] _ (List.cons_ne_nil _ _) hwalk⟩
  unfold Window.value
  rw [show (parsed.window [0x5B, 0x5B, 0x31, 0x5D, 0x2C]).tokens = _ from ht]
  rfl

end FlatJson
