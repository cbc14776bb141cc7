import Mathlib.Data.Finset.Card

/-!
# Transfers between pools and callers

What happens to the tokenizers of some pools is told as a history.  Tokenizers are numbered in the
order in which they were made, and pools in the order in which they were; the latest transfer comes
first.

* `Transfer` — what happened to one tokenizer at one pool.
* `History.owner` — the pool that a tokenizer is out of.
* `History.out` — the tokenizers that are out of a pool.
* `History.shelf` — the idle tokenizers of a pool, the one kept last first; `History.keeper` — the pool
  on whose shelf a tokenizer is.
* `Transfer.Follows`, `History.Orderly` — the transfers that pools may make.

`Orderly.mem_out_iff` says who owns what in an orderly history, and `Orderly.balance` that no
tokenizer is lost from the accounts.
-/

namespace FlatJson

/-- What happened to a tokenizer at a pool. -/
inductive Transfer where
  /-- The pool made it and gave it out. -/
  | made (number pool : Nat)
  /-- The pool gave it out again, with so much room. -/
  | reused (number pool capacity : Nat)
  /-- The pool took it back, with so much room, and kept it. -/
  | kept (number pool capacity : Nat)
  /-- The pool took it back and had no place for it. -/
  | discarded (number pool : Nat)
  /-- The pool refused it. -/
  | refused (number pool : Nat)
  deriving DecidableEq, Repr

/-- The latest transfer first. -/
abbrev History := List Transfer

namespace Transfer

/-- The number of the tokenizer. -/
def number : Transfer → Nat
  | made n _ | reused n _ _ | kept n _ _ | discarded n _ | refused n _ => n

/-- The number of the pool. -/
def pool : Transfer → Nat
  | made _ i | reused _ i _ | kept _ i _ | discarded _ i | refused _ i => i

def isMadeBy (i : Nat) : Transfer → Bool
  | made _ j => j == i
  | _ => false

def isReusedBy (i : Nat) : Transfer → Bool
  | reused _ j _ => j == i
  | _ => false

def isDiscardedBy (i : Nat) : Transfer → Bool
  | discarded _ j => j == i
  | _ => false

end Transfer

namespace History

/-- The pool that a tokenizer was taken from last, unless it has been taken back since. -/
def owner (n : Nat) : History → Option Nat
  | [] => none
  | .made m i :: h | .reused m i _ :: h => if m = n then some i else owner n h
  | .kept m _ _ :: h | .discarded m _ :: h => if m = n then none else owner n h
  | .refused _ _ :: h => owner n h

/-- The tokenizers that were taken from a pool and that it has not taken back since. -/
def out (i : Nat) : History → Finset Nat
  | [] => ∅
  | .made n j :: h | .reused n j _ :: h => if j = i then insert n (out i h) else out i h
  | .kept n j _ :: h | .discarded n j :: h => if j = i then (out i h).erase n else out i h
  | .refused _ _ :: h => out i h

/-- The tokenizers that a pool has kept and not given out since, each with the room that it came
back with.  The one kept last comes first. -/
def shelf (i : Nat) : History → List (Nat × Nat)
  | [] => []
  | .kept n j capacity :: h => if j = i then (n, capacity) :: shelf i h else shelf i h
  | .reused n j _ :: h => if j = i then (shelf i h).filter (·.1 ≠ n) else shelf i h
  | .made _ _ :: h | .discarded _ _ :: h | .refused _ _ :: h => shelf i h

/-- The pool that has kept a tokenizer and not given it out since. -/
def keeper (n : Nat) : History → Option Nat
  | [] => none
  | .kept m i _ :: h => if m = n then some i else keeper n h
  | .made m _ :: h | .reused m _ _ :: h | .discarded m _ :: h => if m = n then none else keeper n h
  | .refused _ _ :: h => keeper n h

end History

open History

/-- Whether a transfer may come after a history, where `most i` is how many idle tokenizers pool
`i` has at most.  A pool makes a tokenizer when none is idle and else gives out the one kept last; it
takes back what is out of it and nothing else, and keeps it while there is a place. -/
def Transfer.Follows (most : Nat → Option Nat) (h : History) : Transfer → Prop
  | .made n i => shelf i h = [] ∧ ∀ e ∈ h, e.number ≠ n
  | .reused n i capacity => ∃ rest, shelf i h = (n, capacity) :: rest
  | .kept n i _ => owner n h = some i ∧ ∃ m, most i = some m ∧ (shelf i h).length < m
  | .discarded n i => owner n h = some i ∧ most i = some (shelf i h).length
  | .refused n i => owner n h ≠ some i

namespace History

/-- Whether each transfer may come after those before it. -/
def Orderly (most : Nat → Option Nat) : History → Prop
  | [] => True
  | e :: h => e.Follows most h ∧ Orderly most h

variable {most : Nat → Option Nat} {h earlier : History} {e : Transfer} {i n : Nat}

/-! ## What a transfer leaves as it is -/

theorem owner_cons_of_ne (hn : e.number ≠ n) : owner n (e :: h) = owner n h := by
  cases e <;> simp only [Transfer.number] at hn <;> simp [owner, hn]

theorem shelf_cons_of_ne (hi : e.pool ≠ i) : shelf i (e :: h) = shelf i h := by
  cases e <;> simp only [Transfer.pool] at hi <;> simp [shelf, hi]

theorem out_cons_of_ne (hi : e.pool ≠ i) : out i (e :: h) = out i h := by
  cases e <;> simp only [Transfer.pool] at hi <;> simp [out, hi]

theorem not_isMadeBy (hi : e.pool ≠ i) : e.isMadeBy i = false := by
  cases e <;> simp only [Transfer.pool] at hi <;> simp [Transfer.isMadeBy, hi]

theorem not_isReusedBy (hi : e.pool ≠ i) : e.isReusedBy i = false := by
  cases e <;> simp only [Transfer.pool] at hi <;> simp [Transfer.isReusedBy, hi]

theorem not_isDiscardedBy (hi : e.pool ≠ i) : e.isDiscardedBy i = false := by
  cases e <;> simp only [Transfer.pool] at hi <;> simp [Transfer.isDiscardedBy, hi]

/-- A tokenizer that nothing has happened to is out of no pool. -/
theorem owner_of_new (hn : ∀ e ∈ h, e.number ≠ n) : owner n h = none := by
  induction h with
  | nil => rfl
  | cons e h ih =>
    obtain ⟨he, hh⟩ := List.forall_mem_cons.1 hn
    rw [owner_cons_of_ne he]
    exact ih hh

theorem keeper_cons_of_ne (hn : e.number ≠ n) : keeper n (e :: h) = keeper n h := by
  cases e <;> simp only [Transfer.number] at hn <;> simp [keeper, hn]

theorem keeper_of_new (hn : ∀ e ∈ h, e.number ≠ n) : keeper n h = none := by
  induction h with
  | nil => rfl
  | cons e h ih =>
    obtain ⟨he, hh⟩ := List.forall_mem_cons.1 hn
    rw [keeper_cons_of_ne he]
    exact ih hh

/-- What a pool keeps is out of none. -/
theorem owner_of_keeper (hk : keeper n h = some i) : owner n h = none := by
  induction h with
  | nil => cases hk
  | cons e h ih =>
    by_cases hn : e.number = n
    · cases e with
      | made m j | reused m j c => simp [keeper, show m = n from hn] at hk
      | kept m j c => simp [owner, show m = n from hn]
      | discarded m j => simp [owner, show m = n from hn]
      | refused => exact ih hk
    · rw [keeper_cons_of_ne hn] at hk
      rw [owner_cons_of_ne hn]
      exact ih hk

namespace Orderly

/-- Each transfer in an orderly history may come after those before it. -/
theorem follows {later : History} (ho : Orderly most (later ++ e :: earlier)) :
    e.Follows most earlier := by
  induction later with
  | nil => exact ho.1
  | cons _ later ih => exact ih ho.2

/-- With more pools an orderly history is still one. -/
theorem mono {most' : Nat → Option Nat} (hmost : ∀ i m, most i = some m → most' i = some m)
    (ho : Orderly most h) : Orderly most' h := by
  induction h with
  | nil => trivial
  | cons e h ih =>
    obtain ⟨he, hh⟩ := ho
    refine ⟨?_, ih hh⟩
    cases e with
    | made | reused | refused => exact he
    | kept n i c =>
      obtain ⟨howner, m, hm, hlt⟩ := he
      exact ⟨howner, m, hmost i m hm, hlt⟩
    | discarded n i =>
      obtain ⟨howner, hm⟩ := he
      exact ⟨howner, hmost i _ hm⟩

/-- What is on the shelf of a pool is kept by it, so it is on no other shelf. -/
theorem keeper_of_mem_shelf (ho : Orderly most h) {i c : Nat} (hmem : (n, c) ∈ shelf i h) :
    keeper n h = some i := by
  induction h generalizing i c with
  | nil => cases hmem
  | cons e h ih =>
    obtain ⟨he, hh⟩ := ho
    by_cases hn : e.number = n
    · -- The transfer is of the tokenizer itself, which only a return puts on a shelf.
      cases e with
      | made m j =>
        obtain rfl : m = n := hn
        have hnone := keeper_of_new he.2
        rw [ih hh hmem] at hnone
        cases hnone
      | reused m j capacity =>
        obtain rfl : m = n := hn
        obtain ⟨rest, hrest⟩ := he
        have hj : keeper m h = some j := ih hh (hrest ▸ List.mem_cons_self)
        simp only [shelf] at hmem
        split at hmem
        · simp at hmem
        · next hne =>
          have hi := ih hh hmem
          rw [hj] at hi
          exact absurd (Option.some.inj hi) hne
      | kept m j capacity =>
        obtain rfl : m = n := hn
        simp only [shelf] at hmem
        split at hmem
        · next heq => simp [keeper, heq]
        · have hnone := owner_of_keeper (ih hh hmem)
          rw [he.1] at hnone
          cases hnone
      | discarded m j =>
        obtain rfl : m = n := hn
        have hnone := owner_of_keeper (ih hh hmem)
        rw [he.1] at hnone
        cases hnone
      | refused => exact ih hh hmem
    · rw [keeper_cons_of_ne hn]
      refine ih hh (c := c) ?_
      cases e with
      | kept m j capacity =>
        simp only [shelf] at hmem
        split at hmem
        · rcases List.mem_cons.1 hmem with heq | hmem
          · exact absurd (Prod.mk.inj heq).1.symm hn
          · exact hmem
        · exact hmem
      | reused m j capacity =>
        simp only [shelf] at hmem
        split at hmem
        · exact (List.mem_filter.1 hmem).1
        · exact hmem
      | made | discarded | refused => exact hmem

/-- What is idle is out of no pool. -/
theorem owner_of_mem_shelf (ho : Orderly most h) {c : Nat} (hmem : (n, c) ∈ shelf i h) :
    owner n h = none :=
  owner_of_keeper (ho.keeper_of_mem_shelf hmem)

/-- What is out of a pool is on no shelf. -/
theorem notMem_shelf {j : Nat} (ho : Orderly most h) (howner : owner n h = some j) :
    n ∉ (shelf i h).map Prod.fst := by
  intro hmem
  obtain ⟨⟨m, c⟩, hshelf, rfl⟩ := List.mem_map.1 hmem
  rw [ho.owner_of_mem_shelf hshelf] at howner
  cases howner

/-- No tokenizer is twice on a shelf. -/
theorem nodup_shelf (ho : Orderly most h) (i : Nat) : ((shelf i h).map Prod.fst).Nodup := by
  induction h with
  | nil => exact List.nodup_nil
  | cons e h ih =>
    obtain ⟨he, hh⟩ := ho
    cases e with
    | kept n j c =>
      simp only [shelf]
      split
      · exact List.nodup_cons.2 ⟨hh.notMem_shelf he.1, ih hh⟩
      · exact ih hh
    | reused n j c =>
      simp only [shelf]
      split
      · exact (ih hh).sublist (List.filter_sublist.map Prod.fst)
      · exact ih hh
    | made | discarded | refused => exact ih hh

/-- The tokenizer that was kept last goes, and the others stay on the shelf. -/
theorem shelf_reused {c : Nat} {rest : List (Nat × Nat)} (ho : Orderly most h)
    (hs : shelf i h = (n, c) :: rest) : shelf i (.reused n i c :: h) = rest := by
  have hnodup := ho.nodup_shelf i
  rw [hs, List.map_cons, List.nodup_cons] at hnodup
  simp only [shelf, if_true, hs]
  rw [List.filter_cons_of_neg (by simp)]
  refine List.filter_eq_self.2 fun entry hentry => ?_
  have hne : entry.1 ≠ n := fun heq => hnodup.1 (List.mem_map.2 ⟨entry, hentry, heq⟩)
  simpa using hne

/-- **A tokenizer is among those that a pool misses just when it was taken from that pool last and
has not been taken back since.** -/
theorem mem_out_iff (ho : Orderly most h) : n ∈ out i h ↔ owner n h = some i := by
  induction h with
  | nil => simp [out, owner]
  | cons e h ih =>
    obtain ⟨he, hh⟩ := ho
    have ih := ih hh
    by_cases hn : e.number = n
    · cases e with
      | made m j =>
        obtain rfl : m = n := hn
        rw [owner_of_new he.2] at ih
        by_cases hj : j = i <;> simp [out, owner, hj, ih]
      | reused m j c =>
        obtain rfl : m = n := hn
        obtain ⟨rest, hrest⟩ := he
        rw [hh.owner_of_mem_shelf (hrest ▸ List.mem_cons_self)] at ih
        by_cases hj : j = i <;> simp [out, owner, hj, ih]
      | kept m j c =>
        obtain rfl : m = n := hn
        rw [he.1] at ih
        by_cases hj : j = i <;> simp [out, owner, hj, ih]
      | discarded m j =>
        obtain rfl : m = n := hn
        rw [he.1] at ih
        by_cases hj : j = i <;> simp [out, owner, hj, ih]
      | refused => exact ih
    · rw [owner_cons_of_ne hn, ← ih]
      have hn' : n ≠ e.number := Ne.symm hn
      cases e with
      | refused => rfl
      | made m j | reused m j c | kept m j c | discarded m j =>
        simp only [Transfer.number] at hn'
        by_cases hj : j = i <;> simp [out, hj, hn']

/-- **Every tokenizer that a pool has made is idle, was discarded, or is missing.** -/
theorem balance (ho : Orderly most h) (i : Nat) :
    h.countP (·.isMadeBy i) =
      (shelf i h).length + h.countP (·.isDiscardedBy i) + (out i h).card := by
  induction h with
  | nil => rfl
  | cons e h ih =>
    obtain ⟨he, hh⟩ := ho
    have ih := ih hh
    rw [List.countP_cons, List.countP_cons]
    generalize h.countP (·.isMadeBy i) = made at ih ⊢
    generalize h.countP (·.isDiscardedBy i) = discarded at ih ⊢
    by_cases hi : e.pool = i
    · cases e with
      | made n j =>
        obtain rfl : j = i := hi
        have hnot : n ∉ out j h := by
          rw [hh.mem_out_iff, owner_of_new he.2]
          intro hout
          cases hout
        simp only [Transfer.isMadeBy, Transfer.isDiscardedBy, shelf, out, if_true, beq_self_eq_true,
          Bool.false_eq_true, if_false, Finset.card_insert_of_notMem hnot]
        omega
      | reused n j c =>
        obtain rfl : j = i := hi
        obtain ⟨rest, hrest⟩ := he
        have hnot : n ∉ out j h := by
          rw [hh.mem_out_iff, hh.owner_of_mem_shelf (hrest ▸ List.mem_cons_self)]
          intro hout
          cases hout
        rw [hrest, List.length_cons] at ih
        simp only [Transfer.isMadeBy, Transfer.isDiscardedBy, hh.shelf_reused hrest, out, if_true,
          Bool.false_eq_true, if_false, Finset.card_insert_of_notMem hnot]
        omega
      | kept n j c =>
        obtain rfl : j = i := hi
        have hmem : n ∈ out j h := hh.mem_out_iff.2 he.1
        have hpos := Finset.card_pos.2 ⟨n, hmem⟩
        simp only [Transfer.isMadeBy, Transfer.isDiscardedBy, shelf, out, if_true, List.length_cons,
          Bool.false_eq_true, if_false, Finset.card_erase_of_mem hmem]
        omega
      | discarded n j =>
        obtain rfl : j = i := hi
        have hmem : n ∈ out j h := hh.mem_out_iff.2 he.1
        have hpos := Finset.card_pos.2 ⟨n, hmem⟩
        simp only [Transfer.isMadeBy, Transfer.isDiscardedBy, shelf, out, if_true, beq_self_eq_true,
          Bool.false_eq_true, if_false, Finset.card_erase_of_mem hmem]
        omega
      | refused n j => exact ih
    · rw [shelf_cons_of_ne hi, out_cons_of_ne hi, not_isMadeBy hi, not_isDiscardedBy hi]
      exact ih

/-- **A shelf never has more than its places.** -/
theorem length_shelf_le {m : Nat} (ho : Orderly most h) (hm : most i = some m) :
    (shelf i h).length ≤ m := by
  induction h with
  | nil => exact Nat.zero_le m
  | cons e h ih =>
    obtain ⟨he, hh⟩ := ho
    have ih := ih hh
    cases e with
    | kept n j c =>
      simp only [shelf]
      split
      · next hj =>
        subst hj
        obtain ⟨-, m', hm', hlt⟩ := he
        obtain rfl : m = m' := Option.some.inj (hm.symm.trans hm')
        exact hlt
      · exact ih
    | reused n j c =>
      simp only [shelf]
      split
      · exact Nat.le_trans (List.length_filter_le _ _) ih
      · exact ih
    | made | discarded | refused => exact ih

end Orderly

end History

end FlatJson
