import FlatJson.Proofs.Reuse
import FlatJson.Proofs.Transfers

/-!
# The books of a pool

A pool is compared with what happened to its tokenizers.

* `Pool.Agrees` — the pool is as a history says.  There is one lemma for each transfer: it is written
  down, the pool does its part, and both agree again.
* `Session.pool`, `Session.places` — the pools of a session by their numbers, also before they are
  made.
-/

namespace FlatJson

open History

/-! ## What a pool does -/

/-- Why a pool refuses a tokenizer with another stamp, or with none. -/
def Misuse.ofStamp (pool : Nat) : Option Nat → Misuse
  | none => .neverOut pool
  | some owner => .foreign owner pool

/-- Only a tokenizer with the stamp of the pool is taken back. -/
theorem Pool.checkin_eq (p : Pool) (t : Tokenizer) :
    p.checkin t = if t.stamp = some p.id then .ok (p.keep t) else .error (.ofStamp p.id t.stamp) := by
  unfold checkin
  cases t.stamp with
  | none => rfl
  | some owner =>
    by_cases howner : owner = p.id
    · simp [howner]
    · simp [howner, Misuse.ofStamp]

/-- A pool is as a history says: its idle tokenizers, with the room that they came back with, and its
counts.  The numbers are those of the idle tokenizers. -/
structure Pool.Agrees (p : Pool) (i : Nat) (numbers : List Nat) (h : History) : Prop where
  id : p.id = i + 1
  numbers : numbers = (shelf i h).map Prod.fst
  rooms : p.idle.map Tokenizer.capacity = (shelf i h).map Prod.snd
  unstamped : ∀ t ∈ p.idle, t.stamp = none
  created : p.created = h.countP (·.isMadeBy i)
  reused : p.reused = h.countP (·.isReusedBy i)
  discarded : p.discarded = h.countP (·.isDiscardedBy i)

namespace Pool.Agrees

variable {p : Pool} {i : Nat} {numbers : List Nat} {h : History} {e : Transfer}

theorem length_shelf (ha : p.Agrees i numbers h) : (shelf i h).length = p.idle.length := by
  have hlength := congrArg List.length ha.rooms
  rw [List.length_map, List.length_map] at hlength
  exact hlength.symm

theorem empty (ha : p.Agrees i [] h) : shelf i h = [] ∧ p.idle = [] := by
  have hshelf : shelf i h = [] := List.map_eq_nil_iff.1 ha.numbers.symm
  refine ⟨hshelf, ?_⟩
  rw [← List.length_eq_zero_iff, ← ha.length_shelf, hshelf, List.length_nil]

theorem configure (ha : p.Agrees i numbers h) (settings : PoolSettings) :
    Pool.Agrees { p with settings := settings } i numbers h :=
  ⟨ha.id, ha.numbers, ha.rooms, ha.unstamped, ha.created, ha.reused, ha.discarded⟩

/-- What happens at one pool does not concern the others. -/
theorem of_other (ha : p.Agrees i numbers h) (he : e.pool ≠ i) : p.Agrees i numbers (e :: h) := by
  refine ⟨ha.id, ?_, ?_, ha.unstamped, ?_, ?_, ?_⟩
  · rw [shelf_cons_of_ne he, ha.numbers]
  · rw [shelf_cons_of_ne he, ha.rooms]
  · rw [List.countP_cons, not_isMadeBy he, ha.created]
    rfl
  · rw [List.countP_cons, not_isReusedBy he, ha.reused]
    rfl
  · rw [List.countP_cons, not_isDiscardedBy he, ha.discarded]
    rfl

theorem refused (ha : p.Agrees i numbers h) (n : Nat) :
    p.Agrees i numbers (.refused n i :: h) :=
  ⟨ha.id, ha.numbers, ha.rooms, ha.unstamped, ha.created, ha.reused, ha.discarded⟩

theorem kept (ha : p.Agrees i numbers h) (n : Nat) (t : Tokenizer) :
    Pool.Agrees { p with idle := { t.reset with stamp := none } :: p.idle } i (n :: numbers)
      (.kept n i t.capacity :: h) := by
  have hshelf : shelf i (.kept n i t.capacity :: h) = (n, t.capacity) :: shelf i h := if_pos rfl
  refine ⟨ha.id, ?_, ?_, ?_, ha.created, ha.reused, ha.discarded⟩
  · rw [hshelf, List.map_cons, ← ha.numbers]
  · rw [hshelf, List.map_cons, List.map_cons, ha.rooms]
    rfl
  · exact List.forall_mem_cons.2 ⟨rfl, ha.unstamped⟩

theorem discard (ha : p.Agrees i numbers h) (n : Nat) :
    Pool.Agrees { p with discarded := p.discarded + 1 } i numbers (.discarded n i :: h) := by
  refine ⟨ha.id, ha.numbers, ha.rooms, ha.unstamped, ha.created, ha.reused, ?_⟩
  rw [List.countP_cons_of_pos (by simp [Transfer.isDiscardedBy]), ha.discarded]

theorem made (ha : p.Agrees i numbers h) (n : Nat) :
    Pool.Agrees { p with created := p.created + 1 } i numbers (.made n i :: h) := by
  refine ⟨ha.id, ha.numbers, ha.rooms, ha.unstamped, ?_, ha.reused, ha.discarded⟩
  rw [List.countP_cons_of_pos (by simp [Transfer.isMadeBy]), ha.created]

/-- The shelf, the numbers and the tokenizers of the pool have their first elements together. -/
theorem reuse {most : Nat → Option Nat} {n : Nat} (ho : h.Orderly most)
    (ha : p.Agrees i (n :: numbers) h) :
    ∃ t idle rest, p.idle = t :: idle ∧ shelf i h = (n, t.capacity) :: rest ∧
      Pool.Agrees { p with idle := idle, reused := p.reused + 1 } i numbers
        (.reused n i t.capacity :: h) := by
  obtain ⟨⟨n', c⟩, rest, hshelf, rfl, rfl⟩ := List.map_eq_cons_iff.1 ha.numbers.symm
  have hrooms := ha.rooms
  rw [hshelf, List.map_cons] at hrooms
  obtain ⟨t, idle, hidle, rfl, hrest⟩ := List.map_eq_cons_iff.1 hrooms
  have hgone := ho.shelf_reused hshelf
  have hunstamped := ha.unstamped
  rw [hidle] at hunstamped
  refine ⟨t, idle, rest, hidle, hshelf, ha.id, ?_, ?_, ?_, ha.created, ?_, ha.discarded⟩
  · rw [hgone]
  · rw [hgone, hrest]
  · exact (List.forall_mem_cons.1 hunstamped).2
  · rw [List.countP_cons_of_pos (by simp [Transfer.isReusedBy]), ha.reused]

end Pool.Agrees

/-! ## Slots and pools of a session -/

namespace Session

variable {s : Session} {name other : String} {slot : Slot} {i j : Nat} {p q : Pool}

theorem lookup_insertSlot_of_ne (h : other ≠ name) (slot : Slot) (slots : List (String × Slot)) :
    (insertSlot name slot slots).lookup other = slots.lookup other := by
  have hbeq : (other == name) = false := by simpa using h
  induction slots with
  | nil => simp [insertSlot, List.lookup_cons, hbeq]
  | cons old rest ih =>
    obtain ⟨n, old⟩ := old
    unfold insertSlot
    split
    · next heq =>
      subst heq
      simp [List.lookup_cons, hbeq]
    · split
      · simp [List.lookup_cons, hbeq]
      · simp [List.lookup_cons, ih]

theorem slot?_put_of_ne (h : other ≠ name) (slot : Slot) :
    (s.put name slot).slot? other = s.slot? other :=
  lookup_insertSlot_of_ne h slot s.slots

/-- A slot that is emptied is empty, and the others are as before. -/
theorem slot?_clear (s : Session) (name other : String) :
    (s.clear name).slot? other = if other = name then none else s.slot? other := by
  unfold slot? clear
  induction s.slots with
  | nil => simp
  | cons entry rest ih =>
    obtain ⟨n, old⟩ := entry
    by_cases hn : n = name
    · subst hn
      rw [List.filter_cons_of_neg (by simp), ih, List.lookup_cons]
      by_cases ho : other = n
      · simp [ho]
      · have hbeq : (other == n) = false := by simpa using ho
        simp [ho, hbeq]
    · rw [List.filter_cons_of_pos (by simpa using hn), List.lookup_cons, List.lookup_cons]
      by_cases ho : other = n
      · subst ho
        simp [hn]
      · have hbeq : (other == n) = false := by simpa using ho
        rw [hbeq]
        exact ih

/-- The pool of a number; one that has not been made is empty. -/
def pool (s : Session) (i : Nat) : Pool := (s.pools[i]?).getD { id := i + 1 }

theorem pool_of_getElem? (h : s.pools[i]? = some p) : s.pool i = p := by
  rw [pool, h]
  rfl

theorem getElem?_setPool (h : s.pools[i]? = some p) (q : Pool) (j : Nat) :
    (s.setPool i q).pools[j]? = if i = j then some q else s.pools[j]? := by
  obtain ⟨hlt, -⟩ := List.getElem?_eq_some_iff.1 h
  simp [setPool, List.getElem?_set, hlt]

theorem pool_setPool (h : s.pools[i]? = some p) (q : Pool) : (s.setPool i q).pool i = q := by
  rw [pool, getElem?_setPool h, if_pos rfl]
  rfl

theorem pool_setPool_of_ne (h : s.pools[i]? = some p) (q : Pool) (hne : i ≠ j) :
    (s.setPool i q).pool j = s.pool j := by
  rw [pool, getElem?_setPool h, if_neg hne]
  rfl

/-- What a pool refuses is lost, and nothing else changes. -/
theorem giveBack_of_refused {t : Tokenizer} (h : s.pools[i]? = some p)
    (ht : t.stamp ≠ some p.id) :
    s.giveBack i t = (s, { misuse := some (.ofStamp p.id t.stamp) }) := by
  simp only [giveBack, h, p.checkin_eq, if_neg ht]

theorem giveBack_of_taken {t : Tokenizer} (h : s.pools[i]? = some p) (ht : t.stamp = some p.id) :
    s.giveBack i t = (s.setPool i (p.keep t).1, { events := (p.keep t).2 }) := by
  simp only [giveBack, h, p.checkin_eq, if_pos ht]

/-- How many idle tokenizers a pool has at most. -/
def places (s : Session) (i : Nat) : Option Nat := s.pools[i]?.map (·.settings.maxIdle)

theorem places_of_getElem? (h : s.pools[i]? = some p) :
    s.places i = some p.settings.maxIdle := by
  rw [places, h, Option.map_some]

theorem places_setPool (h : s.pools[i]? = some p) (hq : q.settings = p.settings) :
    (s.setPool i q).places = s.places := by
  funext j
  rw [places, places, getElem?_setPool h]
  split
  · next hij =>
    subst hij
    rw [h, Option.map_some, Option.map_some, hq]
  · rfl

/-- A pool that is made starts empty, as if it had been there all the time. -/
theorem pool_makePool (s : Session) (settings : PoolSettings) (j : Nat) :
    ∃ settings', (s.step (.makePool settings)).1.pool j = { s.pool j with settings := settings' } := by
  simp only [step, pool, List.getElem?_append]
  split
  · exact ⟨_, rfl⟩
  · next hlt =>
    rw [List.getElem?_eq_none (Nat.le_of_not_lt hlt)]
    cases hj : j - s.pools.length with
    | zero =>
      obtain rfl : j = s.pools.length := by omega
      exact ⟨settings, rfl⟩
    | succ k => exact ⟨_, rfl⟩

theorem places_makePool (s : Session) (settings : PoolSettings) {m : Nat}
    (h : s.places i = some m) : (s.step (.makePool settings)).1.places i = some m := by
  unfold places at h ⊢
  obtain ⟨p, hp, hm⟩ := Option.map_eq_some_iff.1 h
  obtain ⟨hlt, -⟩ := List.getElem?_eq_some_iff.1 hp
  simp only [step]
  rw [List.getElem?_append_left hlt, hp, Option.map_some, hm]

end Session

end FlatJson
