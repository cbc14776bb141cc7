import FlatJson.Proofs.Ledger

/-!
# The accounts of a pool

What a pool counts is compared with what happened to its tokenizers.

* `Session.calls` — how often a pool was asked for a tokenizer.
* `Session.pool_taken` — made and reused together are as many as these calls.
* `Pool.Accounts` — what the counts of a pool say about a history.

`Ledger.pool_accounts` says that the accounts are right after any actions.
-/

namespace FlatJson

open History

/-- The pool that an action takes a tokenizer from. -/
def Action.takesFrom? : Action → Option Nat
  | .checkout _ i | .lease _ i => some i
  | _ => none

/-- How many tokenizers a pool has given out. -/
def Pool.taken (p : Pool) : Nat := p.created + p.reused

theorem Pool.taken_checkout (p : Pool) : p.checkout.2.1.taken = p.taken + 1 := by
  unfold checkout taken
  cases p.idle with
  | nil => exact Nat.add_right_comm _ _ _
  | cons => rfl

theorem Pool.taken_keep (p : Pool) (t : Tokenizer) : (p.keep t).1.taken = p.taken := by
  unfold keep
  dsimp only
  split <;> rfl

namespace Session

variable {s : Session} {i : Nat}

/-- How often a pool is asked for a tokenizer. -/
def calls (i : Nat) (s : Session) : List Action → Nat
  | [] => 0
  | a :: actions =>
    (if a.takesFrom? = some i ∧ i < s.pools.length then 1 else 0) + calls i (s.step a).1 actions

/-! ## Only taking out counts -/

theorem taken_giveBack (s : Session) (i j : Nat) (t : Tokenizer) :
    ((s.giveBack j t).1.pool i).taken = (s.pool i).taken := by
  cases hp : s.pools[j]? with
  | none => simp only [giveBack, hp]
  | some p =>
    by_cases ht : t.stamp = some p.id
    · rw [giveBack_of_taken hp ht]
      by_cases hj : j = i
      · subst hj
        rw [pool_setPool hp, pool_of_getElem? hp, p.taken_keep]
      · rw [pool_setPool_of_ne hp _ hj]
    · rw [giveBack_of_refused hp ht]

theorem taken_drop (s : Session) (i : Nat) (name : String) :
    ((s.drop name).1.pool i).taken = (s.pool i).taken := by
  unfold drop
  split
  · exact taken_giveBack (s.clear name) i _ _
  · rfl

theorem taken_fill (s : Session) (i : Nat) (name : String) (slot : Slot) (events : List Event) :
    ((s.fill name slot events).1.pool i).taken = (s.pool i).taken :=
  taken_drop s i name

theorem taken_takeOut (s : Session) (i j : Nat) (name : String) (lender : Option Nat) :
    ((s.takeOut name j lender).1.pool i).taken =
      (if j = i ∧ i < s.pools.length then 1 else 0) + (s.pool i).taken := by
  unfold takeOut
  cases hp : s.pools[j]? with
  | none =>
    have hlen := List.getElem?_eq_none_iff.1 hp
    rw [if_neg (by omega), Nat.zero_add]
  | some p =>
    obtain ⟨hlen, -⟩ := List.getElem?_eq_some_iff.1 hp
    rw [taken_fill]
    by_cases hj : j = i
    · subst hj
      rw [if_pos ⟨rfl, hlen⟩, pool_setPool hp, pool_of_getElem? hp, p.taken_checkout, Nat.add_comm]
    · rw [if_neg (fun h => hj h.1), Nat.zero_add, pool_setPool_of_ne hp _ hj]

theorem taken_step (s : Session) (i : Nat) (a : Action) :
    ((s.step a).1.pool i).taken =
      (if a.takesFrom? = some i ∧ i < s.pools.length then 1 else 0) + (s.pool i).taken := by
  cases a with
  | checkout name j | lease name j =>
    simp only [step, Action.takesFrom?, Option.some.injEq]
    exact taken_takeOut s i j name _
  | makePool settings =>
    obtain ⟨settings', hpool⟩ := s.pool_makePool settings i
    rw [hpool]
    exact (Nat.zero_add _).symm
  | make name settings => exact (taken_fill s i name _ _).trans (Nat.zero_add _).symm
  | drop name => exact (taken_drop s i name).trans (Nat.zero_add _).symm
  | checkin name j =>
    refine Eq.trans ?_ (Nat.zero_add _).symm
    simp only [step]
    split
    · rfl
    · exact taken_giveBack (s.clear name) i j _
  | detach name | parse name text | reset name | swap first second =>
    refine Eq.trans ?_ (Nat.zero_add _).symm
    simp only [step]
    split <;> rfl

/-- **A pool gives out a tokenizer for each call**, and for nothing else. -/
theorem pool_taken (s : Session) (i : Nat) (actions : List Action) :
    ((s.run actions).pool i).taken = calls i s actions + (s.pool i).taken := by
  induction actions generalizing s with
  | nil => exact (Nat.zero_add _).symm
  | cons a actions ih =>
    show (((s.step a).1.run actions).pool i).taken = _
    rw [ih, taken_step, calls]
    omega

end Session

/-! ## The accounts -/

/-- What the pool of a number counts, against a history. -/
structure Pool.Accounts (pool : Pool) (i calls : Nat) (history : History) : Prop where
  calls : pool.created + pool.reused = calls
  created : pool.created = history.countP (·.isMadeBy i)
  reused : pool.reused = history.countP (·.isReusedBy i)
  discarded : pool.discarded = history.countP (·.isDiscardedBy i)
  places : pool.idle.length ≤ pool.settings.maxIdle
  /-- The last term is what was taken and has not been taken back since. -/
  balance : pool.created = pool.idle.length + pool.discarded + (out i history).card
  /-- The idle tokenizers have the room that they came back with. -/
  rooms : pool.idle.map Tokenizer.capacity = (shelf i history).map Prod.snd
  /-- A tokenizer was made only when none was idle. -/
  made : ∀ later earlier n, history = later ++ .made n i :: earlier →
    shelf i earlier = [] ∧ ∀ e ∈ earlier, e.number ≠ n
  /-- The tokenizer given out again was the one kept last, with the room that it came back with. -/
  reuse : ∀ later earlier n c, history = later ++ .reused n i c :: earlier →
    (shelf i earlier).head? = some (n, c)
  /-- A tokenizer was discarded only when there was no place for it. -/
  full : ∀ later earlier n, history = later ++ .discarded n i :: earlier →
    (shelf i earlier).length = pool.settings.maxIdle

namespace Ledger

variable {l : Ledger} {i : Nat} {pool : Pool}

/-- Each transfer that was written down might come after those before it. -/
theorem Sound.follows (h : l.Sound) {later earlier : History} {e : Transfer}
    (hsplit : l.history = later ++ e :: earlier) : e.Follows l.session.places earlier := by
  have horderly := h.orderly
  rw [hsplit] at horderly
  exact horderly.follows

theorem Sound.accounts (h : l.Sound) (hp : l.session.pools[i]? = some pool) :
    pool.Accounts i pool.taken l.history := by
  have hagrees := h.pool_agrees hp
  have hplaces := Session.places_of_getElem? hp
  refine ⟨rfl, hagrees.created, hagrees.reused, hagrees.discarded, ?_, ?_, hagrees.rooms, ?_, ?_, ?_⟩
  · rw [← hagrees.length_shelf]
    exact h.orderly.length_shelf_le hplaces
  · rw [hagrees.created, hagrees.discarded, ← hagrees.length_shelf]
    exact h.orderly.balance i
  · intro later earlier n hsplit
    exact h.follows hsplit
  · intro later earlier n c hsplit
    obtain ⟨rest, hrest⟩ := h.follows hsplit
    rw [hrest, List.head?_cons]
  · intro later earlier n hsplit
    obtain ⟨-, hfull⟩ := h.follows hsplit
    exact Option.some.inj (hfull.symm.trans hplaces)

/-- What a pool gives out: the tokenizer kept last with its room, or a new one. -/
theorem Sound.given (h : l.Sound) (hp : l.session.pools[i]? = some pool) :
    (shelf i l.history = [] ∧ (l.withdraw i pool).2 = l.count ∧ pool.checkout.1.capacity = 0) ∨
      (shelf i l.history).head? = some ((l.withdraw i pool).2, pool.checkout.1.capacity) := by
  have hagrees := h.pool_agrees hp
  cases hidle : l.idle i with
  | nil =>
    rw [hidle] at hagrees
    obtain ⟨hshelf, hempty⟩ := hagrees.empty
    refine .inl ⟨hshelf, (h.records_made hp hidle).1, ?_⟩
    unfold Pool.checkout
    rw [hempty]
  | cons n rest =>
    obtain ⟨hnumber, hrecords, -⟩ := h.records_reused hp hidle
    obtain ⟨later, hshelf⟩ := hrecords.follows
    refine .inr ?_
    rw [hshelf, hnumber, List.head?_cons]

/-- What a pool gives out is in the slot afterwards. -/
theorem Sound.given_takeOut (h : l.Sound) (hp : l.session.pools[i]? = some pool) (name : String)
    (lender : Option Nat) :
    ∃ slot, (l.session.takeOut name i lender).1.slot? name = some slot ∧
      ((shelf i l.history = [] ∧ (l.takeOut name i lender).numbers name = l.count ∧
          slot.tokenizer.capacity = 0) ∨
        (shelf i l.history).head? =
          some ((l.takeOut name i lender).numbers name, slot.tokenizer.capacity)) := by
  have hnumber : (l.takeOut name i lender).numbers name = (l.withdraw i pool).2 := by
    simp only [Ledger.takeOut, hp, Ledger.fill, Ledger.put, Function.update_self]
  rw [hnumber]
  exact ⟨_, Session.takeOut_slot? hp lender, h.given hp⟩

/-- **The accounts of every pool are right after any actions.**  It gave out a tokenizer for each
call, made one only when none was idle, gave out the one kept last else, and discarded one only when
it had no place; and all that it made are idle, discarded, or have not come back to it.  The next
check-out or lease puts the tokenizer that was kept last into the slot, with the room that it came
back with, or a new one if none is idle. -/
theorem pool_accounts (actions : List Action)
    (hp : (Session.run {} actions).pools[i]? = some pool) :
    pool.Accounts i (Session.calls i {} actions) (Ledger.run {} actions).history ∧
    ∀ name, ∀ a ∈ [Action.checkout name i, .lease name i],
      ∃ slot, (Session.run {} (actions ++ [a])).slot? name = some slot ∧
        ((shelf i (Ledger.run {} actions).history = [] ∧
            (Ledger.run {} (actions ++ [a])).numbers name = (Ledger.run {} actions).count ∧
            slot.tokenizer.capacity = 0) ∨
          (shelf i (Ledger.run {} actions).history).head? =
            some ((Ledger.run {} (actions ++ [a])).numbers name, slot.tokenizer.capacity)) := by
  have hsound := sound_run actions
  have hsession : (Ledger.run {} actions).session = Session.run {} actions :=
    session_run {} actions
  have hp' : (Ledger.run {} actions).session.pools[i]? = some pool := by rw [hsession, hp]
  constructor
  · have htaken := Session.pool_taken {} i actions
    rw [Session.pool_of_getElem? hp] at htaken
    have hcalls : pool.taken = Session.calls i {} actions := htaken
    rw [← hcalls]
    exact hsound.accounts hp'
  · intro name a ha
    have hgiven := hsound.given_takeOut hp' name
    rw [hsession] at hgiven
    simp only [Ledger.run, Session.run, List.foldl_append, List.foldl_cons, List.foldl_nil]
    simp only [List.mem_cons, List.not_mem_nil, or_false] at ha
    rcases ha with rfl | rfl
    · exact hgiven none
    · exact hgiven (some i)

/-- A pool with one place gets two tokenizers back, and refuses a third.  The next lease is of the
first one, with the room that a text of one byte needed. -/
theorem pool_accounts_one_place :
    ∃ pool, (Session.run {} [.makePool { maxIdle := 1 }, .checkout "a" 0, .checkout "b" 0,
        .parse "a" [0x31], .checkin "a" 0, .checkin "b" 0, .make "c" {}, .checkin "c" 0]).pools[0]? =
          some pool ∧
      pool.discarded = 1 ∧
      pool.Accounts 0 2 [.refused 2 0, .discarded 1 0, .kept 0 0 64, .made 1 0, .made 0 0] ∧
      ∃ slot, (Session.run {} [.makePool { maxIdle := 1 }, .checkout "a" 0, .checkout "b" 0,
          .parse "a" [0x31], .checkin "a" 0, .checkin "b" 0, .make "c" {}, .checkin "c" 0,
          .lease "d" 0]).slot? "d" = some slot ∧
        slot.tokenizer.capacity = 64 := by
  have hpool : (Session.run {} [.makePool { maxIdle := 1 }, .checkout "a" 0, .checkout "b" 0,
      .parse "a" [0x31], .checkin "a" 0, .checkin "b" 0, .make "c" {}, .checkin "c" 0]).pools[0]? =
        some ⟨1, { maxIdle := 1 }, [{ capacity := 64 }], 2, 0, 1⟩ := by decide
  obtain ⟨haccounts, hnext⟩ := pool_accounts _ hpool
  obtain ⟨slot, hslot, ⟨hnil, -⟩ | hhead⟩ := hnext "d" (.lease "d" 0) (by simp)
  · exact absurd hnil (by decide)
  · have hentry := Option.some.inj hhead
    exact ⟨_, hpool, rfl, haccounts, slot, hslot, (congrArg Prod.snd hentry).symm⟩

end Ledger

end FlatJson
