import FlatJson.Proofs.Bookkeeping
import Mathlib.Logic.Equiv.Basic

/-!
# Which tokenizer is where

A session says what each tokenizer is like, but not which one it is.  A ledger is kept beside it: it
numbers the tokenizers as they are made, moves the numbers along with them, and writes down what
they go through.

* `Ledger` — a session, with the numbers of the tokenizers in its slots and pools, and a history.
* `Ledger.step`, `Ledger.run` — the actions of a session with the ledger kept.
* `Ledger.session_run` — the session is the same as without a ledger.
* `Ledger.Sound` — the invariant: no number is in two places, the history is orderly, counts and
  idle tokenizers of a pool are those of the history, and a tokenizer bears the stamp of the pool
  that it is out of.

`Ledger.Sound.step` is about one action and `Ledger.sound_run` about any number of them.
-/

namespace FlatJson

open History

/-! ## The ledger -/

/-- A session, and which tokenizer is where in it. -/
structure Ledger where
  session : Session := {}
  /-- The numbers of the tokenizers in the slots; that of an empty slot has no meaning. -/
  numbers : String → Nat := fun _ => 0
  /-- The numbers of the idle tokenizers of each pool, in their order. -/
  idle : Nat → List Nat := fun _ => []
  /-- How many tokenizers have been made. -/
  count : Nat := 0
  history : History := []

namespace Ledger

def clear (l : Ledger) (name : String) : Ledger :=
  { l with session := l.session.clear name }

/-- Puts the tokenizer of a number into a slot. -/
def put (l : Ledger) (name : String) (slot : Slot) (number : Nat) : Ledger :=
  { l with
    session := l.session.put name slot
    numbers := Function.update l.numbers name number }

/-- Gives a tokenizer that is in no slot any more to a pool, and writes down what the pool did. -/
def giveBack (l : Ledger) (i : Nat) (t : Tokenizer) (number : Nat) : Ledger :=
  let session := (l.session.giveBack i t).1
  match l.session.pools[i]? with
  | none => { l with session := session }
  | some pool =>
    match pool.checkin t with
    | .error _ => { l with session := session, history := .refused number i :: l.history }
    | .ok (after, _) =>
      if pool.idle.length < after.idle.length then
        { l with
          session := session
          idle := Function.update l.idle i (number :: l.idle i)
          history := .kept number i t.capacity :: l.history }
      else { l with session := session, history := .discarded number i :: l.history }

def drop (l : Ledger) (name : String) : Ledger :=
  match l.session.slot? name with
  | some ⟨t, some lender⟩ => (l.clear name).giveBack lender t (l.numbers name)
  | _ => l.clear name

def fill (l : Ledger) (name : String) (slot : Slot) (number : Nat) : Ledger :=
  (l.drop name).put name slot number

/-- Takes a tokenizer out of a pool, and finds out which one it is. -/
def withdraw (l : Ledger) (i : Nat) (pool : Pool) : Ledger × Nat :=
  let session := l.session.setPool i pool.checkout.2.1
  match l.idle i with
  | n :: idle =>
    ({ l with
        session := session
        idle := Function.update l.idle i idle
        history := .reused n i pool.checkout.1.capacity :: l.history }, n)
  | [] =>
    ({ l with session := session, count := l.count + 1, history := .made l.count i :: l.history },
      l.count)

def takeOut (l : Ledger) (name : String) (i : Nat) (lender : Option Nat) : Ledger :=
  match l.session.pools[i]? with
  | none => l
  | some pool =>
    let (l, number) := l.withdraw i pool
    l.fill name ⟨pool.checkout.1, lender⟩ number

/-- Does one thing, and keeps the ledger. -/
def step (l : Ledger) : Action → Ledger
  | .make name settings =>
    { l with count := l.count + 1 }.fill name ⟨{ settings := settings }, none⟩ l.count
  | .checkout name i => l.takeOut name i none
  | .lease name i => l.takeOut name i (some i)
  | .checkin name i =>
    match l.session.slot? name with
    | none => l
    | some slot => (l.clear name).giveBack i slot.tokenizer (l.numbers name)
  | .drop name => l.drop name
  | .swap first second =>
    match l.session.slot? first, l.session.slot? second with
    | some a, some b =>
      (l.put first { a with tokenizer := b.tokenizer } (l.numbers second)).put second
        { b with tokenizer := a.tokenizer } (l.numbers first)
    | _, _ => l
  -- The others leave each tokenizer where it is.
  | a => { l with session := (l.session.step a).1 }

def run (l : Ledger) (actions : List Action) : Ledger :=
  actions.foldl step l

/-! ## The session is as without a ledger -/

theorem giveBack_session (l : Ledger) (i : Nat) (t : Tokenizer) (number : Nat) :
    (l.giveBack i t number).session = (l.session.giveBack i t).1 := by
  unfold giveBack
  split
  · rfl
  · split
    · rfl
    · split <;> rfl

theorem drop_session (l : Ledger) (name : String) :
    (l.drop name).session = (l.session.drop name).1 := by
  unfold drop Session.drop
  cases l.session.slot? name with
  | none => rfl
  | some slot =>
    obtain ⟨t, lender⟩ := slot
    cases lender with
    | none => rfl
    | some lender => exact giveBack_session _ _ _ _

theorem fill_session (l : Ledger) (name : String) (slot : Slot) (number : Nat)
    (events : List Event) :
    (l.fill name slot number).session = (l.session.fill name slot events).1 := by
  unfold fill Session.fill put
  rw [drop_session]

theorem withdraw_session (l : Ledger) (i : Nat) (pool : Pool) :
    (l.withdraw i pool).1.session = l.session.setPool i pool.checkout.2.1 := by
  unfold withdraw
  cases l.idle i <;> rfl

theorem takeOut_session (l : Ledger) (name : String) (i : Nat) (lender : Option Nat) :
    (l.takeOut name i lender).session = (l.session.takeOut name i lender).1 := by
  unfold takeOut Session.takeOut
  cases l.session.pools[i]? with
  | none => rfl
  | some pool =>
    have hfill := fill_session (l.withdraw i pool).1 name ⟨pool.checkout.1, lender⟩
      (l.withdraw i pool).2 pool.checkout.2.2
    rw [withdraw_session] at hfill
    exact hfill

theorem session_step (l : Ledger) (a : Action) : (l.step a).session = (l.session.step a).1 := by
  cases a with
  | make name settings => exact fill_session _ _ _ _ []
  | checkout name i => exact takeOut_session _ _ _ _
  | lease name i => exact takeOut_session _ _ _ _
  | drop name => exact drop_session _ _
  | checkin name i =>
    simp only [step, Session.step]
    cases l.session.slot? name with
    | none => rfl
    | some slot => exact giveBack_session _ _ _ _
  | swap first second =>
    simp only [step, Session.step]
    cases l.session.slot? first <;> cases l.session.slot? second <;> rfl
  | makePool | detach | parse | reset => rfl

/-- **The ledger follows the session**, and changes nothing in it. -/
theorem session_run (l : Ledger) (actions : List Action) :
    (l.run actions).session = l.session.run actions := by
  induction actions generalizing l with
  | nil => rfl
  | cons a actions ih =>
    show ((l.step a).run actions).session = (l.session.step a).1.run actions
    rw [ih, session_step]

/-! ## The invariant -/

/-- Where a tokenizer can be. -/
inductive Place where
  | slot (name : String)
  | idle (pool : Nat)

/-- Whether the tokenizer of a number is in a place. -/
def Lies (l : Ledger) (n : Nat) : Place → Prop
  | .slot name => (∃ slot, l.session.slot? name = some slot) ∧ l.numbers name = n
  | .idle i => n ∈ l.idle i

/-- The stamp of a tokenizer that is out of a pool. -/
def stampOf (h : History) (n : Nat) : Option Nat := (owner n h).map (· + 1)

/-- No number is in two places, the pools are as the history says, and the stamps too. -/
structure Sound (l : Ledger) : Prop where
  agrees : ∀ i, (l.session.pool i).Agrees i (l.idle i) l.history
  orderly : l.history.Orderly l.session.places
  known : ∀ e ∈ l.history, e.number < l.count
  apart : ∀ {n p q}, l.Lies n p → l.Lies n q → p = q
  present : ∀ {n p}, l.Lies n p → n < l.count
  stamped : ∀ {name slot}, l.session.slot? name = some slot →
    slot.tokenizer.stamp = stampOf l.history (l.numbers name)

/-- A tokenizer is on its way from one place to another. -/
structure Carries (l : Ledger) (n : Nat) (t : Tokenizer) : Prop where
  absent : ∀ p, ¬ l.Lies n p
  made : n < l.count
  stamp : t.stamp = stampOf l.history n

variable {l l' : Ledger} {n m i : Nat} {t u : Tokenizer} {name : String} {slot : Slot} {pool : Pool}
  {e : Transfer}

theorem Sound.pool_agrees (h : l.Sound) (hp : l.session.pools[i]? = some pool) :
    pool.Agrees i (l.idle i) l.history := by
  rw [← Session.pool_of_getElem? hp]
  exact h.agrees i

/-- Tokenizers that stay in their slots, or change places with each other. -/
theorem Sound.of_moves (h : l.Sound) (g : String → String) (hg : Function.Injective g)
    (hpools : l'.session.pools = l.session.pools) (hidle : l'.idle = l.idle)
    (hcount : l'.count = l.count) (hhistory : l'.history = l.history)
    (hslots : ∀ {name slot'}, l'.session.slot? name = some slot' →
      ∃ slot, l.session.slot? (g name) = some slot ∧ l'.numbers name = l.numbers (g name) ∧
        slot'.tokenizer.stamp = slot.tokenizer.stamp) : l'.Sound := by
  have hplaces : l'.session.places = l.session.places := by
    funext i
    rw [Session.places, hpools]
    rfl
  have hslot : ∀ {n name}, l'.Lies n (.slot name) → l.Lies n (.slot (g name)) := by
    rintro n name ⟨⟨slot', hslot'⟩, hn⟩
    obtain ⟨slot, hslot, hnumber, -⟩ := hslots hslot'
    exact ⟨⟨slot, hslot⟩, hnumber.symm.trans hn⟩
  have hlies : ∀ {n i}, l'.Lies n (.idle i) → l.Lies n (.idle i) := by
    intro n i hn
    simp only [Lies, hidle] at hn ⊢
    exact hn
  refine ⟨?_, ?_, ?_, ?_, ?_, ?_⟩
  · intro i
    rw [Session.pool, hpools, hidle, hhistory]
    exact h.agrees i
  · rw [hhistory, hplaces]
    exact h.orderly
  · rw [hhistory, hcount]
    exact h.known
  · intro n p q hp hq
    cases p with
    | slot a =>
      cases q with
      | slot b =>
        have heq := h.apart (hslot hp) (hslot hq)
        rw [hg (Place.slot.inj heq)]
      | idle j => cases h.apart (hslot hp) (hlies hq)
    | idle i =>
      cases q with
      | slot b => cases h.apart (hlies hp) (hslot hq)
      | idle j => exact h.apart (hlies hp) (hlies hq)
  · intro n p hp
    rw [hcount]
    cases p with
    | slot a => exact h.present (hslot hp)
    | idle i => exact h.present (hlies hp)
  · intro name slot' hslot'
    obtain ⟨slot, hslot, hnumber, hstamp⟩ := hslots hslot'
    rw [hstamp, h.stamped hslot, hnumber, hhistory]

theorem slot?_of_clear {other : String} (hs : (l.session.clear name).slot? other = some slot) :
    other ≠ name ∧ l.session.slot? other = some slot := by
  rw [Session.slot?_clear] at hs
  split at hs
  · cases hs
  · exact ⟨‹_›, hs⟩

theorem Sound.clear (h : l.Sound) (name : String) : (l.clear name).Sound := by
  refine h.of_moves id Function.injective_id rfl rfl rfl rfl ?_
  intro other slot hs
  exact ⟨slot, (slot?_of_clear hs).2, rfl, rfl⟩

/-- What was in a slot is on its way when the slot is emptied. -/
theorem Sound.carries_of_slot (h : l.Sound) (hs : l.session.slot? name = some slot) :
    (l.clear name).Carries (l.numbers name) slot.tokenizer := by
  have hlies : l.Lies (l.numbers name) (.slot name) := ⟨⟨slot, hs⟩, rfl⟩
  refine ⟨?_, h.present hlies, h.stamped hs⟩
  rintro (other | i) hp
  · obtain ⟨⟨slot', hslot'⟩, hn⟩ := hp
    obtain ⟨hne, hother⟩ := slot?_of_clear hslot'
    have hp : l.Lies (l.numbers name) (.slot other) := ⟨⟨slot', hother⟩, hn⟩
    exact hne (Place.slot.inj (h.apart hp hlies))
  · have hp : l.Lies (l.numbers name) (.idle i) := hp
    cases h.apart hp hlies

/-- What is on its way stays so when a slot is emptied. -/
theorem Carries.clear (hc : l.Carries n t) (name : String) : (l.clear name).Carries n t := by
  refine ⟨?_, hc.made, hc.stamp⟩
  rintro (other | i) hp
  · obtain ⟨⟨slot, hslot⟩, hn⟩ := hp
    exact hc.absent (.slot other) ⟨⟨slot, (slot?_of_clear hslot).2⟩, hn⟩
  · exact hc.absent (.idle i) hp

/-- Where a tokenizer is after another one was put into a slot. -/
theorem lies_put {p : Place} (hp : (l.put name slot n).Lies m p) :
    (p = .slot name ∧ m = n) ∨ (p ≠ .slot name ∧ l.Lies m p) := by
  cases p with
  | idle i => exact .inr ⟨nofun, hp⟩
  | slot other =>
    obtain ⟨⟨slot', hslot'⟩, hm⟩ := hp
    by_cases ho : other = name
    · subst ho
      refine .inl ⟨rfl, ?_⟩
      rw [← hm]
      exact Function.update_self _ _ _
    · refine .inr ⟨fun heq => ho (Place.slot.inj heq), ⟨slot', ?_⟩, ?_⟩
      · exact (Session.slot?_put_of_ne ho slot).symm.trans hslot'
      · exact (Function.update_of_ne ho _ _).symm.trans hm

/-- What is on its way is put into a slot. -/
theorem Sound.put (h : l.Sound) (hc : l.Carries n slot.tokenizer) : (l.put name slot n).Sound := by
  refine ⟨h.agrees, h.orderly, h.known, ?_, ?_, ?_⟩
  · intro m p q hp hq
    rcases lies_put hp with ⟨hp, hm⟩ | ⟨-, hp⟩
    · rcases lies_put hq with ⟨hq, -⟩ | ⟨-, hq⟩
      · rw [hp, hq]
      · exact absurd (hm ▸ hq) (hc.absent q)
    · rcases lies_put hq with ⟨-, hm⟩ | ⟨-, hq⟩
      · exact absurd (hm ▸ hp) (hc.absent p)
      · exact h.apart hp hq
  · intro m p hp
    rcases lies_put hp with ⟨-, rfl⟩ | ⟨-, hp⟩
    · exact hc.made
    · exact h.present hp
  · intro other slot' hslot'
    by_cases ho : other = name
    · subst ho
      obtain rfl : slot = slot' := Option.some.inj ((Session.slot?_put _ _ _).symm.trans hslot')
      have hn : (l.put other slot n).numbers other = n := Function.update_self _ _ _
      rw [hn]
      exact hc.stamp
    · have hslot := (Session.slot?_put_of_ne ho slot).symm.trans hslot'
      have hn : (l.put name slot n).numbers other = l.numbers other := Function.update_of_ne ho _ _
      rw [hn]
      exact h.stamped hslot

/-! ## Transfers -/

/-- What a transfer does to a ledger, as far as it is the same for all transfers: the tokenizer goes
to no place but the shelf of the pool. -/
structure Records (l l' : Ledger) (e : Transfer) : Prop where
  history : l'.history = e :: l.history
  follows : e.Follows l.session.places l.history
  places : l'.session.places = l.session.places
  agrees : (l'.session.pool e.pool).Agrees e.pool (l'.idle e.pool) l'.history
  pools : ∀ j, e.pool ≠ j → l'.session.pool j = l.session.pool j
  idle : ∀ j, e.pool ≠ j → l'.idle j = l.idle j
  slots : ∀ name, l'.session.slot? name = l.session.slot? name
  numbers : l'.numbers = l.numbers
  count : l.count ≤ l'.count
  known : e.number < l'.count
  elsewhere : ∀ name, ¬ l.Lies e.number (.slot name)
  shelved : ∀ {m}, m ∈ l'.idle e.pool →
    m ∈ l.idle e.pool ∨ (m = e.number ∧ ∀ p, ¬ l.Lies e.number p)

namespace Records

theorem lies (hr : Records l l' e) {p : Place} (hp : l'.Lies m p) :
    l.Lies m p ∨ (m = e.number ∧ p = .idle e.pool ∧ ∀ p, ¬ l.Lies e.number p) := by
  cases p with
  | slot name =>
    obtain ⟨⟨slot, hslot⟩, hm⟩ := hp
    rw [hr.slots] at hslot
    rw [hr.numbers] at hm
    exact .inl ⟨⟨slot, hslot⟩, hm⟩
  | idle j =>
    by_cases hj : e.pool = j
    · subst hj
      rcases hr.shelved hp with hold | ⟨hm, habsent⟩
      · exact .inl hold
      · exact .inr ⟨hm, rfl, habsent⟩
    · simp only [Lies, hr.idle j hj] at hp
      exact .inl hp

/-- **A transfer that may come next keeps the invariant.** -/
theorem sound (hr : Records l l' e) (h : l.Sound) : l'.Sound := by
  refine ⟨?_, ?_, ?_, ?_, ?_, ?_⟩
  · intro j
    by_cases hj : e.pool = j
    · exact hj ▸ hr.agrees
    · rw [hr.pools j hj, hr.idle j hj, hr.history]
      exact (h.agrees j).of_other hj
  · rw [hr.history, hr.places]
    exact ⟨hr.follows, h.orderly⟩
  · rw [hr.history]
    exact List.forall_mem_cons.2
      ⟨hr.known, fun e' he' => Nat.lt_of_lt_of_le (h.known e' he') hr.count⟩
  · intro n p q hp hq
    rcases hr.lies hp with hp | ⟨rfl, rfl, habsent⟩
    · rcases hr.lies hq with hq | ⟨rfl, -, habsent⟩
      · exact h.apart hp hq
      · exact absurd hp (habsent p)
    · rcases hr.lies hq with hq | ⟨-, rfl, -⟩
      · exact absurd hq (habsent q)
      · rfl
  · intro n p hp
    rcases hr.lies hp with hp | ⟨rfl, -, -⟩
    · exact Nat.lt_of_lt_of_le (h.present hp) hr.count
    · exact hr.known
  · intro name slot hslot
    rw [hr.slots] at hslot
    have hne : e.number ≠ l.numbers name := by
      intro heq
      exact hr.elsewhere name ⟨⟨slot, hslot⟩, heq.symm⟩
    rw [hr.numbers, hr.history, stampOf, owner_cons_of_ne hne]
    exact h.stamped hslot

/-- What is on its way stays so while another tokenizer is transferred. -/
theorem carries (hr : Records l l' e) (hc : l.Carries m u) (hne : e.number ≠ m) :
    l'.Carries m u := by
  refine ⟨?_, Nat.lt_of_lt_of_le hc.made hr.count, ?_⟩
  · intro p hp
    rcases hr.lies hp with hp | ⟨heq, -, -⟩
    · exact hc.absent p hp
    · exact hne heq.symm
  · rw [hr.history, stampOf, owner_cons_of_ne hne]
    exact hc.stamp

end Records

/-- The stamp of a pool is on what is out of it. -/
theorem stampOf_eq_iff {h : History} : stampOf h n = some (i + 1) ↔ owner n h = some i := by
  unfold stampOf
  rw [Option.map_eq_some_iff]
  constructor
  · rintro ⟨j, hj, heq⟩
    rwa [← Nat.succ.inj heq]
  · intro howner
    exact ⟨i, howner, rfl⟩

/-- What is on its way bears the stamp of a pool just when it is out of that pool. -/
theorem Sound.stamp_iff (h : l.Sound) (hp : l.session.pools[i]? = some pool)
    (ht : t.stamp = stampOf l.history n) :
    t.stamp = some pool.id ↔ owner n l.history = some i := by
  rw [(h.pool_agrees hp).id, ht, stampOf_eq_iff]

/-- A pool does its part of a transfer, and its part only. -/
theorem Records.of_setPool {after : Pool} {idle : List Nat} {count : Nat}
    (hp : l.session.pools[i]? = some pool) (hsettings : after.settings = pool.settings)
    (hi : e.pool = i) (hfollows : e.Follows l.session.places l.history)
    (hagrees : after.Agrees i idle (e :: l.history)) (hcount : l.count ≤ count)
    (hknown : e.number < count) (helsewhere : ∀ name, ¬ l.Lies e.number (.slot name))
    (hshelved : ∀ m ∈ idle, m ∈ l.idle i ∨ (m = e.number ∧ ∀ p, ¬ l.Lies e.number p)) :
    Records l { l with
      session := l.session.setPool i after
      idle := Function.update l.idle i idle
      count := count
      history := e :: l.history } e := by
  subst hi
  have hidle : Function.update l.idle e.pool idle e.pool = idle := Function.update_self _ _ _
  refine ⟨rfl, hfollows, Session.places_setPool hp hsettings, ?_, ?_, ?_, fun _ => rfl, rfl, hcount,
    hknown, helsewhere, ?_⟩
  · show ((l.session.setPool e.pool after).pool e.pool).Agrees e.pool
      (Function.update l.idle e.pool idle e.pool) (e :: l.history)
    rw [Session.pool_setPool hp, hidle]
    exact hagrees
  · exact fun j hj => Session.pool_setPool_of_ne hp _ hj
  · exact fun j hj => Function.update_of_ne (Ne.symm hj) _ _
  · intro m hm
    simp only [hidle] at hm
    exact hshelved m hm

theorem Sound.records_refused (h : l.Sound) (hc : l.Carries n t)
    (hp : l.session.pools[i]? = some pool) (ht : t.stamp ≠ some pool.id) :
    Records l (l.giveBack i t n) (.refused n i) := by
  have hl : l.giveBack i t n = { l with history := .refused n i :: l.history } := by
    simp only [giveBack, hp, pool.checkin_eq, if_neg ht, Session.giveBack_of_refused hp ht]
  rw [hl]
  refine ⟨rfl, ?_, rfl, (h.agrees i).refused n, fun _ _ => rfl, fun _ _ => rfl, fun _ => rfl, rfl,
    Nat.le_refl _, hc.made, fun name => hc.absent (.slot name), fun hm => .inl hm⟩
  intro howner
  exact ht ((h.stamp_iff hp hc.stamp).2 howner)

theorem Sound.records_kept (h : l.Sound) (hc : l.Carries n t)
    (hp : l.session.pools[i]? = some pool) (ht : t.stamp = some pool.id)
    (hroom : pool.idle.length < pool.settings.maxIdle) :
    Records l (l.giveBack i t n) (.kept n i t.capacity) := by
  have hagrees := h.pool_agrees hp
  have hkeep : pool.keep t =
      ({ pool with idle := { t.reset with stamp := none } :: pool.idle }, []) := if_pos hroom
  have hl : l.giveBack i t n = { l with
      session := l.session.setPool i { pool with idle := { t.reset with stamp := none } :: pool.idle }
      idle := Function.update l.idle i (n :: l.idle i)
      history := .kept n i t.capacity :: l.history } := by
    simp only [giveBack, hp, pool.checkin_eq, if_pos ht, Session.giveBack_of_taken hp ht, hkeep,
      List.length_cons, Nat.lt_succ_self, if_true]
  have hplaces := Session.places_of_getElem? hp
  rw [hl]
  refine Records.of_setPool hp rfl rfl ?_ (hagrees.kept n t) (Nat.le_refl _) hc.made
    (fun name => hc.absent (.slot name)) ?_
  · refine ⟨(h.stamp_iff hp hc.stamp).1 ht, _, hplaces, ?_⟩
    rw [hagrees.length_shelf]
    exact hroom
  · intro m hm
    rcases List.mem_cons.1 hm with hm | hm
    · exact .inr ⟨hm, hc.absent⟩
    · exact .inl hm

theorem Sound.records_discarded (h : l.Sound) (hc : l.Carries n t)
    (hp : l.session.pools[i]? = some pool) (ht : t.stamp = some pool.id)
    (hroom : ¬ pool.idle.length < pool.settings.maxIdle) :
    Records l (l.giveBack i t n) (.discarded n i) := by
  have hagrees := h.pool_agrees hp
  have hkeep : (pool.keep t).1 = { pool with discarded := pool.discarded + 1 } := by
    unfold Pool.keep
    rw [if_neg hroom]
  have hl : l.giveBack i t n = { l with
      session := l.session.setPool i { pool with discarded := pool.discarded + 1 }
      idle := Function.update l.idle i (l.idle i)
      history := .discarded n i :: l.history } := by
    simp only [giveBack, hp, pool.checkin_eq, if_pos ht, Session.giveBack_of_taken hp ht, hkeep,
      Nat.lt_irrefl, if_false, Function.update_eq_self]
  have hplaces := Session.places_of_getElem? hp
  rw [hl]
  refine Records.of_setPool hp rfl rfl ?_ (hagrees.discard n) (Nat.le_refl _) hc.made
    (fun name => hc.absent (.slot name)) (fun m hm => .inl hm)
  have hle := h.orderly.length_shelf_le hplaces
  have hlength := hagrees.length_shelf
  refine ⟨(h.stamp_iff hp hc.stamp).1 ht, ?_⟩
  rw [hplaces, hlength]
  congr 1
  omega

/-- What is given to a pool is transferred, in one way or another. -/
theorem Sound.records_giveBack (h : l.Sound) (hc : l.Carries n t)
    (hp : l.session.pools[i]? = some pool) :
    ∃ e, e.number = n ∧ Records l (l.giveBack i t n) e := by
  by_cases ht : t.stamp = some pool.id
  · by_cases hroom : pool.idle.length < pool.settings.maxIdle
    · exact ⟨_, rfl, h.records_kept hc hp ht hroom⟩
    · exact ⟨_, rfl, h.records_discarded hc hp ht hroom⟩
  · exact ⟨_, rfl, h.records_refused hc hp ht⟩

/-- The first of the idle tokenizers of a pool is nowhere else. -/
theorem Sound.nowhere_else {rest : List Nat} (h : l.Sound) (hidle : l.idle i = n :: rest) :
    n < l.count ∧ n ∉ rest ∧ (∀ name, ¬ l.Lies n (.slot name)) ∧ ∀ j, j ≠ i → n ∉ l.idle j := by
  have hlies : l.Lies n (.idle i) := by
    show n ∈ l.idle i
    rw [hidle]
    exact List.mem_cons_self
  refine ⟨h.present hlies, ?_, ?_, ?_⟩
  · have hnodup := h.orderly.nodup_shelf i
    rw [← (h.agrees i).numbers, hidle, List.nodup_cons] at hnodup
    exact hnodup.1
  · intro name hslot
    cases h.apart hlies hslot
  · intro j hj hmem
    have hlies' : l.Lies n (.idle j) := hmem
    exact hj (Place.idle.inj (h.apart hlies' hlies))

/-- A pool with idle tokenizers gives out the one that was kept last, with the room that it came
back with. -/
theorem Sound.records_reused (h : l.Sound) (hp : l.session.pools[i]? = some pool)
    {rest : List Nat} (hidle : l.idle i = n :: rest) :
    (l.withdraw i pool).2 = n ∧
      Records l (l.withdraw i pool).1 (.reused n i pool.checkout.1.capacity) ∧
      (l.withdraw i pool).1.Carries n pool.checkout.1 := by
  have hagrees := h.pool_agrees hp
  rw [hidle] at hagrees
  obtain ⟨t, ts, later, htokenizers, hshelf, hafter⟩ := hagrees.reuse h.orderly
  obtain ⟨hknown, hrest, helsewhere, hothers⟩ := h.nowhere_else hidle
  have hcheckout : pool.checkout = ({ t with stamp := some pool.id },
      { pool with idle := ts, reused := pool.reused + 1 }, []) := by
    unfold Pool.checkout
    rw [htokenizers]
  have hl : l.withdraw i pool = ({ l with
      session := l.session.setPool i { pool with idle := ts, reused := pool.reused + 1 }
      idle := Function.update l.idle i rest
      history := .reused n i t.capacity :: l.history }, n) := by
    simp only [withdraw, hidle, hcheckout]
  rw [hl, hcheckout]
  refine ⟨rfl, Records.of_setPool hp rfl rfl ⟨later, hshelf⟩ hafter (Nat.le_refl _) hknown helsewhere
    ?_, ?_, hknown, ?_⟩
  · intro m hm
    rw [hidle]
    exact .inl (List.mem_cons_of_mem _ hm)
  · rintro (name | j) hn
    · exact helsewhere name hn
    · by_cases hj : j = i
      · subst hj
        simp only [Lies, Function.update_self] at hn
        exact hrest hn
      · simp only [Lies, Function.update_of_ne hj] at hn
        exact hothers j hj hn
  · simp [stampOf, owner, hagrees.id]

/-- A pool without idle tokenizers gives out a new one. -/
theorem Sound.records_made (h : l.Sound) (hp : l.session.pools[i]? = some pool)
    (hidle : l.idle i = []) :
    (l.withdraw i pool).2 = l.count ∧ Records l (l.withdraw i pool).1 (.made l.count i) ∧
      (l.withdraw i pool).1.Carries l.count pool.checkout.1 := by
  have hagrees := h.pool_agrees hp
  rw [hidle] at hagrees
  obtain ⟨hshelf, hempty⟩ := hagrees.empty
  have hcheckout : pool.checkout = ({ settings := pool.settings.tokenizer, stamp := some pool.id },
      { pool with created := pool.created + 1 }, [.tokenizerMade pool.id]) := by
    unfold Pool.checkout
    rw [hempty]
  have hl : l.withdraw i pool = ({ l with
      session := l.session.setPool i { pool with created := pool.created + 1 }
      idle := Function.update l.idle i []
      count := l.count + 1
      history := .made l.count i :: l.history }, l.count) := by
    simp only [withdraw, hidle, hcheckout]
    rw [← hidle, Function.update_eq_self]
  have hnew : ∀ p, ¬ l.Lies l.count p := fun p hlies => Nat.lt_irrefl _ (h.present hlies)
  rw [hl, hcheckout]
  refine ⟨rfl, Records.of_setPool hp rfl rfl ⟨hshelf, ?_⟩ (hagrees.made _) (Nat.le_succ _)
    (Nat.lt_succ_self _) (fun name => hnew (.slot name)) (fun m hm => by cases hm), ?_,
    Nat.lt_succ_self _, ?_⟩
  · exact fun e he => Nat.ne_of_lt (h.known e he)
  · rintro (name | j) hn
    · exact hnew (.slot name) hn
    · by_cases hj : j = i
      · subst hj
        simp only [Lies, Function.update_self] at hn
        cases hn
      · simp only [Lies, Function.update_of_ne hj] at hn
        exact hnew (.idle j) hn
  · simp [stampOf, owner, hagrees.id]

/-- What a pool gives out is on its way. -/
theorem Sound.records_withdraw (h : l.Sound) (hp : l.session.pools[i]? = some pool) :
    (∃ e, Records l (l.withdraw i pool).1 e) ∧
      (l.withdraw i pool).1.Carries (l.withdraw i pool).2 pool.checkout.1 := by
  cases hidle : l.idle i with
  | nil =>
    obtain ⟨hnumber, hrecords, hcarries⟩ := h.records_made hp hidle
    rw [hnumber]
    exact ⟨⟨_, hrecords⟩, hcarries⟩
  | cons n rest =>
    obtain ⟨hnumber, hrecords, hcarries⟩ := h.records_reused hp hidle
    rw [hnumber]
    exact ⟨⟨_, hrecords⟩, hcarries⟩

/-! ## Tokenizers that change places -/

theorem giveBack_of_none (hp : l.session.pools[i]? = none) (t : Tokenizer) (n : Nat) :
    l.giveBack i t n = l := by
  simp only [giveBack, hp, Session.giveBack]

/-- What is given to a pool is in no slot any more, and what else is on its way stays so. -/
theorem Sound.giveBack (h : l.Sound) (hc : l.Carries n t) (i : Nat) :
    (l.giveBack i t n).Sound ∧
      ∀ {m u}, m ≠ n → l.Carries m u → (l.giveBack i t n).Carries m u := by
  cases hp : l.session.pools[i]? with
  | none =>
    rw [giveBack_of_none hp]
    exact ⟨h, fun _ hm => hm⟩
  | some pool =>
    obtain ⟨e, rfl, hr⟩ := h.records_giveBack hc hp
    exact ⟨hr.sound h, fun hne hm => hr.carries hm (Ne.symm hne)⟩

/-- A slot is emptied while a tokenizer is on its way. -/
theorem Sound.drop (h : l.Sound) (name : String) :
    (l.drop name).Sound ∧ ∀ {m u}, l.Carries m u → (l.drop name).Carries m u := by
  unfold Ledger.drop
  split
  · next t lender hslot =>
    obtain ⟨hsound, hcarries⟩ := (h.clear name).giveBack (h.carries_of_slot hslot) lender
    refine ⟨hsound, fun {m u} hm => hcarries ?_ (hm.clear name)⟩
    intro heq
    exact hm.absent (.slot name) ⟨⟨_, hslot⟩, heq.symm⟩
  · exact ⟨h.clear name, fun hm => hm.clear name⟩

theorem Sound.fill (h : l.Sound) (hc : l.Carries n slot.tokenizer) (name : String) :
    (l.fill name slot n).Sound := by
  obtain ⟨hsound, hcarries⟩ := h.drop name
  exact hsound.put (hcarries hc)

theorem Sound.takeOut (h : l.Sound) (name : String) (i : Nat) (lender : Option Nat) :
    (l.takeOut name i lender).Sound := by
  unfold Ledger.takeOut
  cases hp : l.session.pools[i]? with
  | none => exact h
  | some pool =>
    obtain ⟨⟨e, hr⟩, hcarries⟩ := h.records_withdraw hp
    have hcarries : (l.withdraw i pool).1.Carries (l.withdraw i pool).2
        (⟨pool.checkout.1, lender⟩ : Slot).tokenizer := hcarries
    exact (hr.sound h).fill hcarries name

/-- A new tokenizer is on its way. -/
theorem Sound.count_succ (h : l.Sound) (ht : t.stamp = none) :
    Sound { l with count := l.count + 1 } ∧
      Carries { l with count := l.count + 1 } l.count t := by
  have hlies : ∀ {n p}, Lies { l with count := l.count + 1 } n p → l.Lies n p := by
    intro n p hp
    cases p <;> exact hp
  refine ⟨⟨h.agrees, h.orderly, ?_, ?_, ?_, h.stamped⟩, ⟨?_, Nat.lt_succ_self _, ?_⟩⟩
  · exact fun e he => Nat.lt_succ_of_lt (h.known e he)
  · exact fun hp hq => h.apart (hlies hp) (hlies hq)
  · exact fun hp => Nat.lt_succ_of_lt (h.present (hlies hp))
  · exact fun p hp => Nat.lt_irrefl _ (h.present (hlies hp))
  · rw [ht, stampOf, owner_of_new fun e he => Nat.ne_of_lt (h.known e he)]
    rfl

/-! ## One action -/

/-- Work on the tokenizer of a slot does not change its stamp. -/
theorem Sound.work (h : l.Sound) {slot' : Slot} (hs : l.session.slot? name = some slot)
    (hstamp : slot'.tokenizer.stamp = slot.tokenizer.stamp) :
    Sound { l with session := l.session.put name slot' } := by
  refine h.of_moves id Function.injective_id rfl rfl rfl rfl ?_
  intro other slot'' hother
  by_cases ho : other = name
  · subst ho
    obtain rfl : slot' = slot'' := Option.some.inj ((Session.slot?_put _ _ _).symm.trans hother)
    exact ⟨slot, hs, rfl, hstamp⟩
  · exact ⟨slot'', (Session.slot?_put_of_ne ho slot').symm.trans hother, rfl, rfl⟩

theorem Sound.swap (h : l.Sound) {first second : String} {a b : Slot}
    (ha : l.session.slot? first = some a) (hb : l.session.slot? second = some b) :
    ((l.put first { a with tokenizer := b.tokenizer } (l.numbers second)).put second
      { b with tokenizer := a.tokenizer } (l.numbers first)).Sound := by
  refine h.of_moves (Equiv.swap first second) (Equiv.injective _) rfl rfl rfl rfl ?_
  intro other slot hother
  by_cases hsecond : other = second
  · subst hsecond
    obtain rfl := Option.some.inj ((Session.slot?_put _ _ _).symm.trans hother)
    rw [Equiv.swap_apply_right]
    exact ⟨a, ha, Function.update_self _ _ _, rfl⟩
  · have hother := (Session.slot?_put_of_ne hsecond _).symm.trans hother
    have hnumber : ∀ number, ((l.put first { a with tokenizer := b.tokenizer }
        (l.numbers second)).put second { b with tokenizer := a.tokenizer } number).numbers other =
        (l.put first { a with tokenizer := b.tokenizer } (l.numbers second)).numbers other :=
      fun number => Function.update_of_ne hsecond _ _
    by_cases hfirst : other = first
    · subst hfirst
      obtain rfl := Option.some.inj ((Session.slot?_put _ _ _).symm.trans hother)
      rw [Equiv.swap_apply_left]
      exact ⟨b, hb, (hnumber _).trans (Function.update_self _ _ _), rfl⟩
    · rw [Equiv.swap_apply_of_ne_of_ne hfirst hsecond]
      have hslot := (Session.slot?_put_of_ne hfirst _).symm.trans hother
      exact ⟨slot, hslot, (hnumber _).trans (Function.update_of_ne hfirst _ _), rfl⟩

theorem Sound.makePool (h : l.Sound) (settings : PoolSettings) :
    (l.step (.makePool settings)).Sound := by
  refine ⟨?_, ?_, h.known, h.apart, h.present, h.stamped⟩
  · intro i
    obtain ⟨settings', hpool⟩ := l.session.pool_makePool settings i
    show ((l.session.step (.makePool settings)).1.pool i).Agrees i (l.idle i) l.history
    rw [hpool]
    exact (h.agrees i).configure settings'
  · exact h.orderly.mono fun i m hm => l.session.places_makePool settings hm

/-- **One action keeps the invariant.** -/
theorem Sound.step (h : l.Sound) (a : Action) : (l.step a).Sound := by
  cases a with
  | makePool settings => exact h.makePool settings
  | make name settings =>
    obtain ⟨hsound, hcarries⟩ := h.count_succ (t := { settings := settings }) rfl
    exact hsound.fill hcarries name
  | checkout name i => exact h.takeOut name i none
  | lease name i => exact h.takeOut name i (some i)
  | checkin name i =>
    simp only [Ledger.step]
    cases hslot : l.session.slot? name with
    | none => exact h
    | some slot => exact ((h.clear name).giveBack (h.carries_of_slot hslot) i).1
  | drop name => exact (h.drop name).1
  | swap first second =>
    simp only [Ledger.step]
    cases ha : l.session.slot? first with
    | none => exact h
    | some a =>
      cases hb : l.session.slot? second with
      | none => exact h
      | some b => exact h.swap ha hb
  | detach name | reset name =>
    simp only [Ledger.step, Session.step]
    cases hslot : l.session.slot? name with
    | none => exact h
    | some slot => exact h.work hslot rfl
  | parse name text =>
    simp only [Ledger.step, Session.step]
    cases hslot : l.session.slot? name with
    | none => exact h
    | some slot => exact h.work hslot (slot.tokenizer.parse?_kept text).1

theorem sound_empty : ({} : Ledger).Sound := by
  refine ⟨fun i => ⟨rfl, rfl, rfl, ?_, rfl, rfl, rfl⟩, trivial, ?_, ?_, ?_, ?_⟩
  · intro t ht
    cases ht
  · intro e he
    cases he
  · rintro n (a | i) q hp
    · obtain ⟨⟨slot, hslot⟩, -⟩ := hp
      cases hslot
    · cases hp
  · rintro n (a | i) hp
    · obtain ⟨⟨slot, hslot⟩, -⟩ := hp
      cases hslot
    · cases hp
  · intro name slot hslot
    cases hslot

/-- **Any number of actions keep the invariant.** -/
theorem sound_run (actions : List Action) : (Ledger.run {} actions).Sound := by
  have hrun : ∀ l : Ledger, l.Sound → (l.run actions).Sound := by
    intro l hl
    induction actions generalizing l with
    | nil => exact hl
    | cons a actions ih => exact ih (l.step a) (hl.step a)
  exact hrun {} sound_empty

end Ledger

end FlatJson
