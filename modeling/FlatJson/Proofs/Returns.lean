import FlatJson.Proofs.Ledger

/-!
# What pools take back

A tokenizer is given to a pool by hand, or when its lease is dropped or replaced.

* `Session.returned?` — the slot whose tokenizer an action gives to a pool, and that pool.
* `Judged` — the pool takes back what is out of it, and refuses everything else without any change.

`Ledger.misuse_caught` says that this is so after any actions, whatever was swapped, detached or
parsed in between.
-/

namespace FlatJson

open History

namespace Session

variable {s : Session} {name : String} {slot : Slot} {i : Nat}

/-- The pool that a slot holds a lease of. -/
def lender? (s : Session) (name : String) : Option Nat := (s.slot? name).bind (·.lender)

/-- The slot whose tokenizer an action gives to a pool, and that pool.  A lease is given back when
it is dropped, and when something else is put into its slot. -/
def returned? (s : Session) : Action → Option (String × Nat)
  | .checkin name i => (s.slot? name).map fun _ => (name, i)
  | .drop name | .make name _ => (s.lender? name).map fun i => (name, i)
  | .checkout name j | .lease name j =>
    if j < s.pools.length then (s.lender? name).map fun i => (name, i) else none
  | _ => none

/-- The pools when an action gives a tokenizer back: what it takes out is out already. -/
def poolsAtReturn (s : Session) : Action → List Pool
  | .checkout _ j | .lease _ j => s.pools.modify j (·.checkout.2.1)
  | _ => s.pools

theorem lender?_eq_some_iff :
    s.lender? name = some i ↔ ∃ t, s.slot? name = some ⟨t, some i⟩ := by
  unfold lender?
  cases s.slot? name with
  | none => simp
  | some slot =>
    obtain ⟨t, lender⟩ := slot
    simp

/-- What is owned just disappears when it is dropped. -/
theorem drop_of_no_lender (h : s.lender? name = none) : s.drop name = (s.clear name, {}) := by
  unfold lender? at h
  unfold drop
  cases hslot : s.slot? name with
  | none => rfl
  | some slot =>
    obtain ⟨t, lender⟩ := slot
    rw [hslot] at h
    cases lender with
    | none => rfl
    | some lender => cases h

theorem misuse_fill (s : Session) (name : String) (slot : Slot) (events : List Event) :
    (s.fill name slot events).2.misuse = (s.drop name).2.misuse := rfl

theorem takeOut_of_none (hp : s.pools[i]? = none) (name : String) (lender : Option Nat) :
    s.takeOut name i lender = (s, {}) := by
  simp only [takeOut, hp]

theorem misuse_takeOut {j : Nat} (lender : Option Nat)
    (h : j < s.pools.length → s.lender? name = none) :
    (s.takeOut name j lender).2.misuse = none := by
  cases hp : s.pools[j]? with
  | none => rw [takeOut_of_none hp]
  | some pool =>
    obtain ⟨hlen, -⟩ := List.getElem?_eq_some_iff.1 hp
    simp only [takeOut, hp, misuse_fill]
    have hlender : (s.setPool j pool.checkout.2.1).lender? name = none := h hlen
    rw [drop_of_no_lender hlender]

/-- What gives nothing back is refused nothing. -/
theorem misuse_of_returned?_eq_none {a : Action} (h : s.returned? a = none) :
    (s.step a).2.misuse = none := by
  cases a with
  | makePool => rfl
  | make name settings =>
    simp only [step, misuse_fill]
    rw [drop_of_no_lender (Option.map_eq_none_iff.1 h)]
  | drop name =>
    simp only [step]
    rw [drop_of_no_lender (Option.map_eq_none_iff.1 h)]
  | checkout name j | lease name j =>
    refine misuse_takeOut _ fun hlen => ?_
    simp only [returned?, if_pos hlen] at h
    exact Option.map_eq_none_iff.1 h
  | checkin name i =>
    simp only [step, Option.map_eq_none_iff.1 h]
  | detach name | parse name text | reset name | swap first second =>
    simp only [step]
    split <;> rfl

end Session

/-- What comes of giving pool `i` a tokenizer that is out of `owner`, if of any: the pool takes it just
when the owner is the pool itself, and else says why not and leaves the pools as they are. -/
structure Judged (i : Nat) (owner : Option Nat) (pools : List Pool) (result : Session × Effect) :
    Prop where
  taken : result.2.misuse = none ↔ owner = some i
  refused : ∀ misuse, result.2.misuse = some misuse →
    misuse = .ofStamp (i + 1) (owner.map (· + 1)) ∧ result.1.pools = pools

namespace Ledger

variable {l : Ledger} {n i j : Nat} {t : Tokenizer} {name : String} {pool : Pool}

theorem Sound.judged_giveBack (h : l.Sound) (hp : l.session.pools[i]? = some pool)
    (ht : t.stamp = stampOf l.history n) :
    Judged i (owner n l.history) l.session.pools (l.session.giveBack i t) := by
  have hid := (h.pool_agrees hp).id
  have hiff := h.stamp_iff hp ht
  by_cases hstamp : t.stamp = some pool.id
  · rw [Session.giveBack_of_taken hp hstamp]
    refine ⟨⟨fun _ => hiff.1 hstamp, fun _ => rfl⟩, ?_⟩
    intro misuse hmisuse
    cases hmisuse
  · rw [Session.giveBack_of_refused hp hstamp]
    refine ⟨⟨?_, fun howner => absurd (hiff.2 howner) hstamp⟩, ?_⟩
    · intro hmisuse
      cases hmisuse
    · intro misuse hmisuse
      rw [hid, ht] at hmisuse
      exact ⟨(Option.some.inj hmisuse).symm, rfl⟩

theorem Sound.judged_drop (h : l.Sound) (hlender : l.session.lender? name = some i)
    (hp : l.session.pools[i]? = some pool) :
    Judged i (owner (l.numbers name) l.history) l.session.pools (l.session.drop name) := by
  obtain ⟨t, hslot⟩ := Session.lender?_eq_some_iff.1 hlender
  simp only [Session.drop, hslot]
  exact (h.clear name).judged_giveBack hp (h.stamped hslot)

/-- A tokenizer that is taken out is not the one that makes place for it. -/
theorem Sound.judged_takeOut (h : l.Sound) (hlender : l.session.lender? name = some i)
    (hi : i < l.session.pools.length) (hp : l.session.pools[j]? = some pool) (lender : Option Nat) :
    Judged i (owner (l.numbers name) l.history) (l.session.pools.modify j (·.checkout.2.1))
      (l.session.takeOut name j lender) := by
  obtain ⟨⟨e, hr⟩, -⟩ := h.records_withdraw hp
  have hsession := withdraw_session l j pool
  obtain ⟨t, hslot⟩ := Session.lender?_eq_some_iff.1 hlender
  have hlender' : (l.withdraw j pool).1.session.lender? name = some i := by
    rw [Session.lender?, hr.slots, hslot]
    rfl
  have hlen : i < (l.withdraw j pool).1.session.pools.length := by
    rw [hsession]
    simpa [Session.setPool] using hi
  have hjudged := (hr.sound h).judged_drop hlender' (List.getElem?_eq_getElem hlen)
  have hne : e.number ≠ l.numbers name := by
    intro heq
    exact hr.elsewhere name ⟨⟨_, hslot⟩, heq.symm⟩
  have hmodify : (l.session.setPool j pool.checkout.2.1).pools =
      l.session.pools.modify j (·.checkout.2.1) := by
    rw [List.modify_eq_set_getElem?, hp]
    rfl
  rw [hr.numbers, hr.history, owner_cons_of_ne hne, hsession, hmodify] at hjudged
  simp only [Session.takeOut, hp]
  exact ⟨hjudged.taken, hjudged.refused⟩

/-- **Whatever an action gives to a pool is judged.** -/
theorem Sound.judged_step (h : l.Sound) {a : Action}
    (hreturned : l.session.returned? a = some (name, i)) (hi : i < l.session.pools.length) :
    Judged i (owner (l.numbers name) l.history) (l.session.poolsAtReturn a)
      (l.session.step a) := by
  have hp := List.getElem?_eq_getElem hi
  have hlender : ∀ {name'}, ((l.session.lender? name').map fun i => (name', i)) = some (name, i) →
      name' = name ∧ l.session.lender? name = some i := by
    intro name' hmap
    obtain ⟨i', hi', heq⟩ := Option.map_eq_some_iff.1 hmap
    obtain ⟨rfl, rfl⟩ := Prod.mk.inj heq
    exact ⟨rfl, hi'⟩
  cases a with
  | checkin name' i' =>
    obtain ⟨slot, hslot, heq⟩ := Option.map_eq_some_iff.1 hreturned
    obtain ⟨rfl, rfl⟩ := Prod.mk.inj heq
    simp only [Session.step, hslot]
    exact (h.clear name').judged_giveBack hp (h.stamped hslot)
  | drop name' =>
    obtain ⟨rfl, hlease⟩ := hlender hreturned
    exact h.judged_drop hlease hp
  | make name' settings =>
    obtain ⟨rfl, hlease⟩ := hlender hreturned
    have hjudged := h.judged_drop hlease hp
    exact ⟨hjudged.taken, hjudged.refused⟩
  | checkout name' j | lease name' j =>
    simp only [Session.returned?] at hreturned
    split at hreturned
    · next hj =>
      obtain ⟨rfl, hlease⟩ := hlender hreturned
      exact h.judged_takeOut hlease hi (List.getElem?_eq_getElem hj) _
    · cases hreturned
  | makePool | detach | swap | parse | reset => cases hreturned

/-- **Misuse is always caught and never changes a pool.**  After any actions, a pool takes back what
was taken from it last and has not been taken back since, and nothing else.  What it refuses, it
refuses with the right words, and the idle tokenizers and counts of all pools stay as they are.  No
idle tokenizer bears a stamp. -/
theorem misuse_caught (actions : List Action) :
    (∀ a name i, (Session.run {} actions).returned? a = some (name, i) →
      i < (Session.run {} actions).pools.length →
      Judged i
        (owner ((Ledger.run {} actions).numbers name) (Ledger.run {} actions).history)
        ((Session.run {} actions).poolsAtReturn a) ((Session.run {} actions).step a)) ∧
    (∀ a, (Session.run {} actions).returned? a = none →
      ((Session.run {} actions).step a).2.misuse = none) ∧
    ∀ pool ∈ (Session.run {} actions).pools, ∀ t ∈ pool.idle, t.stamp = none := by
  have hsound := sound_run actions
  have hsession : (Ledger.run {} actions).session = Session.run {} actions :=
    session_run {} actions
  refine ⟨?_, fun a h => Session.misuse_of_returned?_eq_none h, ?_⟩
  · rw [← hsession]
    intro a name i hreturned hi
    exact hsound.judged_step hreturned hi
  · intro pool hpool t ht
    obtain ⟨i, hi⟩ := List.mem_iff_getElem?.1 hpool
    rw [← hsession] at hi
    exact (hsound.pool_agrees hi).unstamped t ht

/-- Two leases of different pools with their tokenizers swapped: the pool of the first lease refuses
the tokenizer in it and stays as it is, and the other pool takes it. -/
theorem misuse_caught_swapped :
    ((Session.run {} [.makePool {}, .makePool {}, .lease "a" 0, .lease "b" 1, .swap "a" "b"]).step
      (.drop "a")).2.misuse = some (.foreign 2 1) ∧
    ((Session.run {} [.makePool {}, .makePool {}, .lease "a" 0, .lease "b" 1, .swap "a" "b"]).step
      (.drop "a")).1.pools =
        (Session.run {} [.makePool {}, .makePool {}, .lease "a" 0, .lease "b" 1,
          .swap "a" "b"]).pools ∧
    ((Session.run {} [.makePool {}, .makePool {}, .lease "a" 0, .lease "b" 1, .swap "a" "b"]).step
      (.checkin "a" 1)).2.misuse = none := by
  obtain ⟨hjudged, -, -⟩ := misuse_caught
    [.makePool {}, .makePool {}, .lease "a" 0, .lease "b" 1, .swap "a" "b"]
  have hdrop := hjudged (.drop "a") "a" 0 (by decide) (by decide)
  have hcheckin := hjudged (.checkin "a" 1) "a" 1 (by decide) (by decide)
  have hmisuse : ((Session.run {} [.makePool {}, .makePool {}, .lease "a" 0, .lease "b" 1,
      .swap "a" "b"]).step (.drop "a")).2.misuse = some (.foreign 2 1) := by decide
  exact ⟨hmisuse, (hdrop.refused _ hmisuse).2, hcheckin.taken.2 (by decide)⟩

end Ledger

end FlatJson
