import FlatJson.Session

/-!
# Tokenizers used again

A tokenizer comes back into use in several ways: by a further parse, by a reset, or through a pool,
to which it was returned by hand or by a lease.  None of them lets anything of an earlier text
through.

* `Session.origins` — the pools as they were made, whatever has been taken out of them.
* `Tokenizer.BelongsTo` — the settings of a stamped tokenizer are those of its pool.
* `Session.Sound` — the invariant: idle tokenizers are like new ones of their pool, and no
  tokenizer bears the stamp of a pool that it does not belong to.

`Session.Sound.step` is about one action, `Session.sound_run` about any number of them, and
`Session.reuse_invisible` about what a caller sees.
-/

namespace FlatJson

/-! ## Parses -/

/-- A parse by any tokenizer gives what one by a new tokenizer gives. -/
theorem Tokenizer.parse_eq_parse_new (t : Tokenizer) (text : Bytes) :
    (t.parse text).1 = (({ settings := t.settings } : Tokenizer).parse text).1 := by
  rw [parse_fst, parse_fst]

/-- Tokens and error of a parse depend on the text and the limits of the scan. -/
theorem Tokenizer.parse_congr {t u : Tokenizer} (h : t.settings.limits = u.settings.limits)
    (text : Bytes) : (t.parse text).1.tokens = (u.parse text).1.tokens ∧
      (t.parse text).1.error = (u.parse text).1.error := by
  simp [parse_fst, h]

/-! ## Pools as they were made -/

/-- The number and the settings of a pool, which it keeps. -/
def Pool.origin (p : Pool) : Nat × PoolSettings := (p.id, p.settings)

/-- Nothing is left in the tokenizer of the texts before. -/
structure Tokenizer.IsClean (t : Tokenizer) : Prop where
  tokens : t.tokens = []
  unclosed : t.unclosed = []
  lastShape : t.lastShape = none

/-- Whether the tokenizer is out of none of the pools, or has the settings of the one it is out
of. -/
def Tokenizer.BelongsTo (origins : List (Nat × PoolSettings)) (t : Tokenizer) : Prop :=
  ∀ id, t.stamp = some id → ∃ settings, (id, settings) ∈ origins ∧
    t.settings = settings.tokenizer

/-- An idle tokenizer is like a new one of its pool. -/
def Pool.IsClean (p : Pool) : Prop :=
  ∀ t ∈ p.idle, t.settings = p.settings.tokenizer ∧ t.IsClean

theorem Pool.checkout_origin (p : Pool) : p.checkout.2.1.origin = p.origin := by
  unfold checkout
  split <;> rfl

theorem Pool.IsClean.checkout {p : Pool} (h : p.IsClean) : p.checkout.2.1.IsClean := by
  unfold Pool.checkout
  split
  · next t idle hidle =>
    intro u hu
    exact h u (by simp [hidle, List.mem_cons_of_mem t hu])
  · exact h

/-- What a pool gives out is like new, and bears its stamp. -/
theorem Pool.IsClean.taken {p : Pool} (h : p.IsClean) :
    p.checkout.1.settings = p.settings.tokenizer ∧ p.checkout.1.IsClean ∧
      p.checkout.1.stamp = some p.id := by
  unfold Pool.checkout
  split
  · next t idle hidle =>
    obtain ⟨hsettings, htokens, hunclosed, hshape⟩ := h t (by simp [hidle])
    exact ⟨hsettings, ⟨htokens, hunclosed, hshape⟩, rfl⟩
  · exact ⟨rfl, ⟨rfl, rfl, rfl⟩, rfl⟩

/-- A tokenizer that has the settings of the pool is kept clean, or not at all. -/
theorem Pool.IsClean.keep {p : Pool} {t : Tokenizer} (h : p.IsClean)
    (ht : t.settings = p.settings.tokenizer) :
    (p.keep t).1.origin = p.origin ∧ (p.keep t).1.IsClean := by
  unfold Pool.keep
  split
  · refine ⟨rfl, ?_⟩
    intro u hu
    rcases List.mem_cons.1 hu with rfl | hu
    · exact ⟨ht, rfl, rfl, rfl⟩
    · exact h u hu
  · exact ⟨rfl, h⟩

/-- Only a tokenizer with the stamp of the pool is taken back. -/
theorem Pool.checkin_eq_ok {p : Pool} {t : Tokenizer} {r : Pool × List Event}
    (h : p.checkin t = .ok r) : t.stamp = some p.id ∧ p.keep t = r := by
  unfold checkin at h
  split at h
  · cases h
  · next owner hstamp =>
    split at h
    · next howner =>
      subst howner
      exact ⟨hstamp, Except.ok.inj h⟩
    · cases h

/-! ## Slots -/

theorem Session.mem_insertSlot {name : String} {slot : Slot} {entry : String × Slot}
    {slots : List (String × Slot)} (h : entry ∈ insertSlot name slot slots) :
    entry = (name, slot) ∨ entry ∈ slots := by
  induction slots with
  | nil => exact .inl (List.mem_singleton.1 h)
  | cons old rest ih =>
    unfold insertSlot at h
    grind

theorem Session.lookup_insertSlot (name : String) (slot : Slot) (slots : List (String × Slot)) :
    (insertSlot name slot slots).lookup name = some slot := by
  induction slots with
  | nil => simp [insertSlot]
  | cons old rest ih =>
    obtain ⟨n, old⟩ := old
    unfold insertSlot
    split
    · simp
    · next hne =>
      split
      · simp
      · have hbeq : (name == n) = false := by simpa using hne
        simp [List.lookup_cons, hbeq, ih]

/-- What is put into a slot is there. -/
@[simp] theorem Session.slot?_put (s : Session) (name : String) (slot : Slot) :
    (s.put name slot).slot? name = some slot :=
  lookup_insertSlot name slot s.slots

theorem Session.mem_of_slot? {s : Session} {name : String} {slot : Slot}
    (h : s.slot? name = some slot) : (name, slot) ∈ s.slots := by
  unfold slot? at h
  generalize s.slots = slots at h
  induction slots with
  | nil => cases h
  | cons entry rest ih =>
    obtain ⟨n, old⟩ := entry
    rw [List.lookup_cons] at h
    split at h
    · next heq =>
      cases h
      simp [eq_of_beq heq]
    · exact List.mem_cons_of_mem _ (ih h)

/-! ## The invariant -/

/-- The pools as they were made, in order. -/
def Session.origins (s : Session) : List (Nat × PoolSettings) := s.pools.map Pool.origin

/-- Pools are numbered in order, their idle tokenizers are like new, and a tokenizer in a slot
belongs to the pool whose stamp it bears. -/
structure Session.Sound (s : Session) : Prop where
  numbered : ∀ i pool, s.pools[i]? = some pool → pool.id = i + 1
  clean : ∀ pool ∈ s.pools, pool.IsClean
  belong : ∀ entry ∈ s.slots, entry.2.tokenizer.BelongsTo s.origins

namespace Session

variable {s : Session} {t : Tokenizer} {p q : Pool} {name : String} {index : Nat}

/-- A tokenizer with the stamp of a pool has its settings. -/
theorem Sound.settings_eq (h : s.Sound) (ht : t.BelongsTo s.origins)
    (hp : s.pools[index]? = some p) (hstamp : t.stamp = some p.id) :
    t.settings = p.settings.tokenizer := by
  obtain ⟨settings, hmem, heq⟩ := ht p.id hstamp
  obtain ⟨q, hq, horigin⟩ := List.mem_map.1 hmem
  obtain ⟨j, hj⟩ := List.mem_iff_getElem?.1 hq
  -- Pools of one number are one pool.
  have hid : q.id = p.id := congrArg Prod.fst horigin
  have hindex : j = index := by
    have hnj := h.numbered j q hj
    have hni := h.numbered index p hp
    omega
  subst hindex
  obtain rfl : q = p := Option.some.inj (hj.symm.trans hp)
  have hsettings : q.settings = settings := congrArg Prod.snd horigin
  rw [heq, hsettings]

theorem origins_setPool (hp : s.pools[index]? = some p) (hq : q.origin = p.origin) :
    (s.setPool index q).origins = s.origins := by
  refine List.ext_getElem? fun i => ?_
  simp only [origins, setPool, List.getElem?_map, List.getElem?_set]
  split
  · next hi =>
    subst hi
    obtain ⟨hlt, rfl⟩ := List.getElem?_eq_some_iff.1 hp
    simp [hlt, hq]
  · rfl

theorem Sound.setPool (h : s.Sound) (hp : s.pools[index]? = some p) (hq : q.origin = p.origin)
    (hclean : q.IsClean) : (s.setPool index q).Sound := by
  refine ⟨?_, ?_, ?_⟩
  · intro i pool hi
    simp only [Session.setPool, List.getElem?_set] at hi
    split at hi
    · next heq =>
      subst heq
      split at hi
      · cases hi
        exact (congrArg Prod.fst hq).trans (h.numbered index p hp)
      · cases hi
    · exact h.numbered i pool hi
  · intro pool hpool
    rcases List.mem_or_eq_of_mem_set hpool with hpool | rfl
    · exact h.clean pool hpool
    · exact hclean
  · rw [origins_setPool hp hq]
    exact h.belong

theorem Sound.put (h : s.Sound) {slot : Slot} (ht : slot.tokenizer.BelongsTo s.origins) :
    (s.put name slot).Sound := by
  refine ⟨h.numbered, h.clean, ?_⟩
  intro entry hentry
  rcases mem_insertSlot hentry with rfl | hentry
  · exact ht
  · exact h.belong entry hentry

theorem Sound.clear (h : s.Sound) (name : String) : (s.clear name).Sound :=
  ⟨h.numbered, h.clean, fun entry hentry => h.belong entry (List.mem_filter.1 hentry).1⟩

theorem Sound.belongs (h : s.Sound) {slot : Slot} (hs : s.slot? name = some slot) :
    slot.tokenizer.BelongsTo s.origins :=
  h.belong _ (mem_of_slot? hs)

/-! ## One action -/

/-- An action that makes no pool leaves the invariant and the pools as they were made. -/
def Keeps (s s' : Session) : Prop := s.Sound → s'.Sound ∧ s'.origins = s.origins

theorem keeps_giveBack (ht : t.BelongsTo s.origins) (index : Nat) :
    s.Keeps (s.giveBack index t).1 := by
  intro h
  unfold giveBack
  split
  · exact ⟨h, rfl⟩
  · next pool hpool =>
    split
    · next q events hq =>
      obtain ⟨hstamp, hkeep⟩ := Pool.checkin_eq_ok hq
      have hclean : pool.IsClean := h.clean pool (List.mem_of_getElem? hpool)
      have hkept := hclean.keep (h.settings_eq ht hpool hstamp)
      rw [hkeep] at hkept
      exact ⟨h.setPool hpool hkept.1 hkept.2, origins_setPool hpool hkept.1⟩
    · exact ⟨h, rfl⟩

theorem keeps_drop (s : Session) (name : String) : s.Keeps (s.drop name).1 := by
  intro h
  unfold drop
  split
  · next t lender hslot =>
    have ht : t.BelongsTo (s.clear name).origins := h.belongs hslot
    exact keeps_giveBack ht lender (h.clear name)
  · exact ⟨h.clear name, rfl⟩

theorem keeps_fill (name : String) (slot : Slot) (ht : slot.tokenizer.BelongsTo s.origins)
    (events : List Event) :
    s.Keeps (s.fill name slot events).1 := by
  intro h
  obtain ⟨hdrop, horigins⟩ := s.keeps_drop name h
  refine ⟨hdrop.put ?_, horigins⟩
  rw [horigins]
  exact ht

theorem keeps_takeOut (s : Session) (name : String) (index : Nat) (lender : Option Nat) :
    s.Keeps (s.takeOut name index lender).1 := by
  intro h
  unfold takeOut
  split
  · exact ⟨h, rfl⟩
  · next pool hpool =>
    have hclean : pool.IsClean := h.clean pool (List.mem_of_getElem? hpool)
    obtain ⟨hsettings, -, hstamp⟩ := hclean.taken
    have horigins := origins_setPool hpool pool.checkout_origin
    have ht : pool.checkout.1.BelongsTo (s.setPool index pool.checkout.2.1).origins := by
      intro id hid
      obtain rfl : pool.id = id := Option.some.inj (hstamp.symm.trans hid)
      rw [horigins]
      exact ⟨pool.settings, List.mem_map_of_mem (List.mem_of_getElem? hpool), hsettings⟩
    have hset := h.setPool hpool pool.checkout_origin hclean.checkout
    obtain ⟨hfill, hsame⟩ := keeps_fill name ⟨_, lender⟩ ht pool.checkout.2.2 hset
    exact ⟨hfill, hsame.trans horigins⟩

theorem takeOut_slot? (hp : s.pools[index]? = some p) (lender : Option Nat) :
    (s.takeOut name index lender).1.slot? name = some ⟨p.checkout.1, lender⟩ := by
  simp [takeOut, hp, fill]

/-- Work on the tokenizer of a slot changes neither its stamp nor its settings. -/
theorem keeps_put {slot slot' : Slot} (hs : s.slot? name = some slot)
    (hstamp : slot'.tokenizer.stamp = slot.tokenizer.stamp)
    (hsettings : slot'.tokenizer.settings = slot.tokenizer.settings) :
    s.Keeps (s.put name slot') := by
  intro h
  refine ⟨h.put ?_, rfl⟩
  intro id hid
  rw [hsettings]
  exact h.belongs hs id (hstamp ▸ hid)

/-- An action on a slot does nothing where the slot is empty. -/
theorem keeps_slot {f : Slot → Session × Effect}
    (hf : ∀ slot, s.slot? name = some slot → s.Keeps (f slot).1) :
    s.Keeps (match s.slot? name with
      | none => (s, ({} : Effect))
      | some slot => f slot).1 := by
  split
  · exact fun h => ⟨h, rfl⟩
  · next slot hslot => exact hf slot hslot

theorem Sound.makePool (h : s.Sound) (settings : PoolSettings) :
    (s.step (.makePool settings)).1.Sound := by
  refine ⟨?_, ?_, ?_⟩
  · intro i pool hi
    simp only [step, List.getElem?_append] at hi
    split at hi
    · exact h.numbered i pool hi
    · -- The new pool stands at the end.
      obtain ⟨hzero, hpool⟩ :
          i - s.pools.length = 0 ∧ { id := s.pools.length + 1, settings } = pool := by
        simpa [List.getElem?_singleton] using hi
      rw [← hpool]
      show s.pools.length + 1 = i + 1
      omega
  · intro pool hpool
    rcases List.mem_append.1 hpool with hpool | hpool
    · exact h.clean pool hpool
    · rw [List.mem_singleton.1 hpool]
      exact nofun
  · intro entry hentry id hid
    obtain ⟨made, hmade, heq⟩ := h.belong entry hentry id hid
    refine ⟨made, ?_, heq⟩
    have hmem := List.mem_append_left [(s.pools.length + 1, settings)] hmade
    simpa [origins, step, Pool.origin] using hmem

end Session

/-- The settings of the pool that an action makes, if it makes one. -/
def Action.poolSettings? : Action → Option PoolSettings
  | .makePool settings => some settings
  | _ => none

namespace Session

variable {s : Session}

/-- The settings with which the pools were made. -/
def madeWith (s : Session) : List PoolSettings := s.origins.map Prod.snd

/-- **One action keeps the invariant**, and makes the pool that it is to make. -/
theorem Sound.step (h : s.Sound) (a : Action) : (s.step a).1.Sound ∧
    (s.step a).1.madeWith = s.madeWith ++ a.poolSettings?.toList := by
  have hkeeps : ∀ {s'}, s.Keeps s' → s'.Sound ∧ s'.madeWith = s.madeWith ++ [] := by
    intro s' hs'
    obtain ⟨hsound, horigins⟩ := hs' h
    exact ⟨hsound, by rw [madeWith, madeWith, horigins, List.append_nil]⟩
  cases a with
  | makePool settings =>
    refine ⟨h.makePool settings, ?_⟩
    simp [madeWith, origins, Session.step, Pool.origin, Action.poolSettings?]
  | make name settings =>
    have hnew : ({ settings } : Tokenizer).BelongsTo s.origins := fun _ hid => nomatch hid
    exact hkeeps (keeps_fill name ⟨{ settings }, none⟩ hnew [])
  | checkout name index => exact hkeeps (s.keeps_takeOut name index none)
  | lease name index => exact hkeeps (s.keeps_takeOut name index (some index))
  | drop name => exact hkeeps (s.keeps_drop name)
  | checkin name index =>
    refine hkeeps (keeps_slot fun slot hslot h => ?_)
    have ht : slot.tokenizer.BelongsTo (s.clear name).origins := h.belongs hslot
    exact keeps_giveBack ht index (h.clear name)
  | detach name => exact hkeeps (keeps_slot fun slot hslot => keeps_put hslot rfl rfl)
  | swap first second =>
    refine hkeeps (fun h => ?_)
    simp only [Session.step]
    split
    · next a b ha hb =>
      have hbelong := h.belongs ha
      have hbelong' := h.belongs hb
      have hfirst : (s.put first { a with tokenizer := b.tokenizer }).Sound := h.put hbelong'
      exact ⟨hfirst.put hbelong, rfl⟩
    · exact ⟨h, rfl⟩
  | parse name text =>
    refine hkeeps (keeps_slot fun slot hslot => ?_)
    obtain ⟨hstamp, hsettings⟩ := slot.tokenizer.parse?_kept text
    exact keeps_put hslot hstamp hsettings
  | reset name => exact hkeeps (keeps_slot fun slot hslot => keeps_put hslot rfl rfl)

/-- **Any number of actions keep the invariant**, and the pools are those that were to be made. -/
theorem sound_run (actions : List Action) : (run {} actions).Sound ∧
    (run {} actions).madeWith = actions.filterMap Action.poolSettings? := by
  have hrun : ∀ s : Session, s.Sound → (run s actions).Sound ∧
      (run s actions).madeWith = s.madeWith ++ actions.filterMap Action.poolSettings? := by
    intro s hs
    induction actions generalizing s with
    | nil => exact ⟨hs, by simp [run]⟩
    | cons a actions ih =>
      obtain ⟨hstep, hmade⟩ := hs.step a
      obtain ⟨hsound, hall⟩ := ih (s.step a).1 hstep
      refine ⟨hsound, ?_⟩
      show (run (s.step a).1 actions).madeWith = _
      rw [hall, hmade, List.filterMap_cons]
      cases a.poolSettings? <;> simp
  exact hrun {} ⟨nofun, nofun, nofun⟩

/-! ## What a caller sees -/

/-- **Use before makes no difference.**  After any actions, the next parse by any tokenizer gives
the tokens, the shape and the error that a new tokenizer with its settings would give, wherever that
one wants no more room than the limit, and room is refused only where the new one's is.  What is
taken out of a pool, for a time or by a lease, has the settings that the pool was made with and
holds nothing.  And tokens and error depend on two of the settings only, as long as the others do
not ask for more room than there can be. -/
theorem reuse_invisible (actions : List Action) :
    (∀ name slot text, (run {} actions).slot? name = some slot →
      let fresh : Tokenizer := { settings := slot.tokenizer.settings }
      (fresh.wanted text ≤ Room.limit → ∃ parsed, (fresh.parse? text).1 = some parsed ∧
        ((run {} actions).step (.parse name text)).2.parsed = some parsed) ∧
      (((run {} actions).step (.parse name text)).2.refused → (fresh.parse? text).1 = none)) ∧
    (∀ name index settings, (actions.filterMap Action.poolSettings?)[index]? = some settings →
      ∀ a ∈ [Action.checkout name index, .lease name index],
        ∃ slot, ((run {} actions).step a).1.slot? name = some slot ∧
          slot.tokenizer.settings = settings.tokenizer ∧ slot.tokenizer.IsClean) ∧
    (∀ (t u : Tokenizer) (text : Bytes), t.wanted text ≤ max t.capacity Room.limit →
      u.wanted text ≤ max u.capacity Room.limit →
      t.settings.maxDepth = u.settings.maxDepth →
      t.settings.allowsSeveral = u.settings.allowsSeveral →
      ∃ parsed other, (t.parse? text).1 = some parsed ∧ (u.parse? text).1 = some other ∧
        parsed.tokens = other.tokens ∧ parsed.error = other.error) := by
  obtain ⟨hsound, hmade⟩ := sound_run actions
  refine ⟨?_, ?_, ?_⟩
  · intro name slot text hslot fresh
    have hparse : (slot.tokenizer.parse text).1 = (fresh.parse text).1 :=
      slot.tokenizer.parse_eq_parse_new text
    have hwanted : slot.tokenizer.wanted text = fresh.wanted text :=
      Tokenizer.wanted_congr rfl text
    simp only [Session.step, hslot]
    constructor
    · intro hroom
      refine ⟨(fresh.parse text).1, ?_, ?_⟩
      · apply Tokenizer.parse?_eq_some_iff.2
        exact ⟨by omega, rfl⟩
      · apply Tokenizer.parse?_eq_some_iff.2
        exact ⟨by omega, hparse⟩
    · intro hrefused
      have hnone := Tokenizer.parse?_eq_none_iff.1 (Option.isNone_iff_eq_none.1 hrefused)
      apply Tokenizer.parse?_eq_none_iff.2
      show max 0 Room.limit < fresh.wanted text
      omega
  · intro name index settings hindex a ha
    rw [← hmade, madeWith, origins, List.map_map, List.getElem?_map] at hindex
    obtain ⟨pool, hpool, rfl⟩ := Option.map_eq_some_iff.1 hindex
    obtain ⟨hsettings, hclean, -⟩ := (hsound.clean pool (List.mem_of_getElem? hpool)).taken
    have htaken : ∀ lender, ∃ slot,
        ((run {} actions).takeOut name index lender).1.slot? name = some slot ∧
          slot.tokenizer.settings = pool.settings.tokenizer ∧ slot.tokenizer.IsClean :=
      fun lender => ⟨_, takeOut_slot? hpool lender, hsettings, hclean⟩
    simp only [List.mem_cons, List.not_mem_nil, or_false] at ha
    rcases ha with rfl | rfl
    · exact htaken none
    · exact htaken (some index)
  · intro t u text ht hu hdepth hseveral
    have hlimits : t.settings.limits = u.settings.limits := by
      simp [TokenizerSettings.limits, hdepth, hseveral]
    refine ⟨(t.parse text).1, (u.parse text).1, ?_, ?_, Tokenizer.parse_congr hlimits text⟩
    · exact Tokenizer.parse?_eq_some_iff.2 ⟨ht, rfl⟩
    · exact Tokenizer.parse?_eq_some_iff.2 ⟨hu, rfl⟩

/-- A lease on which the text `[1x` fails scans the text `1` like a new tokenizer.  Once dropped, it
is given out again with nothing in it.  The two other settings in the end have no say. -/
theorem reuse_invisible_lease :
    (∃ slot, (run {} [.makePool {}, .lease "a" 0, .parse "a" [0x5B, 0x31, 0x78]]).slot? "a" =
        some slot ∧ slot.tokenizer.unclosed = [.array] ∧
      ∃ parsed, (({ settings := slot.tokenizer.settings } : Tokenizer).parse? [0x31]).1 =
          some parsed ∧
        ((run {} [.makePool {}, .lease "a" 0, .parse "a" [0x5B, 0x31, 0x78]]).step
          (.parse "a" [0x31])).2.parsed = some parsed) ∧
    (∃ slot, ((run {} [.makePool {}, .lease "a" 0, .parse "a" [0x5B, 0x31, 0x78], .drop "a"]).step
        (.lease "a" 0)).1.slot? "a" = some slot ∧
      slot.tokenizer.settings = {} ∧ slot.tokenizer.IsClean) ∧
    ∃ parsed other, (({} : Tokenizer).parse? [0x5B, 0x31, 0x78]).1 = some parsed ∧
      (({ settings := { detectsShape := false, initialCapacity := 0 } } : Tokenizer).parse?
        [0x5B, 0x31, 0x78]).1 = some other ∧
      parsed.tokens = other.tokens ∧ parsed.error = other.error := by
  have hslot : (run {} [.makePool {}, .lease "a" 0, .parse "a" [0x5B, 0x31, 0x78]]).slot? "a" =
      some ⟨⟨{}, [⟨.opening .array, 0, 0, 1⟩, ⟨.number, 1, 1, 1⟩], [.array], some .notLarge, 64,
        some 1⟩, some 0⟩ := by decide
  refine ⟨⟨_, hslot, rfl, ?_⟩, ?_, ?_⟩
  · exact ((reuse_invisible _).1 "a" _ [0x31] hslot).1 (by decide)
  · exact (reuse_invisible
      [.makePool {}, .lease "a" 0, .parse "a" [0x5B, 0x31, 0x78], .drop "a"]).2.1
        "a" 0 {} rfl (.lease "a" 0) (by simp)
  · exact (reuse_invisible []).2.2 {} _ _ (by decide) (by decide) rfl rfl

/-- With room for the largest count of tokens, which is past the limit, the text `1` has no result;
with the room that is usual it has one token.  So the initial capacity has a say. -/
theorem exists_refused_by_capacity :
    let t : Tokenizer := { settings := { initialCapacity := maxCount } }
    (t.parse? [0x31]).1 = none ∧
    (({} : Tokenizer).parse? [0x31]).1 = some ⟨[⟨.number, 0, 0, 1⟩], .notLarge, none⟩ ∧
    ¬ ∀ (t u : Tokenizer) (text : Bytes), t.settings.maxDepth = u.settings.maxDepth →
      t.settings.allowsSeveral = u.settings.allowsSeveral →
      (t.parse? text).1.map Parsed.tokens = (u.parse? text).1.map Parsed.tokens := by
  intro t
  have hrefused : (t.parse? [0x31]).1 = none := by decide
  have hfound : (({} : Tokenizer).parse? [0x31]).1 =
      some ⟨[⟨.number, 0, 0, 1⟩], .notLarge, none⟩ := by decide
  refine ⟨hrefused, hfound, ?_⟩
  intro h
  have hsame := h t {} [0x31] rfl rfl
  rw [hrefused, hfound] at hsame
  cases hsame

end Session

end FlatJson
