import FlatJson.Pool

/-!
# Sessions

A session is a single thread of work on any number of pools and tokenizers.  Tokenizers lie in
named slots, owned or leased; a lease gives its tokenizer back to its pool when it is dropped.

* `Action` — one thing to do.
* `Session.step` — does it; `Effect` says what came of it.
* `Session.run` — several in a row.
* `Session.dropAll` — what is left is dropped, in the order of the names.

A tokenizer that a pool refuses is lost, and the pool is as before.
-/

namespace FlatJson

/-- A tokenizer in its slot. -/
structure Slot where
  tokenizer : Tokenizer
  /-- The index of the pool that the tokenizer is leased from; none if it is owned. -/
  lender : Option Nat := none
  deriving DecidableEq, Repr

/-- The pools, in the order they were made, and the slots, in the order of their names. -/
structure Session where
  pools : List Pool := []
  slots : List (String × Slot) := []
  deriving DecidableEq, Repr

/-- One thing to do. -/
inductive Action where
  | makePool (settings : PoolSettings)
  | make (slot : String) (settings : TokenizerSettings)
  /-- Takes a tokenizer out of a pool, to be returned by hand. -/
  | checkout (slot : String) (pool : Nat)
  /-- Takes a tokenizer out of a pool, to be returned when it is dropped. -/
  | lease (slot : String) (pool : Nat)
  /-- Returns a tokenizer to a pool. -/
  | checkin (slot : String) (pool : Nat)
  | drop (slot : String)
  /-- Turns a lease into an owned tokenizer that still bears its stamp. -/
  | detach (slot : String)
  /-- Swaps the tokenizers of two slots; leases stay where they are. -/
  | swap (first second : String)
  | parse (slot : String) (text : Bytes)
  | reset (slot : String)
  deriving DecidableEq, Repr

/-- What came of an action. -/
structure Effect where
  parsed : Option Parsed := none
  /-- Whether the room for a parse was refused. -/
  refused : Bool := false
  /-- Why a pool refused a tokenizer. -/
  misuse : Option Misuse := none
  events : List Event := []
  deriving DecidableEq, Repr

namespace Session

def slot? (s : Session) (name : String) : Option Slot :=
  s.slots.lookup name

/-- Puts something into a slot, in its place by name. -/
def insertSlot (name : String) (slot : Slot) : List (String × Slot) → List (String × Slot)
  | [] => [(name, slot)]
  | (n, old) :: rest =>
    if name = n then (name, slot) :: rest
    else if name < n then (name, slot) :: (n, old) :: rest
    else (n, old) :: insertSlot name slot rest

/-- Puts something into a slot. -/
def put (s : Session) (name : String) (slot : Slot) : Session :=
  { s with slots := insertSlot name slot s.slots }

/-- Empties a slot. -/
def clear (s : Session) (name : String) : Session :=
  { s with slots := s.slots.filter (·.1 ≠ name) }

def setPool (s : Session) (index : Nat) (p : Pool) : Session :=
  { s with pools := s.pools.set index p }

/-- Gives a tokenizer that is in no slot any more to a pool. -/
def giveBack (s : Session) (index : Nat) (t : Tokenizer) : Session × Effect :=
  match s.pools[index]? with
  | none => (s, {})
  | some pool =>
    match pool.checkin t with
    | .ok (pool, events) => (s.setPool index pool, { events := events })
    | .error misuse => (s, { misuse := some misuse })

def drop (s : Session) (name : String) : Session × Effect :=
  match s.slot? name with
  | some ⟨t, some lender⟩ => (s.clear name).giveBack lender t
  | _ => (s.clear name, {})

/-- Fills a slot; what was in it is dropped. -/
def fill (s : Session) (name : String) (slot : Slot) (events : List Event) : Session × Effect :=
  let (s, effect) := s.drop name
  (s.put name slot, { effect with events := events ++ effect.events })

/-- Takes a tokenizer out of a pool into a slot. -/
def takeOut (s : Session) (name : String) (index : Nat) (lender : Option Nat) : Session × Effect :=
  match s.pools[index]? with
  | none => (s, {})
  | some pool =>
    let (t, pool, events) := pool.checkout
    (s.setPool index pool).fill name ⟨t, lender⟩ events

/-- Does one thing.  Where a slot is empty or a pool does not exist, nothing is done. -/
def step (s : Session) : Action → Session × Effect
  | .makePool settings =>
    ({ s with pools := s.pools ++ [{ id := s.pools.length + 1, settings := settings }] }, {})
  | .make name settings => s.fill name ⟨{ settings := settings }, none⟩ []
  | .checkout name index => s.takeOut name index none
  | .lease name index => s.takeOut name index (some index)
  | .checkin name index =>
    match s.slot? name with
    | none => (s, {})
    | some slot => (s.clear name).giveBack index slot.tokenizer
  | .drop name => s.drop name
  | .detach name =>
    match s.slot? name with
    | none => (s, {})
    | some slot => (s.put name { slot with lender := none }, {})
  | .swap first second =>
    match s.slot? first, s.slot? second with
    | some a, some b =>
      ((s.put first { a with tokenizer := b.tokenizer }).put second
        { b with tokenizer := a.tokenizer }, {})
    | _, _ => (s, {})
  | .parse name text =>
    match s.slot? name with
    | none => (s, {})
    | some slot =>
      let (parsed, t, events) := slot.tokenizer.parse? text
      (s.put name { slot with tokenizer := t },
        { parsed := parsed, refused := parsed.isNone, events := events })
  | .reset name =>
    match s.slot? name with
    | none => (s, {})
    | some slot => (s.put name { slot with tokenizer := slot.tokenizer.reset }, {})

def run (s : Session) (actions : List Action) : Session :=
  actions.foldl (fun s a => (s.step a).1) s

/-- Drops what is left, in the order of the names. -/
def dropAll (s : Session) : Session :=
  s.run (s.slots.map fun (name, _) => .drop name)

end Session

end FlatJson
