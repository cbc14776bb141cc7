import FlatJson.Tokenizer

/-!
# Pools of tokenizers

A pool keeps idle tokenizers, so that their room is used again.  A tokenizer that is out of a
pool bears its number as a stamp, and only that pool takes it back.

* `Pool`, `PoolStats` — idle tokenizers and counts.
* `Pool.checkout` — takes a tokenizer out, the one returned last if any is idle.
* `Pool.checkin` — takes it back, or says why not.
-/

namespace FlatJson

/-- The counts of a pool. -/
structure PoolStats where
  /-- Tokenizers made because none was idle. -/
  created : Nat := 0
  /-- Tokenizers taken out that had been idle. -/
  reused : Nat := 0
  /-- Tokenizers returned that found no place. -/
  discarded : Nat := 0
  idle : Nat := 0
  deriving DecidableEq, Repr

/-- A pool of tokenizers. -/
structure Pool where
  /-- The number by which its tokenizers are stamped. -/
  id : Nat
  settings : PoolSettings := {}
  /-- The idle tokenizers, the one returned last first. -/
  idle : List Tokenizer := []
  created : Nat := 0
  reused : Nat := 0
  discarded : Nat := 0
  deriving DecidableEq, Repr

/-- Why a pool does not take a tokenizer. -/
inductive Misuse where
  /-- It is out of another pool. -/
  | foreign (owner pool : Nat)
  /-- It is out of no pool. -/
  | neverOut (pool : Nat)
  deriving DecidableEq, Repr

def Misuse.message : Misuse → String
  | .foreign owner pool =>
    "tokenizer checked out from pool " ++ toString owner ++ " was returned to pool " ++
      toString pool
  | .neverOut pool =>
    "tokenizer returned to pool " ++ toString pool ++ " was never checked out"

namespace Pool

def stats (p : Pool) : PoolStats :=
  ⟨p.created, p.reused, p.discarded, p.idle.length⟩

/-- Takes a tokenizer out, and stamps it. -/
def checkout (p : Pool) : Tokenizer × Pool × List Event :=
  match p.idle with
  | t :: idle =>
    ({ t with stamp := some p.id }, { p with idle := idle, reused := p.reused + 1 }, [])
  | [] =>
    ({ settings := p.settings.tokenizer, stamp := some p.id }, { p with created := p.created + 1 },
      [.tokenizerMade p.id])

/-- Keeps a tokenizer if there is a place for it. -/
def keep (p : Pool) (t : Tokenizer) : Pool × List Event :=
  let t := { t.reset with stamp := none }
  if p.idle.length < p.settings.maxIdle then ({ p with idle := t :: p.idle }, [])
  else ({ p with discarded := p.discarded + 1 }, [.tokenizerDropped p.id t.capacity])

/-- Takes a tokenizer back that is out of this pool. -/
def checkin (p : Pool) (t : Tokenizer) : Except Misuse (Pool × List Event) :=
  match t.stamp with
  | none => .error (.neverOut p.id)
  | some owner => if owner = p.id then .ok (p.keep t) else .error (.foreign owner p.id)

end Pool

end FlatJson
