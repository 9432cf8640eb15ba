import Rollcall.Backoff
import Rollcall.Table

/-!
A pool of connections, one for each target. Getting a connection runs in steps:
a look at the pool, attempts to connect with delays between them, and the
insertion of what came of it. Several gets may run side by side; of those that
connect to one target the last to insert wins.
-/

namespace Rollcall

/-- How targets are checked and connected to, over a state that connecting
changes. -/
structure Connector (σ γ : Type) where
  validate : String → Except Error Unit
  connect : String → σ → Except Error γ × σ

structure Pool (γ : Type) where
  connections : Table String γ

namespace Pool

variable {γ : Type}

def empty : Pool γ := ⟨∅⟩

def contains (p : Pool γ) (target : String) : Bool := p.connections.contains target

def size (p : Pool γ) : Nat := p.connections.size

/-- What a get answers without connecting: the connection of a target that has one, or
the fault of a target that is none. -/
def answer? (p : Pool γ) (validate : String → Except Error Unit) (target : String) :
    Option (Except Error γ) :=
  match p.connections.get? target with
  | some connection => some (.ok connection)
  | none =>
      match validate target with
      | .ok () => none
      | .error e => some (.error e)

/-- Gives up all connections; they are disconnected in the order of their
targets. -/
def close (p : Pool γ) : List γ × Pool γ := (p.connections.values, empty)

end Pool

/-- How far a get has come. It counts the attempts that have failed. -/
inductive Getting (γ : Type) where
  | looking
  | dialing (failures : Nat)
  | connecting (failures : Nat) (outcome : Except Error γ)
  | resting (failures : Nat) (wakeAt : Instant)
  | finished (result : Except Error γ)

namespace Getting

variable {σ γ : Type}

/-- What gets act on: the pool, and the state of its connector. -/
structure Shared (σ γ : Type) where
  pool : Pool γ
  state : σ

/-- After a failure: give up, or rest until the next attempt. -/
def afterFailure (b : Backoff) (spread : Float) (now : Instant) (failures : Nat) (e : Error) :
    Option (Getting γ) :=
  if e.isFatal || b.attempts ≤ failures + 1 then some (.finished (.error e))
  else (b.delay? failures spread).map (fun d => .resting (failures + 1) (now.after d).wake)

/-- One step; nothing if no delay can be computed. -/
def step (c : Connector σ γ) (b : Backoff) (spread : Float) (target : String) (now : Instant)
    (g : Getting γ) (s : Shared σ γ) : Option (Getting γ × Shared σ γ) :=
  match g with
  | .looking =>
      match s.pool.answer? c.validate target with
      | some result => some (.finished result, s)
      | none => some (.dialing 0, s)
  | .dialing failures =>
      let (outcome, state) := c.connect target s.state
      some (.connecting failures outcome, { s with state })
  | .connecting _ (.ok connection) =>
      some (.finished (.ok connection),
        { s with pool := ⟨s.pool.connections.insert target connection⟩ })
  | .connecting failures (.error e) =>
      (afterFailure b spread now failures e).map (fun g => (g, s))
  | .resting failures t => some (if now < t then g else .dialing failures, s)
  | .finished _ => some (g, s)

end Getting

end Rollcall
