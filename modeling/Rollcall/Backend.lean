import Rollcall.Error
import Rollcall.Time
import Rollcall.Watch

/-!
What every backend offers: a versioned store of keys and values with prefix
queries, counters, renewed registrations and watches. A backend acts on a state
`σ`, of which callers see only what the operations answer.
-/

namespace Rollcall

/-- A call ends with an error of the domain, or is cut off because a number left
its range. -/
inductive Failure where
  | error (e : Error)
  | crash
deriving DecidableEq, Repr

/-- A computation that answers or fails, and leaves a state either way. -/
abbrev Call (σ α : Type) : Type := ExceptT Failure (StateM σ) α

namespace Call

variable {σ α : Type}

def of (f : σ → Except Failure α × σ) : Call σ α := f

def exec (c : Call σ α) (s : σ) : Except Failure α × σ := c s

def fail (e : Error) : Call σ α := of (fun s => (.error (.error e), s))

/-- The call on a part of a larger state. -/
def focus {τ : Type} (view : τ → σ) (store : σ → τ → τ) (c : Call σ α) : Call τ α :=
  of (fun t =>
    let (answer, s) := c.exec (view t)
    (answer, store s t))

end Call

structure Backend (σ : Type) where
  kind : String
  /-- A zero time to live stands for none. -/
  set : String → String → Span → Call σ Unit
  get : Scope → Call σ Listing
  /-- An absent key is deleted with success. -/
  delete : String → Call σ Unit
  /-- Counts from one. -/
  increment : String → Call σ Int
  /-- Every later change in order, or a refresh where that cannot be kept. -/
  watch : Scope → Int → Call σ Nat
  /-- Sets a value and renews it until it is deleted or the backend closes. -/
  keepAlive : String → String → Span → Call σ Unit
  close : σ → σ
  receive : Nat → σ → Received × σ
  dropWatch : Nat → σ → σ

/-- The backend as a part of a larger state. -/
def Backend.focus {σ τ : Type} (view : τ → σ) (store : σ → τ → τ) (b : Backend σ) :
    Backend τ where
  kind := b.kind
  set key value ttl := (b.set key value ttl).focus view store
  get scope := (b.get scope).focus view store
  delete key := (b.delete key).focus view store
  increment key := (b.increment key).focus view store
  watch scope version := (b.watch scope version).focus view store
  keepAlive key value ttl := (b.keepAlive key value ttl).focus view store
  close t := store (b.close (view t)) t
  receive id t :=
    let (found, s) := b.receive id (view t)
    (found, store s t)
  dropWatch id t := store (b.dropWatch id (view t)) t

end Rollcall
