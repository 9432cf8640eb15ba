import Rollcall.Error

/-!
Picking connections in turn. A picker serves one list of connections; over any
stretch as long as the list it picks each of them once.
-/

namespace Rollcall

structure Picker (γ : Type) where
  connections : List γ
  next : Nat
deriving DecidableEq, Repr

namespace Picker

variable {γ : Type}

/-- Any number is a start: what is beyond the end goes round. -/
def startingAt (connections : List γ) (start : Nat) : Picker γ :=
  ⟨connections, start % connections.length⟩

/-- Starts where chance has it. -/
def build (connections : List γ) (chance : Nat) : Picker γ := startingAt connections chance

def size (p : Picker γ) : Nat := p.connections.length

def isEmpty (p : Picker γ) : Bool := p.connections.isEmpty

def pick (p : Picker γ) : Except Error γ × Picker γ :=
  match p.connections[p.next]? with
  | none => (.error .noReadyConnection, p)
  | some c => (.ok c, { p with next := (p.next + 1) % p.connections.length })

/-- The next `n` picks. -/
def picks : Nat → Picker γ → List (Except Error γ) × Picker γ
  | 0, p => ([], p)
  | n + 1, p =>
      let (first, p) := p.pick
      let (rest, p) := picks n p
      (first :: rest, p)

end Picker

end Rollcall
