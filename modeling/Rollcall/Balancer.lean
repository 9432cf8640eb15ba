import Rollcall.Picker
import Rollcall.Table

/-!
Balancing over the connections that are ready. The balancer follows the state of
each; whenever that may change which are ready, or replace one of them, it
builds a new picker. A picker handed out before goes on with its own list.
-/

namespace Rollcall

inductive Connectivity where
  | idle
  | connecting
  | ready
  | transientFailure
  | shutdown
deriving DecidableEq, Repr

structure SubConnection (γ : Type) where
  connection : γ
  state : Connectivity
deriving DecidableEq, Repr

def SubConnection.isReady {γ : Type} (s : SubConnection γ) : Bool := s.state = .ready

/-- `generation` counts the pickers built so far. -/
structure Balancer (γ : Type) where
  subConnections : Table String (SubConnection γ)
  picker : Picker γ
  generation : Nat

namespace Balancer

variable {γ : Type}

def empty : Balancer γ := ⟨∅, .build [] 0, 0⟩

/-- The ready connections, in ascending order of their addresses. -/
def ready (b : Balancer γ) : List γ :=
  (b.subConnections.values.filter SubConnection.isReady).map SubConnection.connection

def rebuild (b : Balancer γ) (chance : Nat) : Balancer γ :=
  { b with picker := .build b.ready chance, generation := b.generation + 1 }

def isReady (b : Balancer γ) (address : String) : Bool :=
  ((b.subConnections.get? address).map SubConnection.isReady).getD false

/-- A connection that is shut down is forgotten. -/
def update (b : Balancer γ) (address : String) (connection : γ) (state : Connectivity)
    (chance : Nat) : Balancer γ :=
  let subConnections :=
    if state = .shutdown then b.subConnections.erase address
    else b.subConnections.insert address ⟨connection, state⟩
  let next := { b with subConnections }
  if b.isReady address || state = .ready then next.rebuild chance else next

def remove (b : Balancer γ) (address : String) (chance : Nat) : Balancer γ :=
  let next := { b with subConnections := b.subConnections.erase address }
  if b.isReady address then next.rebuild chance else next

/-- Forgets every other address. -/
def retain (b : Balancer γ) (addresses : List String) (chance : Nat) : Balancer γ :=
  let subConnections := b.subConnections.filter (fun address _ => addresses.contains address)
  let next := { b with subConnections }
  if subConnections.size = b.subConnections.size then next else next.rebuild chance

def pick (b : Balancer γ) : Except Error γ × Balancer γ :=
  let (picked, picker) := b.picker.pick
  (picked, { b with picker })

def readyCount (b : Balancer γ) : Nat := b.picker.size

end Balancer

end Rollcall
