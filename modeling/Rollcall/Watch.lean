import Rollcall.Key

/-!
What watches deliver. A store numbers its changes by version; a watch covers a
key or all keys with a prefix, and what it is sent waits on a channel until its
receiver takes it.
-/

namespace Rollcall

structure Pair where
  key : String
  value : String
  version : Int
deriving DecidableEq, Repr

/-- An answer to a query. Its version is the store's at that moment, from which a
watch can go on without a gap. -/
structure Listing where
  pairs : List Pair
  version : Int
deriving DecidableEq, Repr

inductive ChangeKind where
  | update
  | delete
deriving DecidableEq, Repr

structure Change where
  kind : ChangeKind
  pair : Pair
deriving DecidableEq, Repr

def Change.version (c : Change) : Int := c.pair.version

/-- `refresh` says that changes may have been missed: load everything again. -/
inductive Event where
  | change (c : Change)
  | refresh
deriving DecidableEq, Repr

structure Scope where
  key : String
  wholePrefix : Bool
deriving DecidableEq, Repr

def Scope.covers (s : Scope) (key : String) : Bool :=
  if s.wholePrefix then Key.startsWith s.key key else key = s.key

/-- `isOpen` while there is still someone who may send; what has been sent stays
readable after that. -/
structure Channel where
  id : Nat
  scope : Scope
  waiting : List Event
  isOpen : Bool
deriving DecidableEq, Repr

/-- What a receiver finds. -/
inductive Received where
  | event (e : Event)
  | nothing
  | ended
deriving DecidableEq, Repr

/-- The channels whose receivers are still held, oldest first. -/
structure Channels where
  held : List Channel
  nextId : Nat
deriving DecidableEq, Repr

namespace Channels

def none : Channels := ⟨[], 0⟩

def add (cs : Channels) (scope : Scope) (waiting : List Event) : Nat × Channels :=
  (cs.nextId, ⟨cs.held ++ [⟨cs.nextId, scope, waiting, true⟩], cs.nextId + 1⟩)

def find? (cs : Channels) (id : Nat) : Option Channel :=
  cs.held.find? (fun c => c.id = id)

def update (cs : Channels) (f : Channel → Channel) : Channels :=
  { cs with held := cs.held.map f }

def sendIf (cs : Channels) (wanted : Channel → Bool) (e : Event) : Channels :=
  cs.update (fun c =>
    if c.isOpen && wanted c then { c with waiting := c.waiting ++ [e] } else c)

/-- Sends a change to every open channel that covers its key. -/
def publish (cs : Channels) (c : Change) : Channels :=
  cs.sendIf (fun ch => ch.scope.covers c.pair.key) (.change c)

def broadcast (cs : Channels) (e : Event) : Channels :=
  cs.sendIf (fun _ => true) e

def sendTo (cs : Channels) (id : Nat) (e : Event) : Channels :=
  cs.sendIf (fun c => c.id = id) e

def closeAll (cs : Channels) : Channels :=
  cs.update (fun c => { c with isOpen := false })

def close (cs : Channels) (id : Nat) : Channels :=
  cs.update (fun c => if c.id = id then { c with isOpen := false } else c)

def drop (cs : Channels) (id : Nat) : Channels :=
  { cs with held := cs.held.filter (fun c => c.id ≠ id) }

def isHeld (cs : Channels) (id : Nat) : Bool := (cs.find? id).isSome

def openCount (cs : Channels) : Nat := (cs.held.filter Channel.isOpen).length

def setWaiting (cs : Channels) (id : Nat) (waiting : List Event) : Channels :=
  cs.update (fun c => if c.id = id then { c with waiting } else c)

def receive (cs : Channels) (id : Nat) : Received × Channels :=
  match cs.find? id with
  | Option.none => (.ended, cs)
  | some c =>
      match c.waiting with
      | e :: rest => (.event e, cs.setWaiting id rest)
      | [] => (if c.isOpen then .nothing else .ended, cs)

/-- All waiting events, and whether more can come. -/
def drain (cs : Channels) (id : Nat) : Option (List Event × Bool) × Channels :=
  match cs.find? id with
  | Option.none => (Option.none, cs)
  | some c => (some (c.waiting, c.isOpen), cs.setWaiting id [])

end Channels

end Rollcall
