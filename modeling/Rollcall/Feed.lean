import Rollcall.Endpoint
import Rollcall.Resolver
import Rollcall.Table

/-!
The feed of a balanced channel: resolved addresses become messages that insert or
remove endpoints, sent over a queue of bounded capacity. `current` is what the
messages accepted so far add up to; a message that is not accepted changes
nothing and is tried again by a later update.
-/

namespace Rollcall

inductive FeedMessage where
  | insert (address : String) (endpoint : Endpoint)
  | remove (address : String)
deriving DecidableEq, Repr

structure Feed where
  capacity : Nat
  queue : List FeedMessage
  isOpen : Bool
  /-- The addresses, in ascending order. -/
  current : Table String Unit
  lastError : Option Error

namespace Feed

/-- The queue takes at least one message. -/
def create (capacity : Nat) : Feed := ⟨max capacity 1, [], true, ∅, none⟩

def accepts (f : Feed) : Bool := f.isOpen && f.queue.length < f.capacity

def remove (f : Feed) (address : String) : Feed :=
  if f.accepts then
    { f with queue := f.queue ++ [.remove address], current := f.current.erase address }
  else f

/-- An address without an endpoint is passed over. -/
def insert (f : Feed) (address : String) : Feed :=
  match Endpoint.ofAddress? address with
  | none => f
  | some endpoint =>
      if f.accepts then
        { f with
          queue := f.queue ++ [.insert address endpoint]
          current := f.current.insert address () }
      else f

def addressSet (addresses : List String) : Table String Unit :=
  Table.ofList (addresses.map (fun address => (address, ())))

/-- What is gone is removed before what is new is inserted. -/
def update (f : Feed) (addresses : List String) : Feed :=
  let wanted := addressSet addresses
  let f := { f with lastError := none }
  let f := (f.current.keys.filter (fun address => !wanted.contains address)).foldl remove f
  (wanted.keys.filter (fun address => !f.current.contains address)).foldl insert f

/-- The endpoints stay. -/
def report (f : Feed) (e : Error) : Feed := { f with lastError := some e }

def close (f : Feed) : Feed := { f with queue := [], isOpen := false }

/-- Takes at most `max` messages off the queue. -/
def drain (f : Feed) (max : Nat) : List FeedMessage × Feed :=
  (f.queue.take max, { f with queue := f.queue.drop max })

/-- A connection tells the feed what it is told. -/
def push (f : Feed) : Push → Feed
  | .addresses addresses => f.update addresses
  | .error e => f.report e

end Feed

end Rollcall
