import Rollcall.Backend
import Rollcall.Table

/-!
A backend that does as it is told. It keeps entries and one version, answers
with failures that were queued for it, sends events only when asked to, and logs
every call. Trials of what stands on a backend run on it.
-/

namespace Rollcall

namespace Scripted

/-- A call as the log keeps it. -/
inductive Logged where
  | set (key value : String) (ttl : Span)
  | get (scope : Scope)
  | delete (key : String)
  | increment (key : String)
  | watch (scope : Scope) (version : Int)
  | keepAlive (key value : String) (ttl : Span)
  | close
deriving DecidableEq, Repr

inductive Method where
  | set
  | get
  | delete
  | increment
  | watch
  | keepAlive
  | close
deriving DecidableEq, Repr

def Logged.method : Logged → Method
  | .set .. => .set
  | .get _ => .get
  | .delete _ => .delete
  | .increment _ => .increment
  | .watch .. => .watch
  | .keepAlive .. => .keepAlive
  | .close => .close

/-- The first failure queued for a method, and the queue without it. -/
def takeFailure (method : Method) :
    List (Method × Error) → Option Error × List (Method × Error)
  | [] => (none, [])
  | failure :: rest =>
      if failure.1 = method then (some failure.2, rest)
      else
        let (found, rest) := takeFailure method rest
        (found, failure :: rest)

end Scripted

structure Scripted where
  entries : Table String String
  version : Int
  counters : Table String Int
  channels : Channels
  failures : List (Scripted.Method × Error)
  log : List Scripted.Logged
deriving DecidableEq

namespace Scripted

def create : Scripted := ⟨∅, 0, ∅, .none, [], []⟩

def put (key value : String) (s : Scripted) : Scripted :=
  { s with entries := s.entries.insert key value, version := s.version + 1 }

/-- Counts a version whether the key was there or not. -/
def remove (key : String) (s : Scripted) : Scripted :=
  { s with entries := s.entries.erase key, version := s.version + 1 }

/-- Logs a call and takes the failure that is queued for it, if any. -/
def note (call : Logged) (s : Scripted) : Option Error × Scripted :=
  let (failure, failures) := takeFailure call.method s.failures
  (failure, { s with log := s.log ++ [call], failures })

def request {α : Type} (call : Logged) (answer : Scripted → α × Scripted) : Call Scripted α :=
  .of (fun s =>
    match s.note call with
    | (some e, s) => (.error (.error e), s)
    | (none, s) =>
        let (a, s) := answer s
        (.ok a, s))

/-- Every pair carries the version of the listing. -/
def listing (scope : Scope) (s : Scripted) : Listing :=
  ⟨(s.entries.filter (fun key _ => scope.covers key)).rows.map
    (fun row => ⟨row.1, row.2, s.version⟩), s.version⟩

def count (key : String) (s : Scripted) : Int × Scripted :=
  let n := s.counters.getD key 0 + 1
  (n, { s with counters := s.counters.insert key n })

def watch (scope : Scope) (s : Scripted) : Nat × Scripted :=
  let (id, channels) := s.channels.add scope []
  (id, { s with channels })

def dropWatchers (s : Scripted) : Scripted :=
  { s with channels := s.channels.closeAll }

/-- Sends an event to every watch, whatever it covers; how many still listen. -/
def send (e : Event) (s : Scripted) : Nat × Scripted :=
  (s.channels.openCount, { s with channels := s.channels.broadcast e })

/-- Queues a failure for the next `times` calls of a method. -/
def failNext (method : Method) (times : Nat) (e : Error) (s : Scripted) : Scripted :=
  { s with failures := s.failures ++ List.replicate times (method, e) }

def takeLog (s : Scripted) : List Logged × Scripted := (s.log, { s with log := [] })

def backend : Backend Scripted where
  kind := "scripted"
  set key value ttl := request (.set key value ttl) (fun s => ((), s.put key value))
  get scope := request (.get scope) (fun s => (s.listing scope, s))
  delete key := request (.delete key) (fun s => ((), s.remove key))
  increment key := request (.increment key) (count key)
  watch scope version := request (.watch scope version) (watch scope)
  keepAlive key value ttl := request (.keepAlive key value ttl) (fun s => ((), s.put key value))
  close s := (s.note .close).2.dropWatchers
  receive id s :=
    let (found, channels) := s.channels.receive id
    (found, { s with channels })
  dropWatch id s := { s with channels := s.channels.drop id }

end Scripted

end Rollcall
