import Rollcall.Table
import Rollcall.Time
import Rollcall.Watch

/-!
A versioned store in memory. Each change raises the revision by one, is
published to the watches that cover its key, and is kept in a history of bounded
length, from which a watch can be replayed. `compacted` is the highest version
that the history has lost.
-/

namespace Rollcall

structure Entry where
  value : String
  version : Int
  deadline : Option Instant
deriving DecidableEq, Repr

def Entry.isOverdue (now : Instant) (e : Entry) : Bool :=
  match e.deadline with
  | some d => d ≤ now
  | none => false

/-- The revision has no upper end here. Counted in 64 bits it would end after `2 ^ 63` changes,
which no run makes. -/
structure Store where
  revision : Int
  compacted : Int
  historyLimit : Nat
  entries : Table String Entry
  history : List Change
  channels : Channels
deriving DecidableEq

namespace Store

/-- The history holds at least one change. -/
def create (historyLimit : Nat) : Store :=
  ⟨0, 0, max historyLimit 1, ∅, [], .none⟩

def defaultHistoryLimit : Nat := 1024

/-- Drops changes from the front until at most `limit` are left; with the highest
version lost so far. -/
def trim (limit : Nat) : Int → List Change → Int × List Change
  | compacted, [] => (compacted, [])
  | compacted, c :: rest =>
      if limit < rest.length + 1 then trim limit c.version rest else (compacted, c :: rest)

def publish (s : Store) (c : Change) : Store :=
  let kept := trim s.historyLimit s.compacted (s.history ++ [c])
  { s with channels := s.channels.publish c, compacted := kept.1, history := kept.2 }

def put (s : Store) (key value : String) (deadline : Option Instant) : Store :=
  let version := s.revision + 1
  publish
    { s with revision := version, entries := s.entries.insert key ⟨value, version, deadline⟩ }
    ⟨.update, ⟨key, value, version⟩⟩

/-- Removing an absent key changes nothing. -/
def remove (s : Store) (key : String) : Store :=
  match s.entries.get? key with
  | none => s
  | some e =>
      let version := s.revision + 1
      publish { s with revision := version, entries := s.entries.erase key }
        ⟨.delete, ⟨key, e.value, version⟩⟩

def overdue (s : Store) (now : Instant) : List String :=
  (s.entries.filter (fun _ e => e.isOverdue now)).keys

/-- Removes what is overdue, in ascending order of keys. -/
def expire (s : Store) (now : Instant) : Store :=
  (s.overdue now).foldl remove s

/-- A renewal that finds its value moves the deadline and publishes nothing; one
that does not writes it again. -/
def renew (s : Store) (key value : String) (deadline : Option Instant) : Store :=
  match s.entries.get? key with
  | some e =>
      if e.value = value then
        { s with entries := s.entries.insert key { e with deadline } }
      else s.put key value deadline
  | none => s.put key value deadline

def dropCovered (revision : Int) : Int → List Change → Int × List Change
  | compacted, [] => (compacted, [])
  | compacted, c :: rest =>
      if c.version ≤ revision then dropCovered revision c.version rest
      else (compacted, c :: rest)

/-- Forgets the history up to `revision`, and never counts more as lost than the
store has had. -/
def compact (s : Store) (revision : Int) : Store :=
  let kept := dropCovered revision s.compacted s.history
  let compacted := if kept.1 < revision then min revision s.revision else kept.1
  { s with compacted, history := kept.2 }

def toPair (row : String × Entry) : Pair := ⟨row.1, row.2.value, row.2.version⟩

/-- Keys with one prefix stand together, and the prefix itself would be the first
of them. -/
def scan (s : Store) (scope : Scope) : List Pair :=
  if scope.wholePrefix then
    ((s.entries.rows.dropWhile (fun row => row.1 < scope.key)).takeWhile
      (fun row => Key.startsWith scope.key row.1)).map toPair
  else
    match s.entries.get? scope.key with
    | some e => [toPair (scope.key, e)]
    | none => []

/-- The changes after `version` that the scope covers. -/
def replay (s : Store) (scope : Scope) (version : Int) : List Event :=
  (s.history.filter (fun c => version < c.version && scope.covers c.pair.key)).map Event.change

/-- What a watch from `version` is sent at once: the changes it has missed, or a
refresh if the history no longer has them all. -/
def backlog (s : Store) (scope : Scope) (version : Int) : List Event :=
  if version < s.compacted then [.refresh] else s.replay scope version

def watch (s : Store) (scope : Scope) (version : Int) : Nat × Store :=
  let (id, channels) := s.channels.add scope (s.backlog scope version)
  (id, { s with channels })

end Store

end Rollcall
