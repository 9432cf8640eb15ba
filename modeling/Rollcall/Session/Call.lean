import Rollcall.Session.Reply

/-!
Direct use of a session's backends: the calls that every backend answers, and those
of the backend in memory.
-/

namespace Rollcall.Session

/-- A node to be published by hand. -/
structure Publication where
  service : String
  address : String
  uniqueId : Int
  subServices : List String
deriving DecidableEq, Repr

namespace Publication

/-- Such nodes live half a minute by their own account. -/
def nodeTtl : Span := .ofSeconds 30

def node (p : Publication) : Node :=
  (Node.create p.service p.address p.uniqueId nodeTtl).withSubServices p.subServices

def key (p : Publication) : String := Key.service p.service p.address

end Publication

inductive BackendAction where
  | kind
  | set (key value : String) (ttl : Span)
  | publish (p : Publication) (key : Option String) (ttl : Span)
  | get (scope : Scope)
  | delete (key : String)
  | increment (key : String)
  | keepAlive (key value : String) (ttl : Span)
  | close
  | watch (name : String) (scope : Scope) (version : Int)
deriving Repr

inductive MemoryAction where
  | revision
  | sweep
  | addSweeper (interval : Span)
  | compact (revision : Int)
  | refreshAll
  | watcherCount
deriving Repr

/-- Names a watch; the one that had the name is dropped. -/
def bindWatch (name : String) (slot : WatchSlot) (s : Session) : Session :=
  let s := match s.watches.get? name with
    | some old => (s.backend old.provider).dropWatch old.channel s
    | none => s
  { s with watches := s.watches.insert name slot }

def callBackend (provider : Nat) (s : Session) : BackendAction → Outcome
  | .kind => some (.text (s.backend provider).kind, s)
  | .set key value ttl => .unit (((s.backend provider).set key value ttl).exec s)
  | .publish p key ttl =>
      .unit (((s.backend provider).set (key.getD p.key) p.node.encode ttl).exec s)
  | .get scope => .ofAnswer .listing (((s.backend provider).get scope).exec s)
  | .delete key => .unit (((s.backend provider).delete key).exec s)
  | .increment key => .number (((s.backend provider).increment key).exec s)
  | .keepAlive key value ttl => .unit (((s.backend provider).keepAlive key value ttl).exec s)
  | .close => some (.done, (s.backend provider).close s)
  | .watch name scope version =>
      match ((s.backend provider).watch scope version).exec s with
      | (.ok channel, s) => some (.done, s.bindWatch name ⟨provider, channel⟩)
      | (.error f, s) => .unit (.error f, s)

def callMemory (now : Instant) (m : Memory) : MemoryAction → Reply × Memory
  | .revision => (.number m.store.revision, m)
  | .sweep =>
      let (count, m) := m.sweep now
      (.number count, m)
  | .addSweeper interval => (.done, m.addSweeper now interval)
  | .compact revision => (.done, { m with store := m.store.compact revision })
  | .refreshAll => (.done, m.refreshAll)
  | .watcherCount => (.number m.store.channels.openCount, m)

def onMemory (provider : Nat) (action : MemoryAction) (s : Session) : Reply × Session :=
  match s.providers.get? provider with
  | some (.memory m) =>
      let (reply, m) := callMemory s.now m action
      (reply, { s with providers := s.providers.insert provider (.memory m) })
  | _ => (.nothing, s)

/-- All that a named watch has been sent. -/
def drainWatch (name : String) (s : Session) : Reply × Session :=
  match s.watches.get? name with
  | none => (.nothing, s)
  | some slot =>
      let (found, p) := (s.providers.getD slot.provider default).drain slot.channel
      (.ofOption (fun found => .events found.1 found.2) found,
        { s with providers := s.providers.insert slot.provider p })

def dropWatch (name : String) (s : Session) : Reply × Session :=
  match s.watches.get? name with
  | none => (.flag false, s)
  | some slot =>
      let s := (s.backend slot.provider).dropWatch slot.channel s
      (.flag true, { s with watches := s.watches.erase name })

end Rollcall.Session
