import Rollcall.Session.Arrange
import Rollcall.Session.Discovery
import Rollcall.Session.Registration

/-!
Scripts: steps that users take one after another in a session. After each step the
session settles; then what resolvers and listeners were told since the last step
is reported. The actions of a batch follow each other with no settling between
them.
-/

namespace Rollcall.Session

inductive Action where
  /-- On the backend of the discovery named, or else on the session's own. -/
  | backend (discovery : Option String) (a : BackendAction)
  | memory (discovery : Option String) (a : MemoryAction)
  | drainWatch (name : String)
  | dropWatch (name : String)
  | scripted (a : ScriptedAction)
  | server (a : EtcdAction)
  | registry (a : RegistryAction)
  | cache (a : CacheAction)
  | resolver (a : ResolverAction)
  | discovery (a : DiscoveryAction)
  | sleep (millis : Nat)
  | unknown

inductive Step where
  | once (a : Action)
  /-- Each action with how often it is taken; its last reply counts. -/
  | batch (actions : List (Nat × Action))

/-- The reply to a step, with what was told since the step before: to resolvers by
their names, and to recording listeners by theirs. -/
structure Report where
  reply : Reply
  pushes : List (String × List Push)
  heard : List (String × List Notice)

def providerOf? (s : Session) : Option String → Option Nat
  | none => some home
  | some name => (s.discoveries.get? name).map Discovery.provider

def act (env : Environment) (s : Session) : Action → Outcome
  | .backend discovery a =>
      match s.providerOf? discovery with
      | none => some (.nothing, s)
      | some id => s.callBackend id a
  | .memory discovery a =>
      match s.providerOf? discovery with
      | none => some (.nothing, s)
      | some id => some (s.onMemory id a)
  | .drainWatch name => some (s.drainWatch name)
  | .dropWatch name => some (s.dropWatch name)
  | .scripted a => some (s.onScripted a)
  | .server a => some (s.onServer a)
  | .registry a => s.onRegistries a
  | .cache a => s.onCaches a
  | .resolver a => some (s.onResolvers a)
  | .discovery a => s.onDiscoveries env a
  | .sleep millis => some (.done, s.sleep millis)
  | .unknown => some (.nothing, s)

/-- Takes an action several times; the reply to the last. -/
def repeatAct (env : Environment) (a : Action) : Nat → Reply × Session → Outcome
  | 0, r => some r
  | n + 1, r => (r.2.act env a).bind (repeatAct env a n)

def batch (env : Environment) : List (Nat × Action) → Session → Option (List Reply × Session)
  | [], s => some ([], s)
  | (times, a) :: rest, s =>
      (repeatAct env a times (.nothing, s)).bind (fun r =>
        (batch env rest r.2).map (fun rs => (r.1 :: rs.1, rs.2)))

def take (env : Environment) (s : Session) : Step → Outcome
  | .once a => s.act env a
  | .batch actions => (batch env actions s).map (fun r => (.list r.1, r.2))

/-- What there is to report; after that it counts as seen. -/
def report (reply : Reply) (s : Session) : Report × Session :=
  let pushes := (s.resolvers.rows.map (fun row => (row.1, row.2.pushes))).filter (·.2 ≠ [])
  let heard := (s.recorders.rows.map (fun row => (row.1, row.2.heard))).filter (·.2 ≠ [])
  (⟨reply, pushes, heard⟩,
    { s with
      resolvers := s.resolvers.mapValues (fun _ r => { r with pushes := [] })
      recorders := s.recorders.mapValues (fun _ r => { r with heard := [] }) })

/-- All reports of a script, unless the process is cut off on the way. -/
def run (env : Environment) : List Step → Session → Option (List Report)
  | [], _ => some []
  | step :: rest, s =>
      (s.take env step).bind (fun r =>
        let (found, s) := r.2.settle.report r.1
        (run env rest s).map (found :: ·))

end Rollcall.Session
