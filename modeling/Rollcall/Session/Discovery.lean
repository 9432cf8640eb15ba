import Rollcall.Session.Cache
import Rollcall.Session.Resolution

/-!
Discoveries in a session: a registry, a followed cache and a builder, put
together over one backend.
-/

namespace Rollcall.Session

inductive DiscoveryAction where
  | start (name : String) (changes : List Config.Change)
  | attach (name : String) (changes : List Config.Change)
  | shutdown (name : String)

/-- How often a discovery's own backend in memory is swept. -/
def sweepInterval : Span := .ofSeconds 1

/-- Connects a new backend of the kind that the settings ask for. -/
def connect (c : Config) (s : Session) : Except Error Nat × Session :=
  match c.backend with
  | .memory =>
      let m := (Memory.create Store.defaultHistoryLimit).addSweeper s.now sweepInterval
      let (id, s) := s.addProvider (.memory m)
      (.ok id, s)
  | .etcd =>
      if s.etcdAvailable then
        match Etcd.connect c.endpoints s.server with
        | (.error e, server) => (.error e, { s with server })
        | (.ok client, server) =>
            let (id, s) := { s with server }.addProvider (.etcd client)
            (.ok id, s)
      else (.error (.config "etcd backend requires the `etcd` feature"), s)

/-- Puts a discovery together over a backend; its cache and builder get its name
too. -/
def attach (name : String) (c : Config) (provider : Nat) (s : Session) : Outcome :=
  match s.startCache provider c.watchRetryInterval with
  | (.error f, s) => .unit (.error f, s)
  | (.ok (cache, follower), s) =>
      let (builder, s) := s.addBuilder cache c.scheme
      let discovery := ⟨c, provider, .create c.ttl, cache, builder, follower⟩
      let s := { s with
        discoveries := s.discoveries.insert name discovery
        cacheNames := s.cacheNames.insert name cache }
      some (.config c, (s.nameBuilder name builder).dropUnheldBuilders)

/-- Stops the follower and waits for it, then closes the backend. -/
def shutdown (d : Discovery) (s : Session) : Session :=
  let s := if s.isEnded d.follower then s else (s.cancelFollower d.follower).settle
  let s := s.setListener d.cache none
  (s.backend d.provider).close s

def onDiscoveries (env : Environment) (s : Session) : DiscoveryAction → Outcome
  | .start name changes =>
      let c := Config.build env changes
      match c.validate with
      | .error e => some (.error e, s)
      | .ok () =>
          match s.connect c with
          | (.error e, s) => some (.error e, s)
          | (.ok provider, s) => s.attach name c provider
  | .attach name changes => s.attach name (Config.build env changes) home
  | .shutdown name =>
      match s.discoveries.get? name with
      | none => some (.nothing, s)
      | some d => some (.done, s.shutdown d)

end Rollcall.Session
