import Rollcall.Config
import Rollcall.Provider
import Rollcall.Registry
import Rollcall.Resolver

/-!
All that is alive in a process, under a clock of its own: backends, caches with
their followers, builders with their resolvers, registries, and what users have
named. Caches, builders and followers stand under ids, because a name may be
given anew while others still hold what it named before.
-/

namespace Rollcall

namespace Session

/-- Who is told of replaced services. The cache does not keep its listener alive. -/
inductive ListenerRef where
  | recorder (id : Nat)
  | builder (id : Nat)
deriving DecidableEq, Repr

structure CacheSlot where
  provider : Nat
  membership : Membership
  listener : Option ListenerRef
  retry : Span
deriving DecidableEq

/-- The task that keeps a cache current, and whether it has been told to stop. -/
structure FollowerSlot where
  cache : Nat
  cancelled : Bool
  follower : Follower
deriving DecidableEq

structure BuilderSlot where
  cache : Nat
  builder : ResolverBuilder
deriving DecidableEq

/-- A resolver with the connection it tells; `pushes` are those not yet seen. -/
structure ResolverSlot where
  builder : Nat
  id : Nat
  cache : Nat
  target : Target
  pushes : List Push
deriving DecidableEq

/-- A listener that keeps what it is told. -/
structure Recorder where
  id : Nat
  heard : List Notice
deriving DecidableEq

/-- A registry on the backend that it publishes to. -/
structure RegistrySlot where
  provider : Nat
  registry : Registry
deriving DecidableEq

/-- A whole discovery stack over one backend. -/
structure Discovery where
  config : Config
  provider : Nat
  registry : Registry
  cache : Nat
  builder : Nat
  follower : Nat

/-- A watch held by a user: the backend and the channel there. -/
structure WatchSlot where
  provider : Nat
  channel : Nat
deriving DecidableEq, Repr

end Session

structure Session where
  now : Instant
  nextId : Nat
  /-- Whether connections to etcd can be made. -/
  etcdAvailable : Bool
  server : Etcd.Server
  providers : Table Nat Provider
  caches : Table Nat Session.CacheSlot
  followers : Table Nat Session.FollowerSlot
  builders : Table Nat Session.BuilderSlot
  cacheNames : Table String Nat
  followerNames : Table String Nat
  builderNames : Table String Nat
  resolvers : Table String Session.ResolverSlot
  recorders : Table String Session.Recorder
  registries : Table String Session.RegistrySlot
  discoveries : Table String Session.Discovery
  watches : Table String Session.WatchSlot

namespace Session

/-- The backend that a process starts with. -/
def home : Nat := 0

def start (etcdAvailable : Bool) (server : Etcd.Server) (provider : Provider) : Session :=
  ⟨.start, home + 1, etcdAvailable, server, Table.empty.insert home provider,
    ∅, ∅, ∅, ∅, ∅, ∅, ∅, ∅, ∅, ∅, ∅⟩

def freshId (s : Session) : Nat × Session := (s.nextId, { s with nextId := s.nextId + 1 })

def site (id : Nat) (s : Session) : Site := ⟨s.server, s.providers.getD id default⟩

def setSite (id : Nat) (site : Site) (s : Session) : Session :=
  { s with server := site.server, providers := s.providers.insert id site.provider }

def addProvider (p : Provider) (s : Session) : Nat × Session :=
  let (id, s) := s.freshId
  (id, { s with providers := s.providers.insert id p })

/-- A backend, as one that acts on the whole session. -/
def backend (s : Session) (id : Nat) : Backend Session :=
  (Site.backend (s.site id).provider.kind s.now).focus (site id) (setSite id)

/-- A builder has the resolvers of the service resolve again. -/
def notifyResolvers (builder : Nat) (m : Membership) (notice : Notice) (s : Session) : Session :=
  let affected := ((s.builders.get? builder).map
    (fun slot => (slot.builder.affected notice.service).map Prod.fst)).getD []
  { s with resolvers := s.resolvers.mapValues (fun _ r =>
      if r.builder = builder && affected.contains r.id then
        { r with pushes := r.pushes ++ [r.target.resolve m] }
      else r) }

def notifyRecorder (recorder : Nat) (notice : Notice) (s : Session) : Session :=
  { s with recorders := s.recorders.mapValues (fun _ r =>
      if r.id = recorder then { r with heard := r.heard ++ [notice] } else r) }

/-- A listener that is no longer alive hears nothing. -/
def tell (listener : Option ListenerRef) : Listener Session := fun m notice s =>
  match listener with
  | none => s
  | some (.recorder id) => s.notifyRecorder id notice
  | some (.builder id) => s.notifyResolvers id m notice

/-- Works on a cache, with its backend and its listener. -/
def onCache {α : Type} (id : Nat) (slot : CacheSlot)
    (work : Backend Session → Listener Session → Cached Session → α × Cached Session)
    (s : Session) : α × Session :=
  let (answer, c) := work (s.backend slot.provider) (tell slot.listener) ⟨slot.membership, s⟩
  (answer, { c.state with
    caches := c.state.caches.insert id { slot with membership := c.membership } })

def membership (s : Session) (cache : Nat) : Membership :=
  ((s.caches.get? cache).map CacheSlot.membership).getD .empty

def setListener (cache : Nat) (listener : Option ListenerRef) (s : Session) : Session :=
  { s with caches := s.caches.modify cache (fun slot => { slot with listener }) }

/-- A builder lives as long as it has a name or a discovery holds it. -/
def isHeldBuilder (s : Session) (id : Nat) : Bool :=
  s.builderNames.values.contains id || s.discoveries.values.any (fun d => d.builder = id)

def dropUnheldBuilders (s : Session) : Session :=
  { s with builders := s.builders.filter (fun id _ => s.isHeldBuilder id) }

/-- Takes a resolver off its builder's list, if the builder still lives. -/
def closeResolver (r : ResolverSlot) (s : Session) : Session :=
  let close (slot : BuilderSlot) := { slot with builder := slot.builder.close r.id }
  { s with builders := s.builders.modify r.builder close }

/-- The cache behind a name: of a discovery, of a builder, or a cache itself. -/
def cacheBehind? (s : Session) (name : String) : Option Nat :=
  match s.discoveries.get? name with
  | some d => some d.cache
  | none =>
      match (s.builderNames.get? name).bind s.builders.get? with
      | some slot => some slot.cache
      | none => s.cacheNames.get? name

end Session

end Rollcall
