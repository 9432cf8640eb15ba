import Rollcall.Session.Clock
import Rollcall.Session.Reply

/-!
Caches in a session: loading and reading them, the followers that keep started
ones current, and listeners that record what they are told.
-/

namespace Rollcall.Session

inductive CacheAction where
  | create (name : String) (retry : Span)
  | start (name : String) (retry : Span)
  | loadAll (name : String)
  | loadService (name service : String)
  | services (name : String)
  | addresses (name service : String)
  | members (name service : String)
  | select (name selector : String)
  | listen (name cache : String)
  | dropListener (name : String)
  | clearListener (name : String)
  | cancel (name : String)
  | isFinished (name : String)
deriving Repr

def addCache (provider : Nat) (retry : Span) (s : Session) : Nat × Session :=
  let (id, s) := s.freshId
  (id, { s with caches := s.caches.insert id ⟨provider, .empty, none, retry⟩ })

/-- Loads a new cache and lets a follower keep it current; answers both ids. -/
def startCache (provider : Nat) (retry : Span) (s : Session) :
    Except Failure (Nat × Nat) × Session :=
  let (id, s) := s.addCache provider retry
  let (watch, s) := s.onCache id ⟨provider, .empty, none, retry⟩ (fun b listener c =>
    c.refresh b listener)
  match watch with
  | .error f => (.error f, { s with caches := s.caches.erase id })
  | .ok watch =>
      let (follower, s) := s.freshId
      (.ok (id, follower),
        { s with followers := s.followers.insert follower ⟨id, false, .following watch⟩ })

def onNamedCache {α : Type} (name : String)
    (work : Backend Session → Listener Session → Cached Session → α × Cached Session)
    (s : Session) : Option α × Session :=
  match s.cacheNames.get? name with
  | none => (none, s)
  | some id =>
      match s.caches.get? id with
      | none => (none, s)
      | some slot =>
          let (a, s) := s.onCache id slot work
          (some a, s)

/-- What a named cache holds. -/
def look (name : String) (reply : Membership → Reply) (s : Session) : Reply :=
  match s.cacheNames.get? name with
  | none => .nothing
  | some id => reply (s.membership id)

def listen (name cache : String) (s : Session) : Reply × Session :=
  match s.cacheNames.get? cache with
  | none => (.nothing, s)
  | some cache =>
      let (id, s) := s.freshId
      let s := { s with recorders := s.recorders.insert name ⟨id, []⟩ }
      (.done, s.setListener cache (some (.recorder id)))

def cancelFollower (id : Nat) (s : Session) : Session :=
  { s with followers := s.followers.modify id (fun slot => { slot with cancelled := true }) }

def isEnded (id : Nat) (s : Session) : Bool :=
  ((s.followers.get? id).map (fun slot => decide (slot.follower = .ended))).getD true

def onCaches (s : Session) : CacheAction → Outcome
  | .create name retry =>
      let (id, s) := s.addCache home retry
      some (.done, { s with cacheNames := s.cacheNames.insert name id })
  | .start name retry =>
      match s.startCache home retry with
      | (.error f, s) => .unit (.error f, s)
      | (.ok (cache, follower), s) =>
          some (.done, { s with
            cacheNames := s.cacheNames.insert name cache
            followerNames := s.followerNames.insert name follower })
  | .loadAll name =>
      .ofWork .number (s.onNamedCache name (fun b listener c => c.loadAll b listener))
  | .loadService name service =>
      .ofWork .number (s.onNamedCache name (fun b listener c => c.loadService b listener service))
  | .services name => some (s.look name (fun m => .texts m.serviceNames), s)
  | .addresses name service => some (s.look name (fun m => .texts (m.addresses service)), s)
  | .members name service =>
      some (s.look name (fun m => .ofOption .members (m.members? service)), s)
  | .select name selector =>
      some (match s.cacheBehind? name with
        | none => .nothing
        | some id => .texts ((s.membership id).select (.ofString selector)), s)
  | .listen name cache => some (s.listen name cache)
  | .dropListener name =>
      some (.flag (s.recorders.contains name), { s with recorders := s.recorders.erase name })
  | .clearListener name =>
      match s.cacheNames.get? name with
      | none => some (.nothing, s)
      | some id => some (.done, s.setListener id none)
  | .cancel name =>
      match s.followerNames.get? name with
      | none => some (.nothing, s)
      | some id => some (.done, s.cancelFollower id)
  | .isFinished name =>
      some (.ofOption (fun id => .flag (s.isEnded id)) (s.followerNames.get? name), s)

end Rollcall.Session
