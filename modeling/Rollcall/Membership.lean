import Rollcall.Backend
import Rollcall.Node.Codec
import Rollcall.Target

/-!
The members of every service, as a cache of what a backend holds under the
service root. A full load replaces every service, an event only the one that its
key names; a listener is told the addresses of each service that is replaced,
right after it is.
-/

namespace Rollcall

abbrev Members := Table String Node

/-- The services that have members. -/
structure Membership where
  services : Table String Members
deriving DecidableEq

structure Notice where
  service : String
  addresses : List String
deriving DecidableEq, Repr

namespace Membership

def empty : Membership := ⟨∅⟩

def members? (m : Membership) (service : String) : Option Members := m.services.get? service

/-- In ascending order, as everywhere. -/
def addresses (m : Membership) (service : String) : List String :=
  ((m.members? service).map Table.keys).getD []

def serviceNames (m : Membership) : List String := m.services.keys

/-- With a sub-service, the nodes that declare it if there are any, else all
nodes of the component. -/
def select (m : Membership) (selector : Selector) : List String :=
  match m.members? selector.component with
  | none => []
  | some members =>
      match selector.subService with
      | none => members.keys
      | some sub =>
          let serving := (members.filter (fun _ node => node.serves sub)).values.map Node.address
          if serving.isEmpty then members.keys else serving

/-- The nodes of a listing; values that are no nodes are passed over. -/
def nodesOf (listing : Listing) : List Node :=
  listing.pairs.filterMap (fun pair => (Node.decode pair.value).toOption)

/-- Of nodes with one address the last wins. -/
def byAddress (nodes : List Node) : Members :=
  Table.ofList (nodes.map (fun node => (node.address, node)))

def addNode (services : Table String Members) (node : Node) : Table String Members :=
  services.insert node.service ((services.getD node.service ∅).insert node.address node)

def byService (nodes : List Node) : Table String Members :=
  nodes.foldl addNode ∅

/-- A service without members is not kept. -/
def replace (m : Membership) (service : String) (members : Members) : Membership × Notice :=
  (⟨if members.isEmpty then m.services.erase service else m.services.insert service members⟩,
    ⟨service, members.keys⟩)

/-- What a full listing replaces: services that are gone become empty, then come
those that are there. -/
def replacements (m : Membership) (listing : Listing) : List (String × Members) :=
  let current := byService (nodesOf listing)
  ((m.serviceNames.filter (fun service => !current.contains service)).map (fun s => (s, ∅)))
    ++ current.rows

end Membership

/-- A cache in use: what it holds, on top of the state that its backend and its
listener act on. -/
structure Cached (σ : Type) where
  membership : Membership
  state : σ

/-- Told of a replaced service, a listener sees the cache as it then is. -/
abbrev Listener (σ : Type) := Membership → Notice → σ → σ

namespace Cached

variable {σ : Type}

def replace (listener : Listener σ) (c : Cached σ) (service : String) (members : Members) :
    Cached σ :=
  let (membership, notice) := c.membership.replace service members
  ⟨membership, listener membership notice c.state⟩

def replaceAll (listener : Listener σ) (c : Cached σ) (changes : List (String × Members)) :
    Cached σ :=
  changes.foldl (fun c change => c.replace listener change.1 change.2) c

/-- Loads every service; answers the version of the listing. -/
def loadAll (b : Backend σ) (listener : Listener σ) (c : Cached σ) :
    Except Failure Int × Cached σ :=
  match (b.get ⟨Key.serviceRoot, true⟩).exec c.state with
  | (.error f, state) => (.error f, { c with state })
  | (.ok listing, state) =>
      (.ok listing.version,
        replaceAll listener { c with state } (c.membership.replacements listing))

/-- Loads one service. -/
def loadService (b : Backend σ) (listener : Listener σ) (service : String) (c : Cached σ) :
    Except Failure Int × Cached σ :=
  match (b.get ⟨Key.servicePrefix service, true⟩).exec c.state with
  | (.error f, state) => (.error f, { c with state })
  | (.ok listing, state) =>
      (.ok listing.version,
        replace listener { c with state } service
          (Membership.byAddress (Membership.nodesOf listing)))

/-- Loads every service and watches from the version of that listing. -/
def refresh (b : Backend σ) (listener : Listener σ) (c : Cached σ) :
    Except Failure Nat × Cached σ :=
  match c.loadAll b listener with
  | (.error f, c) => (.error f, c)
  | (.ok version, c) =>
      let (found, state) := (b.watch ⟨Key.serviceRoot, true⟩ version).exec c.state
      (found, { c with state })

/-- A load that fails leaves the cache as it is. -/
def handle (b : Backend σ) (listener : Listener σ) (e : Event) (c : Cached σ) : Cached σ :=
  match e with
  | .refresh => (c.loadAll b listener).2
  | .change change =>
      match Key.serviceName? Key.serviceRoot change.pair.key with
      | none => c
      | some service => (c.loadService b listener service).2

end Cached

/-- The task that keeps a cache current: it follows a watch, and when that ends
waits before each attempt to load everything and watch again. -/
inductive Follower where
  | following (watch : Nat)
  | retrying (wakeAt : Instant)
  | ended
deriving DecidableEq, Repr

/-- Whether a task goes on at once or waits for time or for an event. -/
inductive Turn where
  | again
  | rest
deriving DecidableEq, Repr

namespace Follower

variable {σ : Type}

def retryAt (now : Instant) (retry : Span) : Follower := .retrying (now.after retry).wake

def ready (received : Received) : Bool := received ≠ .nothing

/-- One step. A cancelled follower closes the backend, whatever still waits. -/
def step (b : Backend σ) (listener : Listener σ) (now : Instant) (retry : Span)
    (cancelled : Bool) (f : Follower) (c : Cached σ) : Turn × Follower × Cached σ :=
  match f with
  | .ended => (.rest, .ended, c)
  | .following watch =>
      if cancelled then
        (.rest, .ended, { c with state := b.close (b.dropWatch watch c.state) })
      else
        match b.receive watch c.state with
        | (.nothing, state) => (.rest, f, { c with state })
        | (.event e, state) => (.again, f, Cached.handle b listener e { c with state })
        | (.ended, state) =>
            (.again, retryAt now retry, { c with state := b.dropWatch watch state })
  | .retrying t =>
      if cancelled then (.rest, .ended, { c with state := b.close c.state })
      else if now < t then (.rest, f, c)
      else
        match c.refresh b listener with
        | (.ok watch, c) => (.again, .following watch, c)
        | (.error (.error _), c) => (.again, retryAt now retry, c)
        | (.error .crash, c) => (.rest, .ended, c)

/-- Steps until it rests, at most `fuel` of them. -/
def run (b : Backend σ) (listener : Listener σ) (now : Instant) (retry : Span)
    (cancelled : Bool) : Nat → Follower → Cached σ → Follower × Cached σ
  | 0, f, c => (f, c)
  | fuel + 1, f, c =>
      match f.step b listener now retry cancelled c with
      | (.rest, f, c) => (f, c)
      | (.again, f, c) => run b listener now retry cancelled fuel f c

end Follower

end Rollcall
