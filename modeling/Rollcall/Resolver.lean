import Rollcall.Membership

/-!
Resolvers: each follows one target and tells its connection the addresses that
the cache gives for it. A builder makes resolvers and, as a listener of the
cache, has those of a changed component resolve again.
-/

namespace Rollcall

/-- What a connection is told. -/
inductive Push where
  | addresses (addresses : List String)
  | error (e : Error)
deriving DecidableEq, Repr

def Target.addresses (t : Target) (m : Membership) : List String :=
  m.select (.ofString t.selector.toString)

/-- The addresses of the target, or that there are none. -/
def Target.resolve (t : Target) (m : Membership) : Push :=
  match t.addresses m with
  | [] => .error (.unavailable t.selector.toString)
  | found => .addresses found

/-- The resolvers that are notified, by id. -/
structure ResolverBuilder where
  scheme : String
  active : Table Nat Target
  nextId : Nat
deriving DecidableEq

namespace ResolverBuilder

def create (scheme : String) : ResolverBuilder := ⟨scheme, ∅, 1⟩

/-- A target that does not parse leaves the builder as it is. -/
def build (b : ResolverBuilder) (target : String) :
    Except Error (Nat × Target × ResolverBuilder) :=
  (Target.parse target b.scheme).map (fun t =>
    (b.nextId, t, { b with active := b.active.insert b.nextId t, nextId := b.nextId + 1 }))

def close (b : ResolverBuilder) (id : Nat) : ResolverBuilder :=
  { b with active := b.active.erase id }

/-- The resolvers that a change of a service concerns. -/
def affected (b : ResolverBuilder) (service : String) : List (Nat × Target) :=
  (b.active.filter (fun _ t => t.selector.component = service)).rows

end ResolverBuilder

end Rollcall
