import Rollcall.Backend
import Rollcall.Node.Codec

/-!
Registering nodes: a component's next id comes from its counter in the backend;
unless the registration is isolated, the node is published under its key and
kept alive there. The registry remembers which nodes this process has
published, one for each component.
-/

namespace Rollcall

structure RegisterOptions where
  isolate : Bool
  ttl : Option Span
  subServices : List String
deriving DecidableEq, Repr

structure Registry where
  defaultTtl : Span
  published : Table String Node
deriving DecidableEq

namespace Registry

variable {σ : Type}

def create (defaultTtl : Span) : Registry := ⟨defaultTtl, ∅⟩

def register (b : Backend σ) (component address : String) (options : RegisterOptions)
    (r : Registry) (s : σ) : Except Failure Int × Registry × σ :=
  let ttl := options.ttl.getD r.defaultTtl
  if !options.isolate && ttl.isZero then
    (.error (.error (.config ("registration ttl for " ++ component ++ " must be positive"))), r, s)
  else
    match (b.increment (Key.nodeId component)).exec s with
    | (.error f, s) => (.error f, r, s)
    | (.ok id, s) =>
        if options.isolate then (.ok id, r, s)
        else
          let node := (Node.create component address id ttl).withSubServices options.subServices
          match (b.keepAlive (Key.service component address) node.encode ttl).exec s with
          | (.error f, s) => (.error f, r, s)
          | (.ok (), s) => (.ok id, { r with published := r.published.insert component node }, s)

/-- The node is forgotten before the backend is asked to delete its key. -/
def unregister (b : Backend σ) (component : String) (r : Registry) (s : σ) :
    Except Failure (Option Node) × Registry × σ :=
  match r.published.get? component with
  | none => (.ok none, r, s)
  | some node =>
      let r := { r with published := r.published.erase component }
      match (b.delete (Key.service node.service node.address)).exec s with
      | (.error f, s) => (.error f, r, s)
      | (.ok (), s) => (.ok (some node), r, s)

def node? (r : Registry) (component : String) : Option Node :=
  r.published.get? component

def nodes (r : Registry) : List Node := r.published.values

end Registry

end Rollcall
