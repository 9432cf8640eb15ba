import Rollcall.Session.Reply

/-!
Registering nodes in a session. A registry stands by itself, on the backend that
the session started with, or is part of a discovery.
-/

namespace Rollcall.Session

inductive RegistryAction where
  | create (name : String) (defaultTtl : Span)
  | register (name component address : String) (options : RegisterOptions)
  | unregister (name component : String)
  | node (name component : String)
  | nodes (name : String)
deriving Repr

/-- Works on a registry, which stands by itself or in a discovery. -/
def onRegistry {α : Type} (name : String)
    (work : Backend Session → Registry → Session → α × Registry × Session) (s : Session) :
    Option α × Session :=
  match s.registries.get? name with
  | some slot =>
      let (a, registry, s) := work (s.backend slot.provider) slot.registry s
      (some a, { s with registries := s.registries.insert name { slot with registry } })
  | none =>
      match s.discoveries.get? name with
      | some d =>
          let (a, registry, s) := work (s.backend d.provider) d.registry s
          (some a, { s with discoveries := s.discoveries.insert name { d with registry } })
      | none => (none, s)

def onRegistries (s : Session) : RegistryAction → Outcome
  | .create name defaultTtl =>
      some (.done, { s with registries := s.registries.insert name ⟨home, .create defaultTtl⟩ })
  | .register name component address options =>
      .ofWork .number
        (s.onRegistry name (fun b r s => r.register b component address options s))
  | .unregister name component =>
      .ofWork (Reply.ofOption .node) (s.onRegistry name (fun b r s => r.unregister b component s))
  | .node name component =>
      .ofWork (Reply.ofOption .node)
        (s.onRegistry name (fun _ r s => (.ok (r.node? component), r, s)))
  | .nodes name =>
      .ofWork .nodes (s.onRegistry name (fun _ r s => (.ok r.nodes, r, s)))

end Rollcall.Session
