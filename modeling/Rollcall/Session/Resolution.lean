import Rollcall.Session.Reply

/-!
Builders and resolvers in a session. A resolver stays with its name, and goes on
telling its connection when asked, also after it is closed.
-/

namespace Rollcall.Session

inductive ResolverAction where
  | createBuilder (name cache scheme : String)
  | scheme (builder : String)
  | dropBuilder (name : String)
  | build (name builder target : String)
  | resolve (name : String)
  | close (name : String)
  | drop (name : String)
  | activeCount (builder : String)
deriving Repr

/-- A new builder becomes the listener of its cache. -/
def addBuilder (cache : Nat) (scheme : String) (s : Session) : Nat × Session :=
  let (id, s) := s.freshId
  (id, { s with builders := s.builders.insert id ⟨cache, .create scheme⟩ }.setListener cache
    (some (.builder id)))

def nameBuilder (name : String) (id : Nat) (s : Session) : Session :=
  { s with builderNames := s.builderNames.insert name id }

def namedBuilder? (s : Session) (name : String) : Option (Nat × BuilderSlot) :=
  (s.builderNames.get? name).bind (fun id => (s.builders.get? id).map (fun slot => (id, slot)))

/-- Resolves at once. A resolver that had the name is dropped. -/
def buildResolver (name : String) (builder : Nat) (slot : BuilderSlot) (target : String)
    (s : Session) : Reply × Session :=
  match slot.builder.build target with
  | .error e => (.error e, s)
  | .ok (id, target, b) =>
      let s := { s with builders := s.builders.insert builder { slot with builder := b } }
      let s := match s.resolvers.get? name with
        | some old => s.closeResolver old
        | none => s
      let pushes := [target.resolve (s.membership slot.cache)]
      (.target target,
        { s with
          resolvers := s.resolvers.insert name ⟨builder, id, slot.cache, target, pushes⟩ })

def resolve (r : ResolverSlot) (s : Session) : ResolverSlot :=
  { r with pushes := r.pushes ++ [r.target.resolve (s.membership r.cache)] }

def onResolvers (s : Session) : ResolverAction → Reply × Session
  | .createBuilder name cache scheme =>
      match s.cacheNames.get? cache with
      | none => (.nothing, s)
      | some cache =>
          let (id, s) := s.addBuilder cache scheme
          (.done, (s.nameBuilder name id).dropUnheldBuilders)
  | .scheme name =>
      (.ofOption (fun found => .text found.2.builder.scheme) (s.namedBuilder? name), s)
  | .dropBuilder name =>
      (.flag (s.builderNames.contains name),
        { s with builderNames := s.builderNames.erase name }.dropUnheldBuilders)
  | .build name builder target =>
      match s.namedBuilder? builder with
      | none => (.nothing, s)
      | some (id, slot) => s.buildResolver name id slot target
  | .resolve name =>
      match s.resolvers.get? name with
      | none => (.nothing, s)
      | some r => (.done, { s with resolvers := s.resolvers.insert name (s.resolve r) })
  | .close name =>
      match s.resolvers.get? name with
      | none => (.nothing, s)
      | some r => (.done, s.closeResolver r)
  | .drop name =>
      match s.resolvers.get? name with
      | none => (.flag false, s)
      | some r => (.flag true, { s.closeResolver r with resolvers := s.resolvers.erase name })
  | .activeCount name =>
      (.ofOption (fun found => .number found.2.builder.active.size) (s.namedBuilder? name), s)

end Rollcall.Session
