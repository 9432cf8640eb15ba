import Rollcall.Proofs.Membership.Following
import Rollcall.Proofs.Membership.Selecting
import Rollcall.Proofs.Registry.Publishing
import Rollcall.Proofs.Target.Written

/-!
Which services can be resolved by name. A registry publishes any name and a cache lists it,
but a selector ends its component at the first dot and a target its scheme at the first
colon. So a name without a dot selects the service, and it has a target, bare if no colon is
in it and behind the scheme otherwise; a name with a dot is a component and a sub-service,
and it names another service (`dotted_unresolved`). Main statements: `exists_target_iff` and
`resolved_by_name`.
-/

namespace Rollcall

namespace Membership

variable {m : Membership} {service : String}

theorem mem_serviceNames :
    service ∈ m.serviceNames ↔ ∃ members, m.members? service = some members := by
  rw [serviceNames, Table.mem_keys, Table.contains, Option.isSome_iff_exists, members?]

theorem select_of_not_dotted (m : Membership) (h : '.' ∉ service.toList) :
    m.select (.ofString service) = m.addresses service := by
  rw [Selector.ofString_of_splits (.whole h), select, addresses]
  cases m.members? service <;> rfl

theorem Reached.addresses_ne_nil (h : Reached m) (hlisted : service ∈ m.serviceNames) :
    m.addresses service ≠ [] := by
  obtain ⟨members, hmembers⟩ := mem_serviceNames.mp hlisted
  rw [addresses, hmembers]
  exact Members.keys_ne_nil (h.keyed.nonempty service members hmembers)

end Membership

namespace Target

variable {scheme service : String}

theorem parse_bare_name (hdot : '.' ∉ service.toList) (hne : service ≠ "")
    (hcolon : ':' ∉ service.toList) (scheme : String) :
    parse service scheme = .ok ⟨scheme, service, none⟩ :=
  parse_eq_ok_iff.mpr ⟨rfl, hne, .bare hcolon (.whole hdot)⟩

/-- Written behind the scheme, a name may have colons in it, as the first colon is that of
the scheme; but it must not begin with a slash. -/
theorem parse_name_behind (hdot : '.' ∉ service.toList) (hne : service ≠ "")
    (hscheme : ':' ∉ scheme.toList) (hslash : Slashless service) :
    parse (toString ⟨scheme, service, none⟩) scheme = .ok ⟨scheme, service, none⟩ := by
  rw [toString_eq]
  exact parse_eq_ok_iff.mpr ⟨rfl, hne, .behind hscheme slashes_three hslash (.whole hdot)⟩

/-- The names that are components of targets: those that are not empty and have no dot in
them, and can be written bare, without a colon, or behind the scheme, without a slash in
front. -/
theorem exists_target_iff :
    (∃ text t, parse text scheme = .ok t ∧ t.selector.component = service) ↔
    service ≠ "" ∧ '.' ∉ service.toList ∧
      (':' ∉ service.toList ∨ ':' ∉ scheme.toList ∧ Slashless service) := by
  constructor
  · rintro ⟨text, t, h, rfl⟩
    obtain ⟨-, hne, hspells⟩ := parse_eq_ok_iff.mp h
    refine ⟨hne, (isRead_of_parse h).component, ?_⟩
    cases hspells with
    | bare hbare hsplits => exact .inl fun hcolon => hbare (hsplits.mem_of_component hcolon)
    | behind hscheme hslashes hrest hsplits =>
        exact .inr ⟨hscheme, (hsplits.slashless_iff hne).mpr hrest⟩
  · rintro ⟨hne, hdot, hcolon | ⟨hscheme, hslash⟩⟩
    · exact ⟨_, _, parse_bare_name hdot hne hcolon scheme, rfl⟩
    · exact ⟨_, _, parse_name_behind hdot hne hscheme hslash, rfl⟩

/-- The target with a name for its component resolves to the members of that service. -/
theorem resolve_of_not_dotted {m : Membership} (h : '.' ∉ service.toList)
    (hsome : m.addresses service ≠ []) (scheme : String) :
    resolve ⟨scheme, service, none⟩ m = .addresses (m.addresses service) := by
  have haddresses : addresses ⟨scheme, service, none⟩ m = m.addresses service :=
    m.select_of_not_dotted h
  rw [resolve, haddresses]
  split
  · rename_i hnone
    exact absurd hnone hsome
  · rfl

/-- How a listed service is resolved by its name: without a dot the name selects the service,
and it is a target, bare or behind the scheme. The name that is empty is refused as a component.
With a dot it is the component of no target, and who the members of the service are does not
matter to it. -/
structure ByName (m : Membership) (scheme service : String) : Prop where
  selected : '.' ∉ service.toList → m.select (.ofString service) = m.addresses service
  resolved : '.' ∉ service.toList →
    resolve ⟨scheme, service, none⟩ m = .addresses (m.addresses service)
  bare : '.' ∉ service.toList → service ≠ "" → ':' ∉ service.toList →
    parse service scheme = .ok ⟨scheme, service, none⟩
  behind : '.' ∉ service.toList → service ≠ "" → ':' ∉ scheme.toList → Slashless service →
    parse (scheme ++ ":///" ++ service) scheme = .ok ⟨scheme, service, none⟩
  empty : service = "" →
    ∀ text t, parse text scheme = .ok t → t.selector.component ≠ service
  dotted : '.' ∈ service.toList →
    ∀ text t, parse text scheme = .ok t → t.selector.component ≠ service
  elsewhere : '.' ∈ service.toList → ∀ members,
    (m.replace service members).1.select (.ofString service) = m.select (.ofString service)

/-- Whatever has been loaded into a cache, each service that it lists is resolved by its name as
far as the grammar of targets reads that name as a component. A listed service has members, so
its target never reports that it is unavailable. -/
theorem resolved_by_name {m : Membership} (h : m.Reached) (hlisted : service ∈ m.serviceNames)
    (scheme : String) : ByName m scheme service where
  selected := m.select_of_not_dotted
  resolved hdot := resolve_of_not_dotted hdot (h.addresses_ne_nil hlisted) scheme
  bare hdot hne hcolon := parse_bare_name hdot hne hcolon scheme
  behind := parse_name_behind
  empty := by
    rintro hempty text t hparse rfl
    obtain ⟨hne, -⟩ := exists_target_iff.mp ⟨text, t, hparse, rfl⟩
    exact hne hempty
  dotted := by
    rintro hdot text t hparse rfl
    exact (isRead_of_parse hparse).component hdot
  elsewhere := by
    intro hdot members
    refine Membership.select_replace_of_ne fun hcomponent => ?_
    have hfree := (Selector.isRead_ofString service).component
    rw [hcomponent] at hfree
    exact hfree hdot

end Target

namespace Naming

open Following (onMemory beside)
open Publishing (World sampleOptions)

/-- A cache of a backend on which two components have been registered. -/
def published (first second : String) : Cached (Memory × Unit) :=
  let w := (World.start 8 [.ofSeconds 30]).run [
    (⟨0⟩, .register 0 first "x" sampleOptions), (⟨0⟩, .register 0 second "y" sampleOptions)]
  ⟨.empty, (w.memory, ())⟩

def listening : Listener (Memory × Unit) := beside fun _ _ t => t

/-- A name with a colon is resolved behind its scheme; one with a dot is listed beside it,
and is the component of no target. -/
theorem resolved_by_name_published :
    let m := ((published "b:c" "a.b").loadAll (onMemory ⟨0⟩) listening).2.membership
    m.Reached ∧ m.serviceNames = ["a.b", "b:c"] ∧
      Target.parse "d:///b:c" "d" = .ok ⟨"d", "b:c", none⟩ ∧
      Target.resolve ⟨"d", "b:c", none⟩ m = .addresses ["x"] ∧
      ∀ text t, Target.parse text "d" = .ok t → t.selector.component ≠ "a.b" := by
  intro m
  have hreached : m.Reached :=
    .step .empty (.loadAll (onMemory ⟨0⟩) listening (published "b:c" "a.b"))
  have ⟨hnames, haddresses⟩ : m.serviceNames = ["a.b", "b:c"] ∧ m.addresses "b:c" = ["x"] := by
    decide +kernel
  have hlisted (service : String) (h : service ∈ ["a.b", "b:c"]) : service ∈ m.serviceNames :=
    hnames ▸ h
  have hcolon := Target.resolved_by_name hreached (hlisted "b:c" (by decide)) "d"
  have hdotted := Target.resolved_by_name hreached (hlisted "a.b" (by decide)) "d"
  refine ⟨hreached, hnames, ?_, ?_, hdotted.dotted (by decide)⟩
  · exact hcolon.behind (by decide) (by decide) (by decide) (by decide)
  · rw [hcolon.resolved (by decide), haddresses]

/-- A name with a dot is listed, and selects nothing; the name that is empty is listed if it
is loaded, and has no target. -/
theorem dotted_unresolved :
    let full := ((published "a.b" "/c").loadAll (onMemory ⟨0⟩) listening).2.membership
    let unnamed := ((published "a.b" "/c").loadService (onMemory ⟨0⟩) listening "").2.membership
    (full.serviceNames = ["/c", "a.b"] ∧ full.addresses "a.b" = ["x"] ∧
      full.select (.ofString "a.b") = [] ∧
      ∀ text scheme t, Target.parse text scheme = .ok t → t.selector.component ≠ "a.b") ∧
    unnamed.serviceNames = [""] ∧
      ∀ text scheme t, Target.parse text scheme = .ok t → t.selector.component ≠ "" := by
  intro full unnamed
  have ⟨hnames, haddresses, hselected⟩ : full.serviceNames = ["/c", "a.b"] ∧
      full.addresses "a.b" = ["x"] ∧ full.select (.ofString "a.b") = [] := by
    decide +kernel
  refine ⟨⟨hnames, haddresses, hselected, ?_⟩, by decide +kernel, ?_⟩
  · intro text scheme t hparse hcomponent
    have hfree := (Target.isRead_of_parse hparse).component
    rw [hcomponent] at hfree
    exact hfree (by decide)
  · intro text scheme t hparse
    exact (Target.parse_eq_ok_iff.mp hparse).2.1

end Naming

end Rollcall
