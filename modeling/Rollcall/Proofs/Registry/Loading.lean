import Rollcall.Proofs.Membership.Following
import Rollcall.Proofs.Node.Written
import Rollcall.Proofs.Registry.Publishing

/-!
What a cache loads of what registries have published. A full load groups by the
service that a value names, an event and the load of one service go by the key. As
long as no other component is registered under the prefix of a service, all of them
give it the same members, whatever the timing: the nodes that stand at its keys, as
far as they have not lapsed. A component whose name has a slash in it can be in the
way (`loads_differ`). Main statement: `loads_agree`.
-/

namespace Rollcall

open Rollcall.Membership (byAddress)

namespace Memory

/-- What is stored or renewed under the service root. -/
structure Holds (m : Memory) (genuine : String → String → Prop) : Prop where
  isOpen : m.closed = false
  value : ∀ key value, Key.startsWith Key.serviceRoot key = true →
    m.store.value? key = some value → genuine key value
  renewal : ∀ r, .renewal r ∈ m.jobs → Key.startsWith Key.serviceRoot r.key = true →
    genuine r.key r.value

namespace Holds

variable {m : Memory} {genuine : String → String → Prop} {a : Action}

/-- What an action writes under the root must be genuine, as a renewal only writes what has
been registered. -/
theorem act (h : m.Holds genuine) (now : Instant) (ha : a ≠ .close)
    (hwrites : ∀ key value, Key.startsWith Key.serviceRoot key = true → a.writes key value →
      genuine key value) : (m.act now a).Holds genuine where
  isOpen := isOpen_act h.isOpen ha now
  value := by
    intro key value hroot hvalue
    rcases value_act m now a key with hsame | ⟨-, hnone⟩ | ⟨other, -, hother, hwritten⟩ |
      ⟨_, r, -, hjob, -, rfl, hrenewed⟩
    · exact h.value key value hroot (hsame ▸ hvalue)
    · rw [hnone] at hvalue
      cases hvalue
    · obtain rfl := Option.some.inj (hwritten.symm.trans hvalue)
      exact hwrites key other hroot hother
    · obtain rfl := Option.some.inj (hrenewed.symm.trans hvalue)
      exact h.renewal r (List.mem_of_getElem? hjob) hroot
  renewal := by
    intro r hr hroot
    rcases renewal_origin hr with ⟨r₀, hr₀, hbecomes⟩ | ⟨-, rfl, -, -⟩
    · rw [hbecomes.key, hbecomes.value]
      exact h.renewal r₀ hr₀ (hbecomes.key ▸ hroot)
    · exact hwrites r.key r.value hroot ⟨rfl, rfl⟩

theorem others (h : m.Holds genuine) (now : Instant) (hforeign : a.isForeign = true) :
    (m.act now a).Holds genuine :=
  h.act now (Action.ne_close_of_foreign hforeign) fun _ value hroot hwrites =>
    absurd hwrites (Action.not_writes_of_foreign hforeign hroot value)

end Holds

end Memory

namespace Loading

open Following (onMemory beside)
open Publishing (Move World)

/-- Written for a node of the service, or for one whose key has another prefix. -/
def Genuine (service key value : String) : Prop :=
  ∃ n : Node, n.HasId64 ∧ n.key = key ∧ n.encode = value ∧
    (Key.startsWith (Key.servicePrefix service) key = true → n.service = service)

/-- No other component is registered under the prefix of the service, and others keep
away. -/
def apart (service : String) (_ : World) (_ : Instant) : Move → Bool
  | .register _ component address options =>
      options.isolate || component = service ||
        !Key.startsWith (Key.servicePrefix service) (Key.service component address)
  | .unregister _ _ => true
  | .backend a => a.isForeign

section

variable {w : World} {service : String} {now : Instant} {move : Move}

/-- One move of a registry or of others, as long as no other component is registered under
the prefix. -/
theorem holds_step (h : w.memory.Holds (Genuine service))
    (hapart : apart service w now move = true) :
    (w.step now move).memory.Holds (Genuine service) := by
  have hcounted (component : String) :
      (w.memory.act now (.increment (Key.nodeId component))).Holds (Genuine service) := by
    apply h.others
    simp only [Memory.Action.isForeign, Key.startsWith_root_nodeId, Bool.not_false]
  have heffect := World.step_effect h.isOpen now move
  generalize w.step now move = w' at heffect ⊢
  cases heffect with
  | beside hbeside =>
      cases hbeside with
      | idle => exact h
      | act a => exact h.others now hapart
      | count i component address options => exact hcounted component
      | sweep i component address options => exact (hcounted component).others (a := .sweep) now rfl
  | publish ttl deadline hr hisolate hservice hkey hid hm hrenewing =>
      rename_i i r component address options n m
      subst hm
      refine (hcounted component).act (a := .keepAlive n.key n.encode ttl) now
        Memory.Action.noConfusion ?_
      rintro key value hroot ⟨rfl, rfl⟩
      refine ⟨n, hid, rfl, rfl, fun hprefix => ?_⟩
      simp only [apart, hisolate, Bool.false_or, ← hkey, hprefix, Bool.not_true, Bool.or_false,
        decide_eq_true_iff] at hapart
      rw [hservice, hapart]
  | withdraw hr hn =>
      rename_i i r component n
      exact h.act (a := .delete n.key) now Memory.Action.noConfusion
        (fun _ _ _ hwrites => hwrites.elim)

/-- So under the prefix of the service only its own nodes ever stand, whatever expires and
is renewed. -/
theorem holds_run {moves : List (Instant × Move)} (h : w.memory.Holds (Genuine service))
    (hapart : w.Along (apart service) moves) : (w.run moves).memory.Holds (Genuine service) := by
  induction moves generalizing w with
  | nil => exact h
  | cons move rest ih => exact ih (holds_step h hapart.1) hapart.2

theorem separates_of_holds {m : Memory} (h : m.Holds (Genuine service)) :
    m.store.Separates service := by
  intro key e node hentry hroot hdecode
  have hvalue : m.store.value? key = some e.value := by rw [Store.value?, hentry]; rfl
  obtain ⟨n, hid, rfl, hencode, hservice⟩ := h.value key e.value hroot hvalue
  rw [← hencode, Node.decode_encode hid] at hdecode
  obtain rfl := Except.ok.inj hdecode
  refine ⟨rfl, hservice, ?_⟩
  rintro rfl
  exact Key.startsWith_servicePrefix _ _

/-- Where the nodes that stand are kept, the members of a service are its own. -/
theorem member_iff {m : Memory} {standing : Table String Node} (hkeeps : m.Keeps standing)
    (hseparates : m.store.Separates service) {address : String} {node : Node} :
    (byAddress (m.store.nodesUnder (Key.servicePrefix service))).get? address = some node ↔
      ∃ n, standing.get? n.key = some n ∧ n.service = service ∧ n.address = address ∧
        n.written = node := by
  have hdecode {n : Node} (hstands : standing.get? n.key = some n) :
      ∃ e, m.store.entries.get? n.key = some e ∧ Node.decode e.value = .ok n.written := by
    have hid := (hkeeps.keyed n.key n hstands).2
    have hstored := hkeeps.stored n.key (hkeeps.startsWith_root hstands)
    rw [hstands, Store.value?, Option.map_some, Option.map_eq_some_iff] at hstored
    obtain ⟨e, hentry, hvalue⟩ := hstored
    exact ⟨e, hentry, by rw [hvalue, Node.decode_encode hid]⟩
  rw [hseparates.member_eq, Option.bind_eq_some_iff]
  constructor
  · rintro ⟨e, hentry, hnode⟩
    have hroot := Key.startsWith_root_service service address
    have hstored := hkeeps.stored _ hroot
    rw [Store.value?, hentry, Option.map_some] at hstored
    obtain ⟨n, hstands, -⟩ := Option.map_eq_some_iff.mp hstored.symm
    have hkey := (hkeeps.keyed _ n hstands).1
    rw [← hkey] at hstands hentry
    obtain ⟨e', hentry', hwritten⟩ := hdecode hstands
    obtain rfl := Option.some.inj (hentry.symm.trans hentry')
    rw [hwritten] at hnode
    obtain rfl := Option.some.inj hnode
    have hprefix := Key.startsWith_servicePrefix service address
    rw [← hkey] at hprefix hroot
    obtain rfl := (hseparates n.key e n.written hentry hroot hwritten).2.mp hprefix
    exact ⟨n, hstands, rfl, Key.address_injective hkey, rfl⟩
  · rintro ⟨n, hstands, rfl, rfl, rfl⟩
    obtain ⟨e, hentry, hwritten⟩ := hdecode hstands
    exact ⟨e, hentry, by rw [hwritten]; rfl⟩

end

/-- The three ways to load a service leave the same members, whatever the cache held
before: those of its nodes that are stored and have not lapsed. Where renewals come
in time and heed their stop, these are all the nodes of the service that stand. -/
theorem loads_agree (limit : Nat) (ttls : List Span) (service : String)
    {moves : List (Instant × Move)}
    (hapart : (World.start limit ttls).Along (apart service) moves) (now : Instant) :
    let w := (World.start limit ttls).run moves
    ∃ members : Members,
      (∀ address, members.get? address =
        ((w.memory.store.expire now).value? (Key.service service address)).bind
          (fun value => (Node.decode value).toOption)) ∧
      ((World.start limit ttls).Along World.orderly moves → w.memory.onTime now = true →
        ∀ address node, members.get? address = some node ↔
          ∃ n, w.standing.get? n.key = some n ∧ n.service = service ∧ n.address = address ∧
            n.written = node) ∧
      ∀ {τ : Type} (listener : Listener τ) (t : τ) (membership : Membership),
        let cached : Cached (Memory × τ) := ⟨membership, (w.memory, t)⟩
        (∃ version cache, cached.loadAll (onMemory now) (beside listener) = (.ok version, cache) ∧
          cache.membership.members? service = members.present?) ∧
        (∃ version cache,
          cached.loadService (onMemory now) (beside listener) service = (.ok version, cache) ∧
          cache.membership.members? service = members.present?) ∧
        (Key.IsServiceName service →
          ∀ change : Change, Key.startsWith (Key.servicePrefix service) change.pair.key = true →
            (cached.handle (onMemory now) (beside listener) (.change change)).membership.members?
              service = members.present?) := by
  intro w
  have hstart : (World.start limit ttls).memory.Holds (Genuine service) :=
    ⟨rfl, nofun, nofun⟩
  have hholds : w.memory.Holds (Genuine service) := holds_run hstart hapart
  have hload : (w.memory.act now (.get Following.everything)).store = w.memory.store.expire now :=
    Following.store_act_get hholds.isOpen now _
  have hloaded : (w.memory.store.expire now).Separates service := by
    rw [← hload]
    exact separates_of_holds (hholds.others now rfl)
  refine ⟨byAddress ((w.memory.store.expire now).nodesUnder (Key.servicePrefix service)),
    ?_, ?_, ?_⟩
  · intro address
    rw [hloaded.member_eq, Store.value?, Option.bind_map]
    rfl
  · intro horderly htime address node
    have hkeeps : w.memory.Keeps w.standing :=
      World.keeps_run (Memory.Keeps.create limit) horderly
    have hkept := hkeeps.others (a := .get Following.everything) rfl rfl htime
    rw [← hload] at hloaded ⊢
    exact member_iff hkept hloaded
  · intro τ listener t membership cached
    have hmembers := hloaded.get?_byService
    refine ⟨?_, ?_, ?_⟩
    · obtain ⟨cache, hload, -, hservices⟩ :=
        Following.loadAll_spec hholds.isOpen listener t membership now
      refine ⟨_, cache, hload, ?_⟩
      rw [Membership.members?, hservices, hmembers]
      rfl
    · obtain ⟨version, cache, hload, -, hreplaced⟩ :=
        Following.loadService_spec hholds.isOpen listener t membership now service
      refine ⟨version, cache, hload, ?_⟩
      rw [hreplaced, Membership.members?_replace, if_pos rfl]
    · intro hname change hprefix
      obtain ⟨version, cache, hload, -, hreplaced⟩ :=
        Following.loadService_spec hholds.isOpen listener t membership now service
      simp only [cached, Cached.handle, Key.serviceName?_of_startsWith hname hprefix, hload]
      rw [hreplaced, Membership.members?_replace, if_pos rfl]

/-- A registered component, loaded on an event after another has been withdrawn. -/
theorem loads_agree_registered :
    let w₀ := World.start 8 [.ofSeconds 30]
    let cached : Cached (Memory × Unit) :=
      ⟨.empty, ((w₀.run Publishing.sampleMoves).memory, ())⟩
    let now : Instant := ⟨12 * nanosPerSecond⟩
    let handled := cached.handle (onMemory now) (beside fun _ _ t => t)
      (.change ⟨.update, ⟨"service/b/y", "", 4⟩⟩)
    w₀.Along (apart "b") Publishing.sampleMoves ∧
      w₀.Along World.orderly Publishing.sampleMoves ∧
      (handled.membership.members? "b").bind (fun members => members.get? "y") =
        some ⟨.ofSeconds 30, 1, "b", "y", ∅⟩ := by
  intro w₀ cached now handled
  have hapart : w₀.Along (apart "b") Publishing.sampleMoves := by
    refine ⟨?_, ?_, ?_, ?_, ?_, ?_, trivial⟩ <;> decide +kernel
  have horderly : w₀.Along World.orderly Publishing.sampleMoves := by
    refine ⟨?_, ?_, ?_, ?_, ?_, ?_, trivial⟩ <;> decide +kernel
  refine ⟨hapart, horderly, ?_⟩
  obtain ⟨members, -, hstanding, hloads⟩ := loads_agree 8 [.ofSeconds 30] "b" hapart now
  have hmember : members.get? "y" = some ⟨.ofSeconds 30, 1, "b", "y", ∅⟩ := by
    refine (hstanding horderly (by decide +kernel) "y" _).mpr ⟨⟨.ofSeconds 30, 1, "b", "y", ∅⟩, ?_⟩
    decide +kernel
  have hhandled : handled.membership.members? "b" = members.present? :=
    (hloads (fun _ _ t => t) () .empty).2.2 (by decide) _ (by decide)
  rw [hhandled, Members.present?_bind, hmember]

/-- A component with a slash in its name stands under the prefix of another one: the
other is loaded with its node, a full load keeps the two apart, and an event of its key
does not load it. -/
theorem loads_differ :
    let w := (World.start 8 [.ofSeconds 30]).run [
      (⟨0⟩, .register 0 "a/b" "x" Publishing.sampleOptions),
      (⟨0⟩, .register 0 "a" "y" Publishing.sampleOptions)]
    let cached : Cached (Memory × Unit) := ⟨.empty, (w.memory, ())⟩
    let full := (cached.loadAll (onMemory ⟨0⟩) (beside fun _ _ t => t)).2.membership
    let alone := (cached.loadService (onMemory ⟨0⟩) (beside fun _ _ t => t) "a").2.membership
    let handled := (cached.handle (onMemory ⟨0⟩) (beside fun _ _ t => t)
      (.change ⟨.update, ⟨"service/a/b/x", "", 2⟩⟩)).membership
    alone.addresses "a" = ["x", "y"] ∧ full.addresses "a" = ["y"] ∧
      full.addresses "a/b" = ["x"] ∧ handled.addresses "a/b" = [] := by
  decide +kernel

end Loading

end Rollcall
