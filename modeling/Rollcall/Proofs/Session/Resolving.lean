import Rollcall.Proofs.Membership.Grouping
import Rollcall.Proofs.Target
import Rollcall.Session.Cache
import Rollcall.Session.Resolution

/-!
Resolvers of a builder that is the listener of its cache and stays alive. A cache
replaces one service at a time, and the builder at once has the resolvers of that
component resolve again; the answer of any other depends on members that did not
change. So whatever loads, builds and closings follow each other, each active
resolver has last told its connection what the cache gives for its target. Nothing is
reported in between: the pushes of a resolver are all that its connection was told.
Main statements: `resolvers_follow`, and that a load through a backend is made of
single replacements, `load_parts`.
-/

namespace Rollcall

namespace Resolving

open Session

inductive Move where
  /-- One service is replaced, alone or in the course of a full load. -/
  | replace (service : String) (members : Members)
  | loadAll
  | loadService (service : String)
  | build (name target : String)
  | resolve (name : String)
  | close (name : String)
  | drop (name : String)
  /-- Time passes, and backends and servers change. -/
  | beside (now : Instant) (server : Etcd.Server) (providers : Table Nat Provider)

/-- A user's work on the cache. -/
def onCache {α : Type} (cache : Nat)
    (work : Backend Session → Listener Session → Cached Session → α × Cached Session)
    (s : Session) : Session :=
  match s.caches.get? cache with
  | some slot => (s.onCache cache slot work).2
  | none => s

def step (cache builder : Nat) (s : Session) : Move → Session
  | .replace service members =>
      onCache cache (fun _ listener c => ((), c.replace listener service members)) s
  | .loadAll => onCache cache (fun b listener c => c.loadAll b listener) s
  | .loadService service => onCache cache (fun b listener c => c.loadService b listener service) s
  | .build name target =>
      match s.builders.get? builder with
      | some slot => (s.buildResolver name builder slot target).2
      | none => s
  | .resolve name => (s.onResolvers (.resolve name)).2
  | .close name => (s.onResolvers (.close name)).2
  | .drop name => (s.onResolvers (.drop name)).2
  | .beside now server providers => { s with now, server, providers }

def run (cache builder : Nat) (s : Session) (moves : List Move) : Session :=
  moves.foldl (step cache builder) s

/-- What a user does to a resolver, other than closing it. -/
def Move.isFor (name : String) : Move → Prop
  | .build other _ | .resolve other | .drop other => other = name
  | _ => False

/-- What a load is made of. -/
def Move.isPart : Move → Prop
  | .replace _ _ | .beside _ _ _ => True
  | _ => False

/-- What a connection is told where the cache gives these addresses. -/
def answer (selector : Selector) : List String → Push
  | [] => .error (.unavailable selector.toString)
  | found => .addresses found

/-- A resolver of the builder was built for a target that parses and, as long as it is
notified, was last told what the cache gives. -/
structure Told (cache : Nat) (b : ResolverBuilder) (m : Membership) (r : ResolverSlot) : Prop where
  cache_eq : r.cache = cache
  id_lt : r.id < b.nextId
  last : ∀ target, b.active.get? r.id = some target →
    r.target = target ∧ (∃ text, Target.parse text b.scheme = .ok target) ∧
      r.pushes.getLast? = some (target.resolve m)

/-- The builder listens to its cache, and each resolver that it notifies has a
connection. -/
structure Follows (cache builder : Nat) (b : ResolverBuilder) (s : Session) : Prop where
  listens : ∃ slot, s.caches.get? cache = some slot ∧ slot.listener = some (.builder builder)
  alive : s.builders.get? builder = some ⟨cache, b⟩
  listed : ∀ id target, b.active.get? id = some target →
    ∃ name r, s.resolvers.get? name = some r ∧ r.builder = builder ∧ r.id = id
  told : ∀ name r, s.resolvers.get? name = some r → r.builder = builder →
    Told cache b (s.membership cache) r

/-- The builder still follows; what it had closed stays closed, and those resolvers
are told nothing, except those that are touched. -/
structure Leads (cache builder : Nat) (touched : String → Prop) (b : ResolverBuilder) (s : Session)
    (b' : ResolverBuilder) (s' : Session) : Prop where
  follows : Follows cache builder b' s'
  scheme : b'.scheme = b.scheme
  nextId_le : b.nextId ≤ b'.nextId
  closed : ∀ id, id < b.nextId → b.active.get? id = none → b'.active.get? id = none
  untouched : ∀ name r, s.resolvers.get? name = some r → r.builder = builder →
    b.active.get? r.id = none → ¬ touched name → s'.resolvers.get? name = some r

section

variable {cache builder : Nat} {b b' b'' : ResolverBuilder} {s s' s'' : Session}
  {touched : String → Prop} {m : Membership} {r : ResolverSlot}

namespace Leads

theorem refl (h : Follows cache builder b s) : Leads cache builder touched b s b s where
  follows := h
  scheme := rfl
  nextId_le := Nat.le_refl _
  closed := fun _ _ hclosed => hclosed
  untouched := fun _ _ hr _ _ _ => hr

/-- What two stretches of a run do to a resolver that neither touches, they do together. -/
theorem trans (h : Follows cache builder b s) (hfirst : Leads cache builder touched b s b' s')
    (hsecond : Leads cache builder touched b' s' b'' s'') :
    Leads cache builder touched b s b'' s'' where
  follows := hsecond.follows
  scheme := hsecond.scheme.trans hfirst.scheme
  nextId_le := Nat.le_trans hfirst.nextId_le hsecond.nextId_le
  closed := fun id hid hclosed =>
    hsecond.closed id (Nat.lt_of_lt_of_le hid hfirst.nextId_le) (hfirst.closed id hid hclosed)
  untouched := fun name r hr hbuilder hclosed hname =>
    hsecond.untouched name r (hfirst.untouched name r hr hbuilder hclosed hname) hbuilder
      (hfirst.closed r.id (h.told name r hr hbuilder).id_lt hclosed) hname

theorem mono {more : String → Prop} (h : Leads cache builder touched b s b' s')
    (hmore : ∀ name, touched name → more name) : Leads cache builder more b s b' s' where
  follows := h.follows
  scheme := h.scheme
  nextId_le := h.nextId_le
  closed := h.closed
  untouched := fun name r hr hbuilder hclosed hname =>
    h.untouched name r hr hbuilder hclosed (fun htouched => hname (hmore name htouched))

end Leads

theorem membership_eq {slot : CacheSlot} (h : s.caches.get? cache = some slot) :
    s.membership cache = slot.membership := by
  simp only [membership, h, Option.map_some, Option.getD_some]

/-- The resolvers that hear of a change are the active ones whose component it is. -/
theorem mem_affected {service : String} {id : Nat} :
    id ∈ (b.affected service).map Prod.fst ↔
      ∃ target, b.active.get? id = some target ∧ target.selector.component = service := by
  simp only [ResolverBuilder.affected, Table.filter, List.mem_map, List.mem_filter, Prod.exists,
    ← Table.get?_eq_some_iff, decide_eq_true_iff]
  constructor
  · rintro ⟨_, target, ⟨hactive, hcomponent⟩, rfl⟩
    exact ⟨target, hactive, hcomponent⟩
  · rintro ⟨target, hactive, hcomponent⟩
    exact ⟨id, target, ⟨hactive, hcomponent⟩, rfl⟩

def heard (builder : Nat) (b : ResolverBuilder) (m : Membership) (service : String)
    (r : ResolverSlot) : ResolverSlot :=
  if r.builder = builder && ((b.affected service).map Prod.fst).contains r.id then
    { r with pushes := r.pushes ++ [r.target.resolve m] }
  else r

theorem heard_builder (service : String) (r : ResolverSlot) :
    (heard builder b m service r).builder = r.builder := by
  unfold heard
  split <;> rfl

theorem heard_id (service : String) (r : ResolverSlot) :
    (heard builder b m service r).id = r.id := by
  unfold heard
  split <;> rfl

theorem heard_of_closed {service : String} (h : b.active.get? r.id = none) :
    heard builder b m service r = r := by
  refine if_neg ?_
  rw [Bool.and_eq_true, List.contains_iff_mem, mem_affected]
  rintro ⟨-, target, hactive, -⟩
  exact absurd (h.symm.trans hactive) nofun

/-- A resolver whose component is replaced resolves again; for any other the answer
stays. -/
theorem Told.heard {service : String} {members : Members} (h : Told cache b m r)
    (hbuilder : r.builder = builder) :
    Told cache b (m.replace service members).1
      (heard builder b (m.replace service members).1 service r) := by
  unfold Resolving.heard
  split
  · refine ⟨h.cache_eq, h.id_lt, ?_⟩
    intro target hactive
    obtain ⟨htarget, hparsed, -⟩ := h.last target hactive
    refine ⟨htarget, hparsed, ?_⟩
    rw [List.getLast?_concat, htarget]
  · rename_i hunheard
    refine ⟨h.cache_eq, h.id_lt, ?_⟩
    intro target hactive
    obtain ⟨htarget, ⟨text, hparsed⟩, hlast⟩ := h.last target hactive
    have hne : target.selector.component ≠ service := by
      intro hcomponent
      apply hunheard
      rw [Bool.and_eq_true, List.contains_iff_mem, mem_affected]
      exact ⟨decide_eq_true hbuilder, target, hactive, hcomponent⟩
    refine ⟨htarget, ⟨text, hparsed⟩, ?_⟩
    rw [hlast, Target.resolve_replace_of_ne hparsed hne]

/-- Where the builder listens to the cache, a replacement has every resolver of that
component resolve again, and changes nothing else of the session. -/
theorem step_replace {slot : CacheSlot} (hslot : s.caches.get? cache = some slot)
    (hlistener : slot.listener = some (.builder builder))
    (hbuilder : s.builders.get? builder = some ⟨cache, b⟩) (service : String) (members : Members) :
    let m := (slot.membership.replace service members).1
    step cache builder s (.replace service members) =
      { s with
        resolvers := s.resolvers.mapValues (fun _ r => heard builder b m service r)
        caches := s.caches.insert cache { slot with membership := m } } := by
  simp only [step, onCache, hslot, Session.onCache, Cached.replace, hlistener, Session.tell,
    notifyResolvers, hbuilder, Option.map_some, Option.getD_some]
  rfl

/-- After any replacement each resolver that is notified was last told what the cache gives:
those of the component just now, the others before. -/
theorem Follows.replace (h : Follows cache builder b s) (service : String) (members : Members) :
    Leads cache builder (fun _ => False) b s b
      (step cache builder s (.replace service members)) := by
  obtain ⟨slot, hslot, hlistener⟩ := h.listens
  rw [step_replace hslot hlistener h.alive]
  let m := (slot.membership.replace service members).1
  have hmembership : ({ s with
      resolvers := s.resolvers.mapValues (fun _ r => heard builder b m service r)
      caches := s.caches.insert cache { slot with membership := m } } : Session).membership cache =
        m := by
    simp only [membership, Table.get?_insert, if_true, Option.map_some, Option.getD_some]
  have hheard (name : String) : (s.resolvers.mapValues (fun _ r => heard builder b m service r)).get?
      name = (s.resolvers.get? name).map (heard builder b m service) := Table.get?_mapValues _ _ _
  refine ⟨⟨⟨{ slot with membership := m }, ?_, hlistener⟩, h.alive, ?_, ?_⟩, rfl,
    Nat.le_refl _, fun _ _ hclosed => hclosed, ?_⟩
  · rw [Table.get?_insert, if_pos rfl]
  · intro id target hactive
    obtain ⟨name, r, hr, hbuilder, hid⟩ := h.listed id target hactive
    refine ⟨name, heard builder b m service r, ?_, ?_, ?_⟩
    · rw [hheard, hr, Option.map_some]
    · rw [heard_builder, hbuilder]
    · rw [heard_id, hid]
  · intro name r hr hbuilder
    rw [hheard] at hr
    obtain ⟨r₀, hr₀, rfl⟩ := Option.map_eq_some_iff.mp hr
    rw [heard_builder] at hbuilder
    have htold := h.told name r₀ hr₀ hbuilder
    rw [membership_eq hslot] at htold
    rw [hmembership]
    exact htold.heard hbuilder
  · intro name r hr hbuilder hclosed _
    rw [hheard, hr, Option.map_some, heard_of_closed hclosed]

theorem Follows.beside (h : Follows cache builder b s) (now : Instant) (server : Etcd.Server)
    (providers : Table Nat Provider) :
    Leads cache builder (fun _ => False) b s b
      (step cache builder s (.beside now server providers)) where
  follows := ⟨h.listens, h.alive, h.listed, h.told⟩
  scheme := rfl
  nextId_le := Nat.le_refl _
  closed := fun _ _ hclosed => hclosed
  untouched := fun _ _ hr _ _ _ => hr

/-- A cache in use, put back into its session. -/
def stored (cache : Nat) (slot : CacheSlot) (c : Cached Session) : Session :=
  { c.state with
    caches := c.state.caches.insert cache { slot with membership := c.membership } }

theorem tell_caches (listener : Option ListenerRef) (m : Membership) (notice : Notice) (s : Session)
    (caches : Table Nat CacheSlot) :
    tell listener m notice { s with caches } =
      { tell listener m notice s with caches } ∧
    (tell listener m notice s).caches = s.caches := by
  rcases listener with _ | id | id <;> exact ⟨rfl, rfl⟩

theorem step_replace_stored {slot : CacheSlot} (h : s.caches.get? cache = some slot)
    (service : String) (members : Members) :
    step cache builder s (.replace service members) = stored cache slot
      (Cached.replace (tell slot.listener) ⟨slot.membership, s⟩ service members) := by
  simp only [step, onCache, h]
  rfl

theorem stored_replace (slot : CacheSlot) (c : Cached Session) (service : String)
    (members : Members) :
    step cache builder (stored cache slot c) (.replace service members) =
      stored cache slot (c.replace (tell slot.listener) service members) := by
  have hslot : (stored cache slot c).caches.get? cache =
      some { slot with membership := c.membership } := by
    rw [stored, Table.get?_insert, if_pos rfl]
  let replaced := c.membership.replace service members
  obtain ⟨htold, hcaches⟩ := tell_caches slot.listener replaced.1 replaced.2 c.state
    (c.state.caches.insert cache { slot with membership := c.membership })
  have htold : tell slot.listener replaced.1 replaced.2 (stored cache slot c) = _ := htold
  rw [step_replace_stored hslot]
  simp only [Cached.replace, replaced] at htold hcaches ⊢
  rw [htold, stored, stored, hcaches]
  simp only [Table.insert_insert]

/-- The replacements of a load are single steps, taken one after the other. -/
theorem run_replaceAll (builder : Nat) (slot : CacheSlot) (changes : List (String × Members)) (c : Cached Session) :
    run cache builder (stored cache slot c) (changes.map (fun change => .replace change.1 change.2)) =
      stored cache slot (Cached.replaceAll (tell slot.listener) c changes) := by
  induction changes generalizing c with
  | nil => rfl
  | cons change rest ih =>
      rw [List.map_cons, run, List.foldl_cons, stored_replace]
      exact ih _

/-- A backend in a session changes the server and the backends alone. -/
theorem backend_get (s : Session) (id : Nat) (scope : Scope) :
    ∃ answer server providers, ((s.backend id).get scope).exec s =
      (answer, { s with server, providers }) :=
  ⟨_, _, _, rfl⟩

/-- A load asks its backend and then replaces services one at a time. -/
theorem load_parts (s : Session) (move : Move) (hload : move = .loadAll ∨
    ∃ service, move = .loadService service) :
    ∃ parts : List Move, (∀ part ∈ parts, part.isPart) ∧
      step cache builder s move = run cache builder s parts := by
  have hnothing (hstep : step cache builder s move = s) :
      ∃ parts : List Move, (∀ part ∈ parts, part.isPart) ∧
        step cache builder s move = run cache builder s parts := ⟨[], nofun, hstep⟩
  cases hslot : s.caches.get? cache with
  | none =>
      refine hnothing ?_
      rcases hload with rfl | ⟨service, rfl⟩ <;> simp only [step, onCache, hslot]
  | some slot =>
      have hparts (server : Etcd.Server) (providers : Table Nat Provider)
          (changes : List (String × Members)) :
          ∃ parts : List Move, (∀ part ∈ parts, part.isPart) ∧
            stored cache slot (Cached.replaceAll (tell slot.listener)
              ⟨slot.membership, { s with server, providers }⟩ changes) =
            run cache builder s parts := by
        refine ⟨.beside s.now server providers ::
          changes.map (fun change => .replace change.1 change.2), ?_, ?_⟩
        · intro part hpart
          rcases List.mem_cons.mp hpart with rfl | hreplace
          · trivial
          · obtain ⟨change, -, rfl⟩ := List.mem_map.mp hreplace
            trivial
        · rw [← run_replaceAll builder, run, run, List.foldl_cons]
          congr 1
          simp only [stored, step, Table.insert_of_get? hslot]
      rcases hload with rfl | ⟨service, rfl⟩
      · obtain ⟨answer, server, providers, hget⟩ :=
          backend_get s slot.provider ⟨Key.serviceRoot, true⟩
        simp only [step, onCache, hslot, Session.onCache, Cached.loadAll, hget]
        cases answer with
        | error failure => exact hparts server providers []
        | ok listing => exact hparts server providers _
      · obtain ⟨answer, server, providers, hget⟩ :=
          backend_get s slot.provider ⟨Key.servicePrefix service, true⟩
        simp only [step, onCache, hslot, Session.onCache, Cached.loadService, hget]
        cases answer with
        | error failure => exact hparts server providers []
        | ok listing => exact hparts server providers [(service, _)]

/-- So a builder follows through a whole load, one replacement after the other. -/
theorem Follows.run_parts (h : Follows cache builder b s) {parts : List Move}
    (hparts : ∀ part ∈ parts, part.isPart) :
    Leads cache builder (fun _ => False) b s b (run cache builder s parts) := by
  induction parts generalizing s with
  | nil => exact .refl h
  | cons part rest ih =>
      have hfirst : Leads cache builder (fun _ => False) b s b (step cache builder s part) := by
        cases part with
        | replace service members => exact h.replace service members
        | beside now server providers => exact h.beside now server providers
        | _ => exact (hparts _ List.mem_cons_self).elim
      exact hfirst.trans h
        (ih hfirst.follows (fun part hpart => hparts part (List.mem_cons_of_mem _ hpart)))

def without (builder : Nat) (r : ResolverSlot) (b : ResolverBuilder) : ResolverBuilder :=
  if r.builder = builder then b.close r.id else b

theorem active_without {id : Nat} {target : Target}
    (h : (without builder r b).active.get? id = some target) :
    b.active.get? id = some target ∧ ¬ (r.builder = builder ∧ r.id = id) := by
  unfold without at h
  split at h
  · rw [ResolverBuilder.close, Table.get?_erase] at h
    split at h
    · cases h
    · exact ⟨h, fun hsame => absurd hsame.2.symm ‹_›⟩
  · exact ⟨h, fun hsame => absurd hsame.1 ‹_›⟩

theorem closed_without {id : Nat} (h : b.active.get? id = none) :
    (without builder r b).active.get? id = none := by
  cases hactive : (without builder r b).active.get? id with
  | none => rfl
  | some target => exact absurd (h.symm.trans (active_without hactive).1) nofun

theorem without_scheme : (without builder r b).scheme = b.scheme := by
  unfold without
  split <;> rfl

theorem without_nextId : (without builder r b).nextId = b.nextId := by
  unfold without
  split <;> rfl

theorem Told.without {old : ResolverSlot} (h : Told cache b m r) :
    Told cache (without builder old b) m r where
  cache_eq := h.cache_eq
  id_lt := by
    rw [without_nextId]
    exact h.id_lt
  last := by
    intro target hactive
    rw [without_scheme]
    exact h.last target (active_without hactive).1

theorem closeResolver_builder (h : s.builders.get? builder = some ⟨cache, b⟩) (r : ResolverSlot) :
    (s.closeResolver r).builders.get? builder = some ⟨cache, without builder r b⟩ := by
  simp only [closeResolver, Table.get?_modify, h, Option.map_some, without]
  by_cases hbuilder : r.builder = builder
  · simp only [hbuilder, if_true]
  · simp only [hbuilder, Ne.symm hbuilder, if_false]

/-- To close a resolver takes it off the list of its builder, and no other. -/
theorem Follows.closeResolver (h : Follows cache builder b s) (r : ResolverSlot) :
    Leads cache builder (fun _ => False) b s (without builder r b) (s.closeResolver r) where
  follows := {
    listens := h.listens
    alive := closeResolver_builder h.alive r
    listed := fun id target hactive => h.listed id target (active_without hactive).1
    told := fun name other hother hbuilder => (h.told name other hother hbuilder).without }
  scheme := without_scheme
  nextId_le := Nat.le_of_eq without_nextId.symm
  closed := fun _ _ hclosed => closed_without hclosed
  untouched := fun _ _ hother _ _ _ => hother

theorem Follows.close (h : Follows cache builder b s) (name : String) :
    ∃ b', Leads cache builder (fun _ => False) b s b' (step cache builder s (.close name)) := by
  cases hr : s.resolvers.get? name with
  | none =>
      simp only [step, onResolvers, hr]
      exact ⟨b, .refl h⟩
  | some r =>
      simp only [step, onResolvers, hr]
      exact ⟨_, h.closeResolver r⟩

theorem Follows.drop (h : Follows cache builder b s) (name : String) :
    ∃ b', Leads cache builder (fun other => name = other) b s b'
      (step cache builder s (.drop name)) := by
  cases hr : s.resolvers.get? name with
  | none =>
      simp only [step, onResolvers, hr]
      exact ⟨b, .refl h⟩
  | some r =>
      simp only [step, onResolvers, hr]
      have hclosed := (h.closeResolver r).follows
      refine ⟨without builder r b, ⟨⟨hclosed.listens, hclosed.alive, ?_, ?_⟩, without_scheme,
        Nat.le_of_eq without_nextId.symm, fun _ _ hnone => closed_without hnone, ?_⟩⟩
      · intro id target hactive
        obtain ⟨other, r', hr', hbuilder, hid⟩ := hclosed.listed id target hactive
        refine ⟨other, r', ?_, hbuilder, hid⟩
        rw [Table.get?_erase, if_neg]
        · exact hr'
        · rintro rfl
          obtain rfl : r = r' := Option.some.inj (hr.symm.trans hr')
          exact (active_without hactive).2 ⟨hbuilder, hid⟩
      · intro other r' hr' hbuilder
        rw [Table.get?_erase] at hr'
        split at hr'
        · cases hr'
        · exact hclosed.told other r' hr' hbuilder
      · intro other r' hr' hbuilder _ hother
        rw [Table.get?_erase, if_neg (Ne.symm hother)]
        exact hr'

/-- A resolver that is asked again tells its connection what the cache gives now. -/
theorem Follows.resolve (h : Follows cache builder b s) (name : String) :
    Leads cache builder (fun other => name = other) b s b
      (step cache builder s (.resolve name)) := by
  cases hr : s.resolvers.get? name with
  | none =>
      simp only [step, onResolvers, hr]
      exact .refl h
  | some r =>
      simp only [step, onResolvers, hr]
      refine ⟨⟨h.listens, h.alive, ?_, ?_⟩, rfl, Nat.le_refl _, fun _ _ hclosed => hclosed, ?_⟩
      · intro id target hactive
        obtain ⟨other, r', hr', hbuilder, hid⟩ := h.listed id target hactive
        by_cases hother : other = name
        · subst hother
          obtain rfl := Option.some.inj (hr.symm.trans hr')
          exact ⟨other, s.resolve r, by rw [Table.get?_insert, if_pos rfl], hbuilder, hid⟩
        · exact ⟨other, r', by rw [Table.get?_insert, if_neg hother, hr'], hbuilder, hid⟩
      · intro other r' hr' hbuilder
        rw [Table.get?_insert] at hr'
        split at hr'
        · obtain rfl := Option.some.inj hr'
          have htold := h.told name r hr hbuilder
          refine ⟨htold.cache_eq, htold.id_lt, ?_⟩
          intro target hactive
          obtain ⟨htarget, hparsed, -⟩ := htold.last target hactive
          refine ⟨htarget, hparsed, ?_⟩
          simp only [Session.resolve, List.getLast?_concat, htold.cache_eq]
          rw [← htarget]
          rfl
        · exact h.told other r' hr' hbuilder
      · intro other r' hr' hbuilder _ hother
        rw [Table.get?_insert, if_neg (Ne.symm hother)]
        exact hr'

def grown (target : Target) (b : ResolverBuilder) : ResolverBuilder :=
  { b with active := b.active.insert b.nextId target, nextId := b.nextId + 1 }

/-- A new resolver takes a name, from one that is closed if there is one, and is told
at once. -/
theorem Follows.enter (h : Follows cache builder b s) {name text : String} {target : Target}
    (hparsed : Target.parse text b.scheme = .ok target) (hcaches : s'.caches = s.caches)
    (hresolvers : s'.resolvers = s.resolvers)
    (halive : s'.builders.get? builder = some ⟨cache, b'⟩) (hscheme : b'.scheme = b.scheme)
    (hnextId : b'.nextId = b.nextId + 1)
    (hactive : ∀ id found, b'.active.get? id = some found →
      (grown target b).active.get? id = some found ∧
        ∀ old, s.resolvers.get? name = some old → ¬ (old.builder = builder ∧ old.id = id)) :
    Leads cache builder (fun other => name = other) b s b' { s' with
      resolvers := s'.resolvers.insert name ⟨builder, b.nextId, cache, target,
        [target.resolve (s'.membership cache)]⟩ } := by
  have hmembership : s'.membership cache = s.membership cache := by
    rw [membership, membership, hcaches]
  have hold {id : Nat} {found : Target} (hid : id < b.nextId)
      (hfound : b'.active.get? id = some found) : b.active.get? id = some found := by
    have hgrown := (hactive id found hfound).1
    rwa [grown, Table.get?_insert, if_neg (by omega)] at hgrown
  refine ⟨⟨hcaches ▸ h.listens, halive, ?_, ?_⟩, hscheme, by omega, ?_, ?_⟩
  · intro id found hfound
    obtain ⟨hgrown, hfree⟩ := hactive id found hfound
    rw [grown, Table.get?_insert] at hgrown
    split at hgrown
    · rename_i hnew
      exact ⟨name, _, by rw [Table.get?_insert, if_pos rfl], rfl, hnew.symm⟩
    · obtain ⟨other, r, hr, hbuilder, hid⟩ := h.listed id found hgrown
      refine ⟨other, r, ?_, hbuilder, hid⟩
      rw [Table.get?_insert, if_neg, hresolvers, hr]
      rintro rfl
      exact hfree r hr ⟨hbuilder, hid⟩
  · intro other r hr hbuilder
    rw [Table.get?_insert] at hr
    split at hr
    · obtain rfl := Option.some.inj hr
      refine ⟨rfl, by simp only [hnextId]; omega, ?_⟩
      intro found hfound
      have hgrown := (hactive b.nextId found hfound).1
      rw [grown, Table.get?_insert, if_pos rfl] at hgrown
      obtain rfl := Option.some.inj hgrown
      exact ⟨rfl, ⟨text, hscheme ▸ hparsed⟩, rfl⟩
    · rw [hresolvers] at hr
      have htold := h.told other r hr hbuilder
      refine ⟨htold.cache_eq, by have := htold.id_lt; omega, ?_⟩
      intro found hfound
      rw [hscheme]
      exact hmembership ▸ htold.last found (hold htold.id_lt hfound)
  · intro id hid hclosed
    cases hfound : b'.active.get? id with
    | none => rfl
    | some found => cases hclosed.symm.trans (hold hid hfound)
  · intro other r hr hbuilder _ hother
    rw [Table.get?_insert, if_neg (Ne.symm hother), hresolvers]
    exact hr

/-- A target that parses gets a new resolver, which tells its connection at once; another
leaves the builder as it is. -/
theorem Follows.build (h : Follows cache builder b s) (name text : String) :
    ∃ b', Leads cache builder (fun other => name = other) b s b'
      (step cache builder s (.build name text)) := by
  simp only [step, h.alive, buildResolver, ResolverBuilder.build]
  cases hparsed : Target.parse text b.scheme with
  | error e => exact ⟨b, .refl h⟩
  | ok target =>
      let built : Session :=
        { s with builders := s.builders.insert builder ⟨cache, grown target b⟩ }
      have hcaches : built.caches = s.caches := rfl
      have halive : built.builders.get? builder = some ⟨cache, grown target b⟩ := by
        rw [Table.get?_insert, if_pos rfl]
      cases hold : s.resolvers.get? name with
      | none =>
          simp only [Except.map]
          refine ⟨grown target b, h.enter hparsed hcaches rfl halive rfl rfl ?_⟩
          intro id found hfound
          refine ⟨hfound, fun old hsome => ?_⟩
          cases hold.symm.trans hsome
      | some old =>
          simp only [Except.map]
          refine ⟨without builder old (grown target b), h.enter hparsed rfl rfl
            (closeResolver_builder halive old) without_scheme without_nextId ?_⟩
          intro id found hfound
          obtain ⟨hgrown, hfree⟩ := active_without hfound
          refine ⟨hgrown, fun other hother => ?_⟩
          obtain rfl := Option.some.inj (hold.symm.trans hother)
          exact hfree

/-- One move, whatever it is, leaves a builder that still follows its cache, and tells no
resolver anything but what the cache gives at that time. -/
theorem Follows.step (h : Follows cache builder b s) (move : Move) :
    ∃ b', Leads cache builder (fun name => move.isFor name) b s b'
      (Resolving.step cache builder s move) := by
  cases move with
  | replace service members => exact ⟨b, h.replace service members⟩
  | beside now server providers => exact ⟨b, h.beside now server providers⟩
  | loadAll =>
      obtain ⟨parts, hparts, hstep⟩ := load_parts s .loadAll (.inl rfl)
      rw [hstep]
      exact ⟨b, h.run_parts hparts⟩
  | loadService service =>
      obtain ⟨parts, hparts, hstep⟩ := load_parts s (.loadService service) (.inr ⟨service, rfl⟩)
      rw [hstep]
      exact ⟨b, h.run_parts hparts⟩
  | build name target => exact h.build name target
  | resolve name => exact ⟨b, h.resolve name⟩
  | close name => exact h.close name
  | drop name => exact h.drop name

theorem Follows.run (h : Follows cache builder b s) (moves : List Move) :
    ∃ b', Leads cache builder (fun name => ∃ move ∈ moves, move.isFor name) b s b'
      (Resolving.run cache builder s moves) := by
  induction moves generalizing b s with
  | nil => exact ⟨b, .refl h⟩
  | cons move rest ih =>
      obtain ⟨b', hfirst⟩ := h.step move
      obtain ⟨b'', hrest⟩ := ih hfirst.follows
      refine ⟨b'', (hfirst.mono ?_).trans h (hrest.mono ?_)⟩
      · exact fun name hname => ⟨move, List.mem_cons_self, hname⟩
      · rintro name ⟨later, hlater, hname⟩
        exact ⟨later, List.mem_cons_of_mem _ hlater, hname⟩

/-- A target that does not parse changes nothing in the session. -/
theorem Follows.rejected (h : Follows cache builder b s) (name : String) {text : String} {e : Error}
    (hparsed : Target.parse text b.scheme = .error e) :
    Resolving.step cache builder s (.build name text) = s := by
  simp only [Resolving.step, h.alive, buildResolver, ResolverBuilder.build, hparsed, Except.map]

/-- Once closed, a resolver is told nothing by what others do, whatever the cache comes to
hold. -/
theorem Follows.untold (h : Follows cache builder b s) {name : String} {later : List Move}
    (hr : s.resolvers.get? name = some r) (hbuilder : r.builder = builder)
    (hlater : ∀ move ∈ later, ¬ move.isFor name) :
    (Resolving.run cache builder (Resolving.step cache builder s (.close name)) later).resolvers.get?
      name = some r := by
  have hstep : Resolving.step cache builder s (.close name) = s.closeResolver r := by
    simp only [Resolving.step, onResolvers, hr]
  have hclosed : (without builder r b).active.get? r.id = none := by
    cases hactive : (without builder r b).active.get? r.id with
    | none => rfl
    | some target => exact absurd ⟨hbuilder, rfl⟩ (active_without hactive).2
  have huntouched : ¬ ∃ move ∈ later, move.isFor name := by
    rintro ⟨move, hmove, hname⟩
    exact hlater move hmove hname
  obtain ⟨b', hrun⟩ := (h.closeResolver r).follows.run later
  rw [hstep]
  exact hrun.untouched name r hr hbuilder hclosed huntouched

theorem Follows.built (h : Follows cache builder b s) (name : String) {text : String}
    {target : Target} (hparsed : Target.parse text b.scheme = .ok target) :
    ∃ b' r, (Resolving.step cache builder s (.build name text)).builders.get? builder =
        some ⟨cache, b'⟩ ∧
      (Resolving.step cache builder s (.build name text)).resolvers.get? name = some r ∧
      r.builder = builder ∧ b'.active.get? r.id = some target := by
  simp only [Resolving.step, h.alive, buildResolver, ResolverBuilder.build, hparsed, Except.map]
  let built : Session := { s with builders := s.builders.insert builder ⟨cache, grown target b⟩ }
  have halive : built.builders.get? builder = some ⟨cache, grown target b⟩ := by
    rw [Table.get?_insert, if_pos rfl]
  have hactive : (grown target b).active.get? b.nextId = some target := by
    rw [grown, Table.get?_insert, if_pos rfl]
  cases hold : s.resolvers.get? name with
  | none =>
      exact ⟨grown target b, _, halive, by rw [Table.get?_insert, if_pos rfl], rfl, hactive⟩
  | some old =>
      refine ⟨without builder old (grown target b), _, closeResolver_builder halive old,
        by rw [Table.get?_insert, if_pos rfl], rfl, ?_⟩
      unfold without
      split
      · rename_i hbuilder
        have hid := (h.told name old hold hbuilder).id_lt
        rw [ResolverBuilder.close, Table.get?_erase, if_neg (by simp only; omega)]
        exact hactive
      · exact hactive

/-- A new builder has no resolvers, and the cache has it for its listener. -/
theorem Follows.start {cache : Nat} (scheme : String) (hcache : (s.caches.get? cache).isSome = true)
    (hfresh : ∀ name r, s.resolvers.get? name = some r → r.builder ≠ s.nextId) :
    Follows cache s.nextId (.create scheme) (s.addBuilder cache scheme).2 where
  listens := by
    obtain ⟨slot, hslot⟩ := Option.isSome_iff_exists.mp hcache
    refine ⟨{ slot with listener := some (.builder s.nextId) }, ?_, rfl⟩
    simp only [addBuilder, freshId, setListener, Table.get?_modify, hslot, if_true,
      Option.map_some]
  alive := by
    simp only [addBuilder, freshId, setListener, Table.get?_insert, if_true]
  listed := nofun
  told := fun name r hr hbuilder => absurd hbuilder (hfresh name r hr)

end

/-- A builder that listens to its cache, and what happens to its resolvers: at any time
each that it notifies has a connection, was built for a target that parses, looks up
just what was parsed, and last told its connection the addresses that the cache gives
for it now, or that there are none. A target that does not parse changes nothing, any
other gets a resolver that is notified, and one that is closed is told nothing more
unless it is asked itself. -/
theorem resolvers_follow {s : Session} {cache : Nat} (scheme : String)
    (hcache : (s.caches.get? cache).isSome = true)
    (hfresh : ∀ name r, s.resolvers.get? name = some r → r.builder ≠ s.nextId)
    (moves : List Move) :
    let (builder, started) := s.addBuilder cache scheme
    let s' := run cache builder started moves
    let m := s'.membership cache
    ∃ b, s'.builders.get? builder = some ⟨cache, b⟩ ∧
      (∀ id target, b.active.get? id = some target →
        ∃ name r, s'.resolvers.get? name = some r ∧ r.builder = builder ∧ r.id = id) ∧
      (∀ name r target, s'.resolvers.get? name = some r → r.builder = builder →
        b.active.get? r.id = some target →
          r.target = target ∧ (∃ text, Target.parse text scheme = .ok target) ∧
            target.addresses m = m.select target.selector ∧
            r.pushes.getLast? = some (answer target.selector (target.addresses m))) ∧
      (∀ name text,
        match Target.parse text scheme with
        | .error _ => step cache builder s' (.build name text) = s'
        | .ok target =>
            ∃ b' r, (step cache builder s' (.build name text)).builders.get? builder =
                some ⟨cache, b'⟩ ∧
              (step cache builder s' (.build name text)).resolvers.get? name = some r ∧
              r.builder = builder ∧ b'.active.get? r.id = some target) ∧
      ∀ name r later, s'.resolvers.get? name = some r → r.builder = builder →
        (∀ move ∈ later, ¬ move.isFor name) →
          (run cache builder (step cache builder s' (.close name)) later).resolvers.get? name =
            some r := by
  obtain ⟨b, hleads⟩ := (Follows.start scheme hcache hfresh).run moves
  have hs' := hleads.follows
  have hscheme : b.scheme = scheme := hleads.scheme
  refine ⟨b, hs'.alive, hs'.listed, ?_, ?_, ?_⟩
  · intro name r target hr hbuilder hactive
    obtain ⟨htarget, ⟨text, hparsed⟩, hlast⟩ := (hs'.told name r hr hbuilder).last target hactive
    refine ⟨htarget, ⟨text, hscheme ▸ hparsed⟩, ?_, ?_⟩
    · rw [Target.addresses, Target.ofString_of_parse hparsed]
    · rw [hlast]
      rfl
  · intro name text
    cases hparsed : Target.parse text scheme with
    | error e => exact hs'.rejected name (hscheme.symm ▸ hparsed)
    | ok target => exact hs'.built name (hscheme.symm ▸ hparsed)
  · exact fun name r later hr hbuilder hlater => hs'.untold hr hbuilder hlater

def sampleNode (service address sub : String) : Node :=
  (Node.create service address 1 .zero).withSubServices [sub]

def sampleSession : Session :=
  let stored := ((Memory.create 8).set ⟨0⟩ "service/a/x" (sampleNode "a" "x" "b..c").encode .zero).2
  ((Session.start true .empty (.memory stored)).addCache home .zero).2

/-- Two resolvers are built, one for a sub-service with dots of its own; a full load
concerns the first, a single replacement the second. -/
def sampleMoves : List Move :=
  [.build "r" "a.b..c", .build "q" "c.", .build "none" ".c", .loadAll,
    .replace "c" ((∅ : Members).insert "y" (sampleNode "c" "y" ""))]

/-- A full load tells the resolver of the component what was found, and one that is closed
before a later replacement is told nothing of that. -/
theorem resolvers_follow_loaded :
    let cache := 1
    let (builder, started) := sampleSession.addBuilder cache "rpc"
    let s' := run cache builder started sampleMoves
    let closed := run cache builder (step cache builder s' (.close "q")) [.replace "c" ∅]
    (sampleSession.caches.get? cache).isSome = true ∧
      (∀ name r, sampleSession.resolvers.get? name = some r → r.builder ≠ builder) ∧
      ∃ r q, s'.resolvers.get? "r" = some r ∧ r.pushes.getLast? = some (.addresses ["x"]) ∧
        s'.resolvers.get? "q" = some q ∧ q.pushes.getLast? = some (.addresses ["y"]) ∧
        closed.membership cache ≠ s'.membership cache ∧
        closed.resolvers.get? "q" = some q := by
  intro cache
  have hcache : (sampleSession.caches.get? cache).isSome = true := by decide +kernel
  have hfresh : ∀ name r, sampleSession.resolvers.get? name = some r →
      r.builder ≠ sampleSession.nextId := nofun
  obtain ⟨b, halive, -, hlast, -, huntold⟩ := resolvers_follow "rpc" hcache hfresh sampleMoves
  let s' := run cache sampleSession.nextId (sampleSession.addBuilder cache "rpc").2 sampleMoves
  let rTarget : Target := ⟨"rpc", ⟨"a", some "b..c"⟩⟩
  let qTarget : Target := ⟨"rpc", ⟨"c", none⟩⟩
  have hfound (name : String) (id : Nat) (hname : (s'.resolvers.get? name).map
      (fun r => (r.builder, r.id)) = some (sampleSession.nextId, id)) :
      ∃ r, s'.resolvers.get? name = some r ∧ r.builder = sampleSession.nextId ∧ r.id = id := by
    obtain ⟨r, hr, hpair⟩ := Option.map_eq_some_iff.mp hname
    exact ⟨r, hr, congrArg Prod.fst hpair, congrArg Prod.snd hpair⟩
  have hactive : (s'.builders.get? sampleSession.nextId).map
      (fun slot => slot.builder.active.rows) = some [(1, rTarget), (2, qTarget)] := by decide +kernel
  rw [show s'.builders.get? sampleSession.nextId = some ⟨cache, b⟩ from halive] at hactive
  have hrows : b.active.rows = [(1, rTarget), (2, qTarget)] := Option.some.inj hactive
  obtain ⟨r, hr, hrbuilder, hrid⟩ := hfound "r" 1 (by decide +kernel)
  obtain ⟨q, hq, hqbuilder, hqid⟩ := hfound "q" 2 (by decide +kernel)
  have hrlast := (hlast "r" r rTarget hr hrbuilder
    (by rw [hrid, Table.get?, hrows]; decide)).2.2.2
  have hqlast := (hlast "q" q qTarget hq hqbuilder
    (by rw [hqid, Table.get?, hrows]; decide)).2.2.2
  refine ⟨hcache, hfresh, r, q, hr, hrlast.trans ?_, hq, hqlast.trans ?_, ?_,
    huntold "q" q [.replace "c" ∅] hq hqbuilder ?_⟩
  · decide +kernel
  · decide +kernel
  · decide +kernel
  · intro move hmove
    rw [List.mem_singleton.mp hmove]
    exact id

end Resolving

end Rollcall
