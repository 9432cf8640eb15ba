import Rollcall.Proofs.Membership.Grouping
import Rollcall.Proofs.Memory.Schedule
import Rollcall.Proofs.Store.Backlog

/-!
A cache that follows a backend in memory. It lists all services, watches from the
version of the listing and then handles one event after the other, while others
act on the backend in between. Whatever the order, each service is either held
as it is stored, or an event that makes the cache load it again still waits:
between the listing and the watch it waits in the backlog of the watch to come,
after that on its channel. Main statement: `follows`.
-/

namespace Rollcall

open Rollcall.Membership (byAddress byService nodesOf)

/-- Handling the event loads the service again. -/
def Event.concerns (service : String) : Event → Prop
  | .refresh => True
  | .change c => Key.serviceName? Key.serviceRoot c.pair.key = some service

/-- An event that concerns the service is still to be handled. -/
def Pending (events : List Event) (service : String) : Prop :=
  ∃ e ∈ events, e.concerns service

/-- Up to the events that are still to be handled, a cache holds the members that
a store has. -/
structure Membership.Current (m : Membership) (s : Store) (events : List Event) : Prop where
  members : ∀ service, Key.IsServiceName service →
    m.members? service = s.membersOf service ∨ Pending events service
  others : ∀ service, ¬ Key.IsServiceName service → m.members? service = none

namespace Membership.Current

variable {m : Membership} {s : Store} {events : List Event}

/-- Which members a service has is read off the entries; the channels and the history of the
store do not matter. -/
theorem congr {t : Store} (h : m.Current s events) (ht : t.entries = s.entries) :
    m.Current t events := by
  have hsame (service : String) : t.membersOf service = s.membersOf service := by
    simp only [Store.membersOf, Store.nodesUnder, ht]
  refine ⟨?_, h.others⟩
  intro service hservice
  rw [hsame]
  exact h.members service hservice

/-- What an update changes is among what it announces, so a service that it changes is
pending from then on. -/
theorem applyAll (h : m.Current s events) (us : List Store.Update) {later : List Event}
    (hlater : .refresh ∈ later ∨ (∀ e ∈ events, e ∈ later) ∧
      ∀ c, .change c ∈ s.announcedAll us →
        Key.startsWith Key.serviceRoot c.pair.key = true → .change c ∈ later) :
    m.Current (s.applyAll us) later := by
  refine ⟨?_, h.others⟩
  intro service hservice
  rcases hlater with hrefresh | ⟨hkept, hnew⟩
  · exact .inr ⟨.refresh, hrefresh, trivial⟩
  rcases Store.scan_applyAll s us (Key.servicePrefix service) with hscan | ⟨c, hc, hkey⟩
  · have hnodes : (s.applyAll us).nodesUnder (Key.servicePrefix service) =
        s.nodesUnder (Key.servicePrefix service) := by
      rw [← Store.nodesOf_scan _ _ 0, ← Store.nodesOf_scan _ _ 0, hscan]
    rcases h.members service hservice with hmembers | ⟨e, he, hconcerns⟩
    · left
      rw [hmembers, Store.membersOf, Store.membersOf, hnodes]
    · exact .inr ⟨e, hkept e he, hconcerns⟩
  · right
    have hroot := Key.startsWith_root_of_servicePrefix hkey
    exact ⟨.change c, hnew c hc hroot, Key.serviceName?_of_startsWith hservice hkey⟩

theorem of_listing (h : s.Sound) (hm : m.services = byService (s.nodesUnder Key.serviceRoot)) :
    m.Current s events := by
  constructor
  · intro service hservice
    left
    rw [members?, hm, h.get?_byService hservice]
  · intro service hservice
    rw [members?, hm, h.get?_byService_of_not hservice]

/-- Loading the service that an event names handles the event: that service is then held as
it is stored, and the others stand as they stood. -/
theorem replace {c : Change} {service : String} (h : m.Current s (.change c :: events))
    (hservice : Key.serviceName? Key.serviceRoot c.pair.key = some service) :
    (m.replace service (byAddress (s.nodesUnder (Key.servicePrefix service)))).1.Current
      s events := by
  constructor
  · intro name hname
    rw [members?_replace]
    by_cases hsame : name = service
    · left
      rw [if_pos hsame, hsame, Store.membersOf]
    · rw [if_neg hsame]
      rcases h.members name hname with hmembers | ⟨e, he, hconcerns⟩
      · exact .inl hmembers
      · rcases List.mem_cons.mp he with rfl | hrest
        · have hnames := hconcerns.symm.trans hservice
          exact absurd (Option.some.inj hnames) hsame
        · exact .inr ⟨e, hrest, hconcerns⟩
  · intro name hname
    rw [members?_replace]
    have hne : name ≠ service := by
      rintro rfl
      exact hname (Key.of_serviceName? hservice).1
    rw [if_neg hne]
    exact h.others name hname

theorem skip {c : Change} (h : m.Current s (.change c :: events))
    (hnone : Key.serviceName? Key.serviceRoot c.pair.key = none) : m.Current s events := by
  refine ⟨?_, h.others⟩
  intro service hservice
  rcases h.members service hservice with hmembers | ⟨e, he, hconcerns⟩
  · exact .inl hmembers
  · rcases List.mem_cons.mp he with rfl | hrest
    · have hnames := hnone.symm.trans hconcerns
      cases hnames
    · exact .inr ⟨e, hrest, hconcerns⟩

/-- With nothing to wait for, the cache is the store grouped by service. -/
theorem services_eq (h : m.Current s []) (hs : s.Sound) :
    m.services = byService (s.nodesUnder Key.serviceRoot) := by
  apply Table.ext_get?
  intro service
  by_cases hservice : Key.IsServiceName service
  · rcases h.members service hservice with hmembers | ⟨e, he, _⟩
    · rw [hs.get?_byService hservice, ← hmembers, members?]
    · cases he
  · rw [hs.get?_byService_of_not hservice, ← h.others service hservice, members?]

end Membership.Current

namespace Memory

/-- A backend in memory as any run leaves it, as long as nobody closes it. -/
structure Healthy (m : Memory) : Prop where
  isOpen : m.closed = false
  numbered : m.store.channels.Numbered
  coherent : ∃ made, Store.Coherent m.store made

namespace Healthy

variable {m : Memory}

/-- Every run that has not closed its backend leaves a healthy one. -/
theorem run (limit : Nat) (actions : List (Instant × Action))
    (h : ((create limit).run actions).closed = false) : Healthy ((create limit).run actions) where
  isOpen := h
  numbered := by
    rw [store_run]
    exact Store.numbered_applyAll Channels.numbered_none _
  coherent := by
    rw [store_run]
    exact ⟨_, (Store.Coherent.create limit).applyAll _⟩

/-- Nor can anything but a close make a healthy backend otherwise. -/
theorem act (h : m.Healthy) (now : Instant) {a : Action} (ha : a ≠ .close) :
    (m.act now a).Healthy where
  isOpen := isOpen_act h.isOpen ha now
  numbered := by
    rw [store_act]
    exact Store.numbered_applyAll h.numbered _
  coherent := by
    rw [store_act]
    obtain ⟨made, hmade⟩ := h.coherent
    exact ⟨_, hmade.applyAll _⟩

end Healthy

end Memory

namespace Following

variable {σ τ : Type}

/-- The listener keeps what it is told beside the backend. -/
def beside (listener : Listener τ) : Listener (σ × τ) :=
  fun membership notice s => (s.1, listener membership notice s.2)

/-- So whatever is stored in a cache, its backend is left alone. -/
theorem state_fst_replaceAll (listener : Listener τ) (c : Cached (σ × τ))
    (changes : List (String × Members)) :
    (Cached.replaceAll (beside listener) c changes).state.1 = c.state.1 := by
  induction changes generalizing c with
  | nil => rfl
  | cons change rest ih =>
      rw [Cached.replaceAll, List.foldl_cons]
      exact ih (c.replace (beside listener) change.1 change.2)

def onMemory (now : Instant) : Backend (Memory × τ) :=
  (Memory.backend now).focus Prod.fst (fun m s => (m, s.2))

inductive Stage where
  | starting
  | listed (version : Int)
  | running (f : Follower)
  | failed

structure World (τ : Type) where
  stage : Stage
  cache : Cached (Memory × τ)

inductive Move where
  | backend (a : Memory.Action)
  | list
  | watch
  | handle

def World.memory (w : World τ) : Memory := w.cache.state.1

/-- Nobody closes the backend, and nobody but the cache receives from its channel. -/
def Stage.permits : Stage → Move → Prop
  | .running (.following id), .backend a => a.spares id
  | _, .backend a => a ≠ .close
  | _, _ => True

/-- One move: of the others on the backend, or the next of the cache. It lists
and watches once, in that order, and then only handles events. -/
def World.step (listener : Listener τ) (retry : Span) (w : World τ) (now : Instant) :
    Move → World τ
  | .backend a =>
      { w with cache := { w.cache with state := (w.memory.act now a, w.cache.state.2) } }
  | .list =>
      match w.stage with
      | .starting =>
          match w.cache.loadAll (onMemory now) (beside listener) with
          | (.ok version, cache) => ⟨.listed version, cache⟩
          | (.error _, cache) => ⟨.failed, cache⟩
      | _ => w
  | .watch =>
      match w.stage with
      | .listed version =>
          match ((onMemory now).watch ⟨Key.serviceRoot, true⟩ version).exec w.cache.state with
          | (.ok id, state) => ⟨.running (.following id), { w.cache with state }⟩
          | (.error _, state) => ⟨.failed, { w.cache with state }⟩
      | _ => w
  | .handle =>
      match w.stage with
      | .running f =>
          let (_, f, cache) := f.step (onMemory now) (beside listener) now retry false w.cache
          ⟨.running f, cache⟩
      | _ => w

/-- Listing and watching with nothing in between is how a cache starts. -/
theorem step_list_watch (listener : Listener τ) (retry : Span) (now : Instant)
    (cache : Cached (Memory × τ)) :
    ((World.mk .starting cache).step listener retry now .list).step listener retry now .watch =
      match cache.refresh (onMemory now) (beside listener) with
      | (.ok id, cache) => ⟨.running (.following id), cache⟩
      | (.error _, cache) => ⟨.failed, cache⟩ := by
  simp only [World.step, Cached.refresh]
  rcases cache.loadAll (onMemory now) (beside listener) with ⟨answer, loaded⟩
  cases answer with
  | error f => rfl
  | ok version =>
      simp only
      rcases ((onMemory now).watch ⟨Key.serviceRoot, true⟩ version).exec loaded.state with
        ⟨found, state⟩
      cases found <;> rfl

/-- What a start and any moves after it lead to, as long as every stored node
stands at its own key. -/
inductive Reachable (listener : Listener τ) (retry : Span) : World τ → Prop where
  | start (limit : Nat) (before : List (Instant × Memory.Action)) (t : τ)
      (hopen : ((Memory.create limit).run before).closed = false) :
      Reachable listener retry ⟨.starting, ⟨.empty, ((Memory.create limit).run before, t)⟩⟩
  | step {w : World τ} (now : Instant) (move : Move) (h : Reachable listener retry w)
      (hpermits : w.stage.permits move)
      (hsound : (w.step listener retry now move).memory.store.Sound) :
      Reachable listener retry (w.step listener retry now move)

section Loads

variable {m : Memory}

/-- A full load expires what is overdue and takes over what is left. -/
theorem loadAll_spec (hopen : m.closed = false) (listener : Listener τ) (t : τ)
    (membership : Membership) (now : Instant) :
    ∃ cache, Cached.loadAll (onMemory now) (beside listener) ⟨membership, (m, t)⟩ =
        (.ok (m.store.expire now).revision, cache) ∧
      cache.state.1 = m.act now (.get ⟨Key.serviceRoot, true⟩) ∧
      cache.membership.services =
        byService ((m.store.expire now).nodesUnder Key.serviceRoot) := by
  have hget := Memory.get_eq_of_open hopen now ⟨Key.serviceRoot, true⟩
  have hexec : ((onMemory now).get ⟨Key.serviceRoot, true⟩).exec (m, t) =
      (.ok ⟨(m.store.expire now).scan ⟨Key.serviceRoot, true⟩, (m.store.expire now).revision⟩,
        (m.act now (.get ⟨Key.serviceRoot, true⟩), t)) := by
    simp only [onMemory, Backend.focus, Call.focus, Call.exec, Call.of, Memory.backend,
      Memory.act, hget]
  simp only [Cached.loadAll, hexec]
  refine ⟨_, rfl, ?_, ?_⟩
  · rw [state_fst_replaceAll]
  · rw [Cached.replaceAll_replacements, Store.nodesOf_scan]

theorem loadService_spec (hopen : m.closed = false) (listener : Listener τ) (t : τ)
    (membership : Membership) (now : Instant) (service : String) :
    ∃ version cache, Cached.loadService (onMemory now) (beside listener) service
          ⟨membership, (m, t)⟩ = (.ok version, cache) ∧
      cache.state.1 = m.act now (.get ⟨Key.servicePrefix service, true⟩) ∧
      cache.membership = (membership.replace service
        (byAddress ((m.store.expire now).nodesUnder (Key.servicePrefix service)))).1 := by
  have hget := Memory.get_eq_of_open hopen now ⟨Key.servicePrefix service, true⟩
  have hexec : ((onMemory now).get ⟨Key.servicePrefix service, true⟩).exec (m, t) =
      (.ok ⟨(m.store.expire now).scan ⟨Key.servicePrefix service, true⟩,
          (m.store.expire now).revision⟩,
        (m.act now (.get ⟨Key.servicePrefix service, true⟩), t)) := by
    simp only [onMemory, Backend.focus, Call.focus, Call.exec, Call.of, Memory.backend,
      Memory.act, hget]
  simp only [Cached.loadService, hexec]
  refine ⟨_, _, rfl, ?_, ?_⟩
  · rfl
  · rw [Store.nodesOf_scan]
    rfl

end Loads

abbrev everything : Scope := ⟨Key.serviceRoot, true⟩

/-- Between the listing and the watch, what the watch will be sent makes up for
what has changed since. -/
def Listed (m : Membership) (s : Store) (version : Int) : Prop :=
  version ≤ s.revision ∧ m.Current s (s.backlog everything version)

/-- After that, what waits on the channel does. -/
def Awaits (m : Membership) (s : Store) (id : Nat) : Prop :=
  ∃ c, s.channels.find? id = some c ∧ c.scope = everything ∧ c.isOpen = true ∧
    m.Current s c.waiting

section Invariant

variable {m : Membership} {s : Store} {made : List Change} {id : Nat} {version : Int}

/-- Whatever others do before the watch starts is made up for by the longer backlog, or by
the refresh that replaces it once the history has lost some of it. -/
theorem Listed.applyAll (h : Listed m s version) (hs : s.Coherent made)
    (us : List Store.Update) : Listed m (s.applyAll us) version := by
  obtain ⟨hversion, hcurrent⟩ := h
  have hrevision := hs.revision_applyAll us
  refine ⟨by omega, hcurrent.applyAll us ?_⟩
  rcases Store.backlog_applyAll hs hversion us with hrefresh | hlater
  · left
    rw [hrefresh]
    exact List.mem_singleton.mpr rfl
  · right
    rw [hlater]
    refine ⟨fun e he => List.mem_append_left _ he, ?_⟩
    intro c hc hkey
    apply List.mem_append_right
    apply List.mem_map_of_mem
    exact List.mem_filter.mpr ⟨mem_changesOf.mpr hc, hkey⟩

theorem mem_filter_wants {c : Change} {events : List Event} (hc : .change c ∈ events)
    (hkey : Key.startsWith Key.serviceRoot c.pair.key = true) :
    .change c ∈ events.filter everything.wants :=
  List.mem_filter.mpr ⟨hc, hkey⟩

/-- Once the channel is open, what others do is announced on it, as long as nobody takes
from it. -/
theorem Awaits.applyAll (h : Awaits m s id) (hs : s.channels.Numbered)
    {us : List Store.Update} (hus : ∀ u ∈ us, u.spares id) : Awaits m (s.applyAll us) id := by
  obtain ⟨c, hc, hscope, hopen, hcurrent⟩ := h
  refine ⟨_, Store.find?_applyAll_of_spares hs hc hopen hus, hscope, hopen, ?_⟩
  apply hcurrent.applyAll us
  right
  refine ⟨fun e he => List.mem_append_left _ he, ?_⟩
  intro change hchange hkey
  rw [hscope]
  exact List.mem_append_right _ (mem_filter_wants hchange hkey)

/-- The watch takes over the backlog: its channel starts with the changes since the listing,
or with a refresh in their place. -/
theorem Listed.watch (h : Listed m s version) (hs : s.channels.Numbered) :
    Awaits m (s.watch everything version).2 (s.watch everything version).1 :=
  ⟨_, Channels.find?_add_self hs _ _, rfl, rfl, h.2.congr rfl⟩

end Invariant

section Handling

variable {m : Memory} {membership : Membership} {id : Nat} {c : Channel} {e : Event}

theorem store_act_get (hopen : m.closed = false) (now : Instant) (scope : Scope) :
    (m.act now (.get scope)).store = m.store.expire now := by
  rw [Memory.act, Memory.get_eq_of_open hopen]

/-- Handling an event that has been taken from the channel. The load may expire
entries, which puts new events on the channel. -/
theorem awaits_handle (listener : Listener τ) (t : τ) (now : Instant) (hm : m.Healthy)
    (hc : m.store.channels.find? id = some c)
    (hscope : c.scope = everything) (hopen : c.isOpen = true)
    (h : membership.Current m.store (e :: c.waiting)) :
    let cache := Cached.handle (onMemory now) (beside listener) e ⟨membership, (m, t)⟩
    cache.state.1.Healthy ∧
      (cache.state.1.store.Sound → Awaits cache.membership cache.state.1.store id) := by
  have hspares (scope : Scope) : ∀ u ∈ m.updates now (.get scope), u.spares id := by
    intro u hu
    exact Memory.spares_of_mem_updates (a := .get scope) trivial hu
  have hchannel (scope : Scope) :
      (m.act now (.get scope)).store.channels.find? id =
        some { c with waiting := c.waiting ++
          (m.store.announcedAll (m.updates now (.get scope))).filter c.scope.wants } := by
    rw [Memory.store_act]
    exact Store.find?_applyAll_of_spares hm.numbered hc hopen (hspares scope)
  have hhealthy (scope : Scope) : (m.act now (.get scope)).Healthy :=
    hm.act now Memory.Action.noConfusion
  cases e with
  | refresh =>
      obtain ⟨cache, hload, hstate, hservices⟩ :=
        loadAll_spec hm.isOpen listener t membership now
      simp only [Cached.handle, hload]
      rw [hstate]
      refine ⟨hhealthy _, fun hsound => ?_⟩
      refine ⟨_, hchannel _, hscope, hopen, ?_⟩
      apply Membership.Current.of_listing hsound
      rw [hservices, store_act_get hm.isOpen]
  | change change =>
      cases hname : Key.serviceName? Key.serviceRoot change.pair.key with
      | none =>
          simp only [Cached.handle, hname]
          exact ⟨hm, fun _ => ⟨c, hc, hscope, hopen, h.skip hname⟩⟩
      | some service =>
          obtain ⟨version, cache, hload, hstate, hmembership⟩ :=
            loadService_spec hm.isOpen listener t membership now service
          simp only [Cached.handle, hname, hload]
          rw [hstate]
          refine ⟨hhealthy _, fun hsound => ?_⟩
          refine ⟨_, hchannel _, hscope, hopen, ?_⟩
          rw [hmembership, ← store_act_get hm.isOpen now ⟨Key.servicePrefix service, true⟩]
          apply Membership.Current.replace _ hname
          rw [Memory.store_act]
          apply h.applyAll
          right
          constructor
          · intro e he
            rcases List.mem_cons.mp he with rfl | hwaiting
            · exact List.mem_cons_self
            · exact List.mem_cons_of_mem _ (List.mem_append_left _ hwaiting)
          · intro other hother hkey
            rw [hscope]
            exact List.mem_cons_of_mem _ (List.mem_append_right _ (mem_filter_wants hother hkey))

end Handling

theorem Stage.permits_ne_close {stage : Stage} {a : Memory.Action}
    (h : stage.permits (.backend a)) : a ≠ .close := by
  rintro rfl
  cases stage with
  | running f =>
      cases f with
      | following id => exact h
      | retrying t => exact h rfl
      | ended => exact h rfl
  | starting => exact h rfl
  | listed version => exact h rfl
  | failed => exact h rfl

def Stage.Kept (m : Membership) (s : Store) : Stage → Prop
  | .starting => True
  | .listed version => Listed m s version
  | .running f => ∃ id, f = .following id ∧ Awaits m s id
  | .failed => False

def World.Kept (w : World τ) : Prop :=
  w.memory.Healthy ∧ w.stage.Kept w.cache.membership w.memory.store

namespace World.Kept

variable {listener : Listener τ} {retry : Span} {w : World τ}

theorem backend (h : w.Kept) (now : Instant) {a : Memory.Action}
    (ha : w.stage.permits (.backend a)) : (w.step listener retry now (.backend a)).Kept := by
  obtain ⟨stage, membership, m, t⟩ := w
  obtain ⟨(hm : m.Healthy), (hstage : stage.Kept membership m.store)⟩ := h
  refine ⟨hm.act now (Stage.permits_ne_close ha), ?_⟩
  obtain ⟨made, hmade⟩ := hm.coherent
  cases stage with
  | starting => trivial
  | listed version =>
      have hlater := Listed.applyAll hstage hmade (m.updates now a)
      rw [← Memory.store_act] at hlater
      exact hlater
  | running f =>
      obtain ⟨id, rfl, hawaits⟩ := hstage
      have hlater := hawaits.applyAll hm.numbered
        (fun u (hu : u ∈ m.updates now a) => Memory.spares_of_mem_updates ha hu)
      rw [← Memory.store_act] at hlater
      exact ⟨id, rfl, hlater⟩
  | failed => exact hstage

theorem list (h : w.Kept) (now : Instant)
    (hsound : (w.step listener retry now .list).memory.store.Sound) :
    (w.step listener retry now .list).Kept := by
  obtain ⟨stage, membership, m, t⟩ := w
  obtain ⟨(hm : m.Healthy), (hstage : stage.Kept membership m.store)⟩ := h
  cases stage with
  | starting =>
      obtain ⟨cache, hload, hstate, hservices⟩ :=
        loadAll_spec hm.isOpen listener t membership now
      have hstep : World.step listener retry ⟨.starting, membership, m, t⟩ now .list =
          ⟨.listed (m.store.expire now).revision, cache⟩ := by
        simp only [World.step, hload]
      have hstore : cache.state.1.store = m.store.expire now := by
        rw [hstate, store_act_get hm.isOpen]
      rw [hstep] at hsound ⊢
      have hhealthy : (m.act now (.get everything)).Healthy :=
        hm.act now Memory.Action.noConfusion
      refine ⟨by rw [World.memory, hstate]; exact hhealthy, ?_, ?_⟩
      · simp only [World.memory, hstore, Int.le_refl]
      · apply Membership.Current.of_listing hsound
        simp only [World.memory, hstore, hservices]
  | listed version => exact ⟨hm, hstage⟩
  | running f => exact ⟨hm, hstage⟩
  | failed => exact hstage.elim

/-- The watch expires entries too, before it takes over the backlog. -/
theorem watch (h : w.Kept) (now : Instant) : (w.step listener retry now .watch).Kept := by
  obtain ⟨stage, membership, m, t⟩ := w
  obtain ⟨(hm : m.Healthy), (hstage : stage.Kept membership m.store)⟩ := h
  cases stage with
  | listed version =>
      have hwatch := Memory.watch_eq_of_open hm.isOpen now everything version
      have hact : m.act now (.watch everything version) =
          { m with store := ((m.store.expire now).watch everything version).2 } := by
        rw [Memory.act, hwatch]
      have hexec : ((onMemory now).watch ⟨Key.serviceRoot, true⟩ version).exec (m, t) =
          (.ok ((m.store.expire now).watch everything version).1,
            (m.act now (.watch everything version), t)) := by
        simp only [onMemory, Backend.focus, Call.focus, Call.exec, Call.of, Memory.backend,
          Memory.act, hwatch]
      have hhealthy : (m.act now (.watch everything version)).Healthy :=
        hm.act now Memory.Action.noConfusion
      obtain ⟨made, hmade⟩ := hm.coherent
      have hexpired : Listed membership (m.store.expire now) version := by
        rw [Store.expire_eq_applyAll]
        exact Listed.applyAll hstage hmade _
      have hnumbered : (m.store.expire now).channels.Numbered := by
        rw [Store.expire_eq_applyAll]
        exact Store.numbered_applyAll hm.numbered _
      have hstep : World.step listener retry ⟨.listed version, membership, m, t⟩ now .watch =
          ⟨.running (.following ((m.store.expire now).watch everything version).1), membership,
            m.act now (.watch everything version), t⟩ := by
        simp only [World.step, hexec]
      rw [hstep]
      refine ⟨hhealthy, _, rfl, ?_⟩
      simp only [World.memory, hact]
      exact hexpired.watch hnumbered
  | starting => exact ⟨hm, hstage⟩
  | running f => exact ⟨hm, hstage⟩
  | failed => exact hstage.elim

/-- A move of the cache that follows: it takes the first event, if there is one, and loads
what that concerns. -/
theorem handle (h : w.Kept) (now : Instant)
    (hsound : (w.step listener retry now .handle).memory.store.Sound) :
    (w.step listener retry now .handle).Kept := by
  obtain ⟨stage, membership, m, t⟩ := w
  obtain ⟨(hm : m.Healthy), (hstage : stage.Kept membership m.store)⟩ := h
  cases stage with
  | running f =>
      obtain ⟨id, rfl, c, hc, hscope, hopen, hcurrent⟩ := hstage
      cases hwaiting : c.waiting with
      | nil =>
          have hreceive : m.receive id = (.nothing, m) := by
            simp only [Memory.receive, Channels.receive, hc, hwaiting, hopen, if_true]
          have hstep : World.step listener retry ⟨.running (.following id), membership, m, t⟩ now
              .handle = ⟨.running (.following id), membership, m, t⟩ := by
            simp [World.step, Follower.step, onMemory, Backend.focus, Memory.backend, hreceive]
          rw [hstep]
          exact ⟨hm, id, rfl, c, hc, hscope, hopen, hcurrent⟩
      | cons e rest =>
          have hreceive : m.receive id = (.event e, m.act now (.receive id)) := by
            simp only [Memory.act, Memory.receive, Channels.receive, hc, hwaiting]
          have hhealthy : (m.act now (.receive id)).Healthy :=
            hm.act now Memory.Action.noConfusion
          have hrest : (m.act now (.receive id)).store.channels.find? id =
              some { c with waiting := rest } := by
            simp only [Memory.act, Memory.receive, Channels.receive, hc, hwaiting]
            exact Channels.find?_setWaiting_self hc rest
          have hleft : membership.Current (m.act now (.receive id)).store (e :: rest) := by
            rw [← hwaiting]
            exact hcurrent.congr rfl
          have hstep : World.step listener retry ⟨.running (.following id), membership, m, t⟩ now
              .handle = ⟨.running (.following id), Cached.handle (onMemory now) (beside listener) e
                ⟨membership, (m.act now (.receive id), t)⟩⟩ := by
            simp only [World.step, Follower.step, Bool.false_eq_true, if_false, onMemory,
              Backend.focus, Memory.backend, hreceive]
          rw [hstep] at hsound ⊢
          obtain ⟨hafter, hawaits⟩ := awaits_handle listener t now hhealthy hrest
            hscope hopen hleft
          exact ⟨hafter, id, rfl, hawaits hsound⟩
  | starting => exact ⟨hm, hstage⟩
  | listed version => exact ⟨hm, hstage⟩
  | failed => exact hstage.elim

end World.Kept

theorem kept_of_reachable {listener : Listener τ} {retry : Span} {w : World τ}
    (h : Reachable listener retry w) : w.Kept := by
  induction h with
  | start limit before t hopen => exact ⟨Memory.Healthy.run limit before hopen, trivial⟩
  | step now move _ hpermits hsound ih =>
      cases move with
      | backend a => exact ih.backend now hpermits
      | list => exact ih.list now hsound
      | watch => exact ih.watch now
      | handle => exact ih.handle now hsound

/-- In every state that a started cache can be in, it follows a channel that is
open, and each service is held as it is stored or an event that concerns it still
waits there; what is no service name is never held. So with nothing waiting the
cache is the whole store grouped by service, and its node at an address is the
one that stands at its key, if there is one. -/
theorem follows (listener : Listener τ) (retry : Span) {w : World τ}
    (h : Reachable listener retry w) {f : Follower} (hf : w.stage = .running f) :
    ∃ id c, f = .following id ∧ w.memory.store.channels.find? id = some c ∧ c.isOpen = true ∧
      (∀ service, Key.IsServiceName service →
        w.cache.membership.members? service = w.memory.store.membersOf service ∨
          Pending c.waiting service) ∧
      (∀ service, ¬ Key.IsServiceName service → w.cache.membership.members? service = none) ∧
      (c.waiting = [] →
        w.cache.membership.services =
            byService (w.memory.store.nodesUnder Key.serviceRoot) ∧
          ∀ service address, Key.IsServiceName service →
            (w.cache.membership.members? service).bind (fun members => members.get? address) =
              (w.memory.store.entries.get? (Key.service service address)).bind
                (fun e => (Node.decode e.value).toOption)) := by
  have hsound : w.memory.store.Sound := by
    cases h with
    | start limit before t hopen => cases hf
    | step now move _ hpermits hsound => exact hsound
  obtain ⟨hm, hstage⟩ := kept_of_reachable h
  rw [hf] at hstage
  obtain ⟨id, rfl, c, hc, hscope, hopen, hcurrent⟩ := hstage
  refine ⟨id, c, rfl, hc, hopen, hcurrent.members, hcurrent.others, ?_⟩
  intro hnothing
  rw [hnothing] at hcurrent
  refine ⟨hcurrent.services_eq hsound, ?_⟩
  intro service address hservice
  rcases hcurrent.members service hservice with hmembers | ⟨e, he, _⟩
  · rw [hmembers, hsound.member_eq hservice]
  · cases he

def sampleText : String := "[0,1,\"a\",\"x\"]"

def sampleNode : Node := ⟨⟨0⟩, 1, "a", "x", ∅⟩

theorem decode_sampleText : Node.decode sampleText = .ok sampleNode := by
  have hvalue : Json.readValue 28 sampleText.toList =
      (.array [.number ⟨false, [0], [], none⟩, .number ⟨false, [1], [], none⟩,
        .text (some "a"), .text (some "x")] true, []) := by
    simp [sampleText, Json.readValue, Json.readItems, Json.skipBlanks, Json.readNumeral,
      Json.readUnsigned, Json.readWhole, Json.digitsOf, Json.readFraction, Json.readExponent,
      Json.readPieces, Json.joinPieces]
  have hfuel : 2 * sampleText.toList.length + 2 = 28 := by decide
  simp only [Node.decode, Json.decode, Json.read, hfuel, hvalue]
  rfl

/-- A store whose one entry is the node of the example at its own key is sound. -/
theorem sound_sample {s : Store} {version : Int} {deadline : Option Instant}
    (h : s.entries = (∅ : Table String Entry).insert "service/a/x"
      ⟨sampleText, version, deadline⟩) : s.Sound := by
  intro key e node hentry _ hdecode
  rw [h, Table.get?_insert] at hentry
  split at hentry
  · rename_i hkey
    obtain rfl := Option.some.inj hentry
    rw [decode_sampleText] at hdecode
    obtain rfl := Except.ok.inj hdecode
    exact ⟨by decide, hkey⟩
  · cases hentry

/-- A cache that lists an empty store, misses a write before it watches, and then
handles one event. -/
def sampleWorld (moves : List Move) : World Unit :=
  moves.foldl (fun w move => w.step (fun _ _ t => t) .zero ⟨0⟩ move)
    ⟨.starting, ⟨.empty, ((Memory.create 1).run [], ())⟩⟩

def sampleWrite : Move := .backend (.set "service/a/x" sampleText .zero)

/-- The write comes between the listing and the watch, so it is told by the backlog, and the
member is there after one event. -/
theorem follows_written :
    ((sampleWorld [.list, sampleWrite, .watch, .handle]).cache.membership.members? "a").bind
      (fun members => members.get? "x") = some sampleNode := by
  have hstart : Reachable (fun _ _ t => t) .zero (sampleWorld []) := .start 1 [] () rfl
  have hlisted : Reachable (fun _ _ t => t) .zero (sampleWorld [.list]) := by
    refine .step ⟨0⟩ .list hstart trivial ?_
    intro key e node hentry
    cases hentry
  have hwritten : Reachable (fun _ _ t => t) .zero (sampleWorld [.list, sampleWrite]) :=
    .step ⟨0⟩ sampleWrite hlisted Memory.Action.noConfusion (sound_sample rfl)
  have hwatching : Reachable (fun _ _ t => t) .zero (sampleWorld [.list, sampleWrite, .watch]) :=
    .step ⟨0⟩ .watch hwritten trivial (sound_sample rfl)
  have hhandled :
      Reachable (fun _ _ t => t) .zero (sampleWorld [.list, sampleWrite, .watch, .handle]) :=
    .step ⟨0⟩ .handle hwatching trivial (sound_sample rfl)
  obtain ⟨id, c, hid, hc, -, -, -, hempty⟩ := follows (fun _ _ t => t) .zero hhandled rfl
  obtain rfl : 0 = id := Follower.following.inj hid
  have hchannel : (sampleWorld [.list, sampleWrite, .watch, .handle]).memory.store.channels.find? 0
      = some ⟨0, everything, [], true⟩ := rfl
  obtain rfl := Option.some.inj (hchannel.symm.trans hc)
  have hmember := (hempty rfl).2 "a" "x" (by decide)
  have hentry : (sampleWorld [.list, sampleWrite, .watch, .handle]).memory.store.entries.get?
      (Key.service "a" "x") = some ⟨sampleText, 1, none⟩ := by rfl
  rw [hmember, hentry, Option.bind_some, decode_sampleText]
  rfl

end Following

end Rollcall
