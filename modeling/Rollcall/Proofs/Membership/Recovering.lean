import Rollcall.Proofs.Membership.Following
import Rollcall.Proofs.Memory.Ledger

/-!
A cache that has lost its watch. It waits, lists everything and watches from the
version of that listing, until both are answered, and then loads again what the events
name; the backend is any that keeps a ledger, and listing, watching, taking an event
and loading are moves of their own, between which others act. Whatever the cache held
before and however often it failed, a new channel goes on from the listing that the
cache holds, so each service is from then on held as it is stored, or an event that
concerns it is still to be handled, or the load for the last one failed. Main
statements: `recovers`, and `step_list_watch` and `step_receive_load`, by which the
moves are those of a follower.
-/

namespace Rollcall

open Rollcall.Following (beside everything state_fst_replaceAll)
open Rollcall.Membership (byAddress byService nodesOf)

/-- The last event that was handled and concerns the service had its load fail. With
each event that was handled stands whether its load was answered. -/
def Missed (handled : List (Event × Bool)) (service : String) : Prop :=
  ∃ before e after, handled = before ++ (e, false) :: after ∧ e.concerns service ∧
    ∀ h ∈ after, ¬ h.1.concerns service

section

variable {handled : List (Event × Bool)} {events later : List Event} {service : String} {e : Event}

theorem Missed.last (h : e.concerns service) : Missed (handled ++ [(e, false)]) service :=
  ⟨handled, e, [], rfl, h, nofun⟩

/-- An event of another service does not make up for a load that failed. -/
theorem Missed.other (h : Missed handled service) (he : ¬ e.concerns service) (answered : Bool) :
    Missed (handled ++ [(e, answered)]) service := by
  obtain ⟨before, missed, after, rfl, hmissed, hafter⟩ := h
  refine ⟨before, missed, after ++ [(e, answered)], by simp, hmissed, ?_⟩
  intro h hmem
  rcases List.mem_append.mp hmem with hold | hnew
  · exact hafter h hold
  · rw [List.mem_singleton.mp hnew]
    exact he

theorem Pending.tells (h : Pending events service) (htells : Tells events later) :
    Pending later service := by
  obtain ⟨e, he, hconcerns⟩ := h
  rcases htells.mem he with hkept | hrefresh
  · exact ⟨e, hkept, hconcerns⟩
  · exact ⟨.refresh, hrefresh, trivial⟩

theorem Pending.cases (h : Pending (e :: events) service) :
    e.concerns service ∨ Pending events service := by
  obtain ⟨f, hf, hconcerns⟩ := h
  rcases List.mem_cons.mp hf with rfl | hrest
  · exact .inl hconcerns
  · exact .inr ⟨f, hrest, hconcerns⟩

end

/-- Up to the events that are still to be handled and those whose loads failed, a cache
holds the members that some contents have. -/
structure Membership.Upheld (m : Membership) (t : Contents) (handled : List (Event × Bool))
    (events : List Event) : Prop where
  members : ∀ service, Key.IsServiceName service →
    m.members? service = t.membersOf service ∨ Pending events service ∨ Missed handled service
  others : ∀ service, ¬ Key.IsServiceName service → m.members? service = none

namespace Membership.Upheld

variable {m : Membership} {t : Contents} {handled : List (Event × Bool)} {events : List Event}

/-- A cache that has just been filled from a listing has everything that was listed, and
waits for nothing. -/
theorem of_listing (h : t.Sound) (hm : m.services = byService (t.nodesUnder Key.serviceRoot)) :
    m.Upheld t handled events := by
  constructor
  · intro service hservice
    left
    rw [members?, hm, Contents.get?_byService h hservice]
  · intro service hservice
    rw [members?, hm, Contents.get?_byService_of_not h hservice]

theorem after (h : m.Upheld t handled events) {cs : List Change} {later : List Event}
    (htells : Tells (events ++ everything.eventsOf cs) later) :
    m.Upheld (t.after cs) handled later := by
  refine ⟨?_, h.others⟩
  intro service hservice
  rcases Contents.nodesUnder_after t cs (Key.servicePrefix service) with hsame | ⟨c, hc, hkey⟩
  · rcases h.members service hservice with hmembers | hpending | hmissed
    · left
      rw [hmembers, Contents.membersOf, Contents.membersOf, hsame]
    · have hall : Pending (events ++ everything.eventsOf cs) service := by
        obtain ⟨e, he, hconcerns⟩ := hpending
        exact ⟨e, List.mem_append_left _ he, hconcerns⟩
      exact .inr (.inl (hall.tells htells))
    · exact .inr (.inr hmissed)
  · right
    left
    have hcovered : Event.change c ∈ everything.eventsOf cs :=
      List.mem_map_of_mem
        (List.mem_filter.mpr ⟨hc, Key.startsWith_root_of_servicePrefix hkey⟩)
    have hall : Pending (events ++ everything.eventsOf cs) service :=
      ⟨_, List.mem_append_right _ hcovered, Key.serviceName?_of_startsWith hservice hkey⟩
    exact hall.tells htells

/-- The first event is handled, by a load of what it concerns or by one that failed. -/
theorem handle {e : Event} (h : m.Upheld t handled (e :: events)) {m' : Membership}
    {answered : Bool}
    (hconcerned : ∀ service, Key.IsServiceName service → e.concerns service →
      m'.members? service = t.membersOf service ∨ answered = false)
    (hkept : ∀ service, Key.IsServiceName service → ¬ e.concerns service →
      m'.members? service = m.members? service)
    (hothers : ∀ service, ¬ Key.IsServiceName service → m'.members? service = none) :
    m'.Upheld t (handled ++ [(e, answered)]) events := by
  refine ⟨?_, hothers⟩
  intro service hservice
  by_cases hconcerns : e.concerns service
  · rcases hconcerned service hservice hconcerns with hloaded | rfl
    · exact .inl hloaded
    · exact .inr (.inr (.last hconcerns))
  · rw [hkept service hservice hconcerns]
    rcases h.members service hservice with hmembers | hpending | hmissed
    · exact .inl hmembers
    · exact .inr (.inl (hpending.cases.resolve_left hconcerns))
    · exact .inr (.inr (hmissed.other hconcerns answered))

/-- An event whose load failed is no longer to be handled; from then on it counts among the
missed. -/
theorem failed {e : Event} (h : m.Upheld t handled (e :: events)) :
    m.Upheld t (handled ++ [(e, false)]) events :=
  h.handle (fun _ _ _ => .inr rfl) (fun _ _ _ => rfl) h.others

theorem skip {c : Change} (h : m.Upheld t handled (.change c :: events))
    (hnone : Key.serviceName? Key.serviceRoot c.pair.key = none) :
    m.Upheld t (handled ++ [(.change c, true)]) events := by
  refine h.handle ?_ (fun _ _ _ => rfl) h.others
  intro service _ hconcerns
  have hnames := hnone.symm.trans hconcerns
  cases hnames

/-- The load that an event asks for brings its service up to date, and leaves what is known
of the others. -/
theorem replace {c : Change} {service : String} (h : m.Upheld t handled (.change c :: events))
    (hname : Key.serviceName? Key.serviceRoot c.pair.key = some service) :
    (m.replace service (byAddress (t.nodesUnder (Key.servicePrefix service)))).1.Upheld t
      (handled ++ [(.change c, true)]) events := by
  refine h.handle ?_ ?_ ?_
  · intro name _ hconcerns
    obtain rfl : service = name := Option.some.inj (hname.symm.trans hconcerns)
    left
    rw [members?_replace, if_pos rfl, Contents.membersOf]
  · intro name _ hconcerns
    have hne : name ≠ service := by
      rintro rfl
      exact hconcerns hname
    rw [members?_replace, if_neg hne]
  · intro name hnot
    have hne : name ≠ service := by
      rintro rfl
      exact hnot (Key.of_serviceName? hname).1
    rw [members?_replace, if_neg hne]
    exact h.others name hnot

end Membership.Upheld

namespace Recovering

variable {σ τ : Type}

def onBackend (b : Backend σ) : Backend (σ × τ) :=
  b.focus Prod.fst (fun s t => (s, t.2))

/-- A cache lists before it watches, and takes an event before it handles it. While it
follows a channel, the stage records the version from which that was opened, the events
that it has handled and the one that it has taken. -/
inductive Stage where
  | retrying (wakeAt : Instant)
  | listed (version : Int)
  | following (id : Nat) (version : Int) (handled : List (Event × Bool)) (taken : Option Event)
  | ended

/-- An error leads to another attempt, a crash to none. -/
def Stage.afterFailure (now : Instant) (retry : Span) : Failure → Stage
  | .error _ => .retrying (now.after retry).wake
  | .crash => .ended

def Stage.held : Stage → Option Nat
  | .following id _ _ _ => some id
  | _ => none

/-- The follower that the cache is, unless it stands between two calls. -/
def Stage.follower? : Stage → Option Follower
  | .retrying t => some (.retrying t)
  | .following id _ _ none => some (.following id)
  | .ended => some .ended
  | _ => none

structure World (σ τ : Type) where
  stage : Stage
  cache : Cached (σ × τ)

def World.state (w : World σ τ) : σ := w.cache.state.1

inductive Move (σ : Type) where
  | others (s : σ)
  | list (cancelled : Bool)
  | watch
  | receive (cancelled : Bool)
  | load

def answered (b : Backend σ) (s : σ) : Event → Bool
  | .refresh => ((b.get everything).exec s).1.isOk
  | .change c =>
      match Key.serviceName? Key.serviceRoot c.pair.key with
      | none => true
      | some service => ((b.get ⟨Key.servicePrefix service, true⟩).exec s).1.isOk

def World.step (b : Instant → Backend σ) (listener : Listener τ) (retry : Span)
    (w : World σ τ) (now : Instant) : Move σ → World σ τ
  | .others s => { w with cache := { w.cache with state := (s, w.cache.state.2) } }
  | .list cancelled =>
      match w.stage with
      | .retrying t =>
          if cancelled then
            ⟨.ended, { w.cache with state := (onBackend (b now)).close w.cache.state }⟩
          else if now < t then w
          else
            match w.cache.loadAll (onBackend (b now)) (beside listener) with
            | (.ok version, cache) => ⟨.listed version, cache⟩
            | (.error f, cache) => ⟨.afterFailure now retry f, cache⟩
      | _ => w
  | .watch =>
      match w.stage with
      | .listed version =>
          match ((onBackend (b now)).watch everything version).exec w.cache.state with
          | (.ok id, state) => ⟨.following id version [] none, { w.cache with state }⟩
          | (.error f, state) => ⟨.afterFailure now retry f, { w.cache with state }⟩
      | _ => w
  | .receive cancelled =>
      match w.stage with
      | .following id version handled none =>
          if cancelled then
            let state := (onBackend (b now)).dropWatch id w.cache.state
            ⟨.ended, { w.cache with state := (onBackend (b now)).close state }⟩
          else
            match (onBackend (b now)).receive id w.cache.state with
            | (.nothing, state) => { w with cache := { w.cache with state } }
            | (.event e, state) =>
                ⟨.following id version handled (some e), { w.cache with state }⟩
            | (.ended, state) =>
                ⟨.retrying (now.after retry).wake,
                  { w.cache with state := (onBackend (b now)).dropWatch id state }⟩
      | _ => w
  | .load =>
      match w.stage with
      | .following id version handled (some e) =>
          ⟨.following id version (handled ++ [(e, answered (b now) w.state e)]) none,
            w.cache.handle (onBackend (b now)) (beside listener) e⟩
      | _ => w

section Follower

variable (b : Instant → Backend σ) (listener : Listener τ) (retry : Span)
  (cache : Cached (σ × τ)) (now : Instant) (cancelled : Bool)

/-- Listing and watching with nothing in between is a step of a follower that waits. -/
theorem step_list_watch (t : Instant) :
    let w := ((World.mk (.retrying t) cache).step b listener retry now (.list cancelled)).step
      b listener retry now .watch
    let next := (Follower.retrying t).step (onBackend (b now)) (beside listener) now retry
      cancelled cache
    w.stage.follower? = some next.2.1 ∧ w.cache = next.2.2 := by
  cases cancelled with
  | true => exact ⟨rfl, rfl⟩
  | false =>
      simp only [World.step, Follower.step, Bool.false_eq_true, if_false]
      by_cases hearly : now < t
      · simp [hearly, Stage.follower?]
      simp only [hearly, if_false, Cached.refresh]
      rcases cache.loadAll (onBackend (b now)) (beside listener) with ⟨answer, loaded⟩
      cases answer with
      | error f => cases f <;> exact ⟨rfl, rfl⟩
      | ok version =>
          simp only
          rcases ((onBackend (b now)).watch everything version).exec loaded.state with
            ⟨found, state⟩
          cases found with
          | error f => cases f <;> exact ⟨rfl, rfl⟩
          | ok id => exact ⟨rfl, rfl⟩

/-- Taking an event and handling it with nothing in between is a step of a follower that
follows. -/
theorem step_receive_load (id : Nat) (version : Int) (handled : List (Event × Bool)) :
    let w := ((World.mk (.following id version handled none) cache).step b listener retry now
      (.receive cancelled)).step b listener retry now .load
    let next := (Follower.following id).step (onBackend (b now)) (beside listener) now retry
      cancelled cache
    w.stage.follower? = some next.2.1 ∧ w.cache = next.2.2 := by
  cases cancelled with
  | true => exact ⟨rfl, rfl⟩
  | false =>
      simp only [World.step, Follower.step, Bool.false_eq_true, if_false]
      rcases (onBackend (b now)).receive id cache.state with ⟨received, state⟩
      cases received <;> exact ⟨rfl, rfl⟩

end Follower

def Stage.permits (L : Ledger σ) (stage : Stage) (s : σ) : Move σ → Prop
  | .others s' => L.Moves stage.held s s'
  | _ => True

/-- All nodes have been written at their own keys. -/
def Placed (L : Ledger σ) (s : σ) : Prop := ∀ log, L.Made s log → ∀ c ∈ log, c.Placed

/-- What a cache that has lost its watch, whatever it holds, and any moves after that
lead to. -/
inductive Reachable (L : Ledger σ) (b : Instant → Backend σ) (listener : Listener τ)
    (retry : Span) : World σ τ → Prop where
  | start (wakeAt : Instant) (m : Membership) (s : σ) (t : τ) (missed : List Change)
      (hmade : L.Made s missed) : Reachable L b listener retry ⟨.retrying wakeAt, m, s, t⟩
  | step {w : World σ τ} (now : Instant) (move : Move σ) (h : Reachable L b listener retry w)
      (hpermits : w.stage.permits L w.state move)
      (hplaced : Placed L (w.step b listener retry now move).state) :
      Reachable L b listener retry (w.step b listener retry now move)

section Loads

variable {b : Backend σ} (listener : Listener τ) (m : Membership) {s s' : σ} (t : τ)
  {listing : Listing} {f : Failure}

theorem get_onBackend (scope : Scope) :
    ((onBackend b).get scope).exec (s, t) =
      (((b.get scope).exec s).1, ((b.get scope).exec s).2, t) := rfl

theorem watch_onBackend (scope : Scope) (version : Int) :
    ((onBackend b).watch scope version).exec (s, t) =
      (((b.watch scope version).exec s).1, ((b.watch scope version).exec s).2, t) := rfl

theorem receive_onBackend (id : Nat) :
    (onBackend b).receive id (s, t) = ((b.receive id s).1, (b.receive id s).2, t) := rfl

theorem loadAll_of_error (h : (b.get everything).exec s = (.error f, s')) :
    Cached.loadAll (onBackend b) (beside listener) ⟨m, s, t⟩ = (.error f, ⟨m, s', t⟩) := by
  simp only [Cached.loadAll, get_onBackend, h]

/-- A listing that is answered fills the cache, whatever it held, and the state of the
backend is what the query left. -/
theorem loadAll_of_ok (h : (b.get everything).exec s = (.ok listing, s')) :
    ∃ cache, Cached.loadAll (onBackend b) (beside listener) ⟨m, s, t⟩ =
        (.ok listing.version, cache) ∧
      cache.state.1 = s' ∧ cache.membership.services = byService (nodesOf listing) := by
  simp only [Cached.loadAll, get_onBackend, h]
  refine ⟨_, rfl, state_fst_replaceAll _ _ _, ?_⟩
  exact Cached.replaceAll_replacements listing

theorem loadService_of_error {service : String}
    (h : (b.get ⟨Key.servicePrefix service, true⟩).exec s = (.error f, s')) :
    Cached.loadService (onBackend b) (beside listener) service ⟨m, s, t⟩ =
      (.error f, ⟨m, s', t⟩) := by
  simp only [Cached.loadService, get_onBackend, h]

theorem loadService_of_ok {service : String}
    (h : (b.get ⟨Key.servicePrefix service, true⟩).exec s = (.ok listing, s')) :
    ∃ cache, Cached.loadService (onBackend b) (beside listener) service ⟨m, s, t⟩ =
        (.ok listing.version, cache) ∧
      cache.state.1 = s' ∧
      cache.membership = (m.replace service (byAddress (nodesOf listing))).1 := by
  simp only [Cached.loadService, get_onBackend, h]
  exact ⟨_, rfl, rfl, rfl⟩

end Loads

section Keeping

variable {L : Ledger σ} {b : Instant → Backend σ} {listener : Listener τ} {m : Membership}
  {s s' : σ} {t : τ} {log cs old new : List Change}

/-- Handling an event loads what the event concerns as it then is, or fails. More may
happen before and after that. -/
theorem upheld_handle (hb : L.Kept b) (listener : Listener τ) (m : Membership) (t : τ)
    (held : Option Nat) (now : Instant) (hmade : L.Made s log) (e : Event) :
    let cache := Cached.handle (onBackend (b now)) (beside listener) e ⟨m, s, t⟩
    ∃ cs ds, L.Later held s log cache.state.1 (cs ++ ds) ∧
      ∀ handled events, ((∅ : Contents).after (log ++ cs)).Sound →
        m.Upheld ((∅ : Contents).after (log ++ cs)) handled (e :: events) →
        cache.membership.Upheld ((∅ : Contents).after (log ++ cs))
          (handled ++ [(e, answered (b now) s e)]) events := by
  cases e with
  | refresh =>
      obtain ⟨cs, ds, hlater, hanswer⟩ := hb.get held now Key.serviceRoot s log hmade
      rcases hexec : ((b now).get everything).exec s with ⟨answer, s'⟩
      rw [hexec] at hlater hanswer
      simp only [answered, hexec]
      cases answer with
      | error f =>
          simp only [Cached.handle, loadAll_of_error _ _ _ hexec]
          exact ⟨cs, ds, hlater, fun _ _ _ h => h.failed⟩
      | ok listing =>
          obtain ⟨cache, hload, rfl, hservices⟩ := loadAll_of_ok listener m t hexec
          simp only [Cached.handle, hload]
          refine ⟨cs, ds, hlater, fun _ _ hsound _ => .of_listing hsound ?_⟩
          rw [hservices, Contents.nodesOf_snapshot (hanswer listing rfl).1]
  | change c =>
      cases hname : Key.serviceName? Key.serviceRoot c.pair.key with
      | none =>
          simp only [Cached.handle, hname, answered]
          exact ⟨[], [], .refl hmade, fun _ _ _ h => h.skip hname⟩
      | some service =>
          obtain ⟨cs, ds, hlater, hanswer⟩ :=
            hb.get held now (Key.servicePrefix service) s log hmade
          rcases hexec : ((b now).get ⟨Key.servicePrefix service, true⟩).exec s with ⟨answer, s'⟩
          rw [hexec] at hlater hanswer
          simp only [answered, hname, hexec]
          cases answer with
          | error f =>
              simp only [Cached.handle, hname, loadService_of_error _ _ _ hexec]
              exact ⟨cs, ds, hlater, fun _ _ _ h => h.failed⟩
          | ok listing =>
              obtain ⟨cache, hload, rfl, hmembership⟩ := loadService_of_ok listener m t hexec
              simp only [Cached.handle, hname, hload]
              refine ⟨cs, ds, hlater, fun _ _ _ h => ?_⟩
              rw [hmembership, Contents.nodesOf_snapshot (hanswer listing rfl).1]
              exact h.replace hname

/-- The changes so far, those up to a version that has been reached and those after it. -/
structure Known (L : Ledger σ) (s : σ) (version : Int) (old new : List Change) : Prop where
  made : L.Made s (old ++ new)
  le_version : ∀ c ∈ old, c.version ≤ version
  lt_version : ∀ c ∈ new, version < c.version
  reached : version ≤ L.revision s

namespace Known

variable {version : Int} {held : Option Nat}

/-- A state that came later is known with the changes that came with it. -/
theorem later (h : Known L s version old new) (hlater : L.Later held s (old ++ new) s' cs) :
    Known L s' version old (new ++ cs) where
  made := by
    rw [← List.append_assoc]
    exact hlater.made
  le_version := h.le_version
  lt_version := by
    intro c hc
    rcases List.mem_append.mp hc with hfirst | hsecond
    · exact h.lt_version c hfirst
    · exact Int.lt_of_le_of_lt h.reached (hlater.lt_version c hsecond)
  reached := Int.le_trans h.reached hlater.revision_le

/-- The new changes are those with versions after the one that was reached. -/
theorem filter_lt (h : Known L s version old new) :
    (old ++ new).filter (fun c => version < c.version) = new := by
  have hold : old.filter (fun c => version < c.version) = [] := by
    apply List.filter_eq_nil_iff.mpr
    intro c hc
    have hle := h.le_version c hc
    simp only [decide_eq_true_eq]
    omega
  have hnew : new.filter (fun c => version < c.version) = new := by
    apply List.filter_eq_self.mpr
    intro c hc
    exact decide_eq_true (h.lt_version c hc)
  rw [List.filter_append, hold, hnew, List.nil_append]

end Known

/-- A cache holds what is listed after these changes, and nothing else. -/
def Holds (m : Membership) (cs : List Change) : Prop :=
  m.services = byService (((∅ : Contents).after cs).nodesUnder Key.serviceRoot)

/-- A cache follows a channel that goes on from the listing that it held at first. -/
structure Follows (L : Ledger σ) (m : Membership) (s : σ) (id : Nat) (version : Int)
    (handled : List (Event × Bool)) (taken : Option Event) (old new : List Change) : Prop where
  known : Known L s version old new
  opened : L.Opened s id
  listed : handled = [] → Holds m old
  live : ∀ scope waiting, L.due? s id = some (scope, waiting) →
    scope = everything ∧
      Tells (everything.eventsOf new) (handled.map Prod.fst ++ taken.toList ++ waiting) ∧
      m.Upheld ((∅ : Contents).after (old ++ new)) handled (taken.toList ++ waiting)

namespace Follows

variable {id : Nat} {version : Int} {handled : List (Event × Bool)} {taken : Option Event}

/-- What is told of some changes, and of more that come later, is told of all of them. -/
theorem told_later {front before waiting : List Event}
    (htold : Tells (everything.eventsOf new) (front ++ before))
    (hlater : Tells (before ++ everything.eventsOf cs) waiting) :
    Tells (everything.eventsOf (new ++ cs)) (front ++ waiting) := by
  have hall := htold.append (.refl (everything.eventsOf cs))
  rw [← Scope.eventsOf_append, List.append_assoc] at hall
  exact hall.trans ((Tells.refl front).append hlater)

/-- While others act, the channel of a cache that follows is due what they change. -/
theorem later (h : Follows L m s id version handled taken old new)
    (hlater : L.Later (some id) s (old ++ new) s' cs) :
    Follows L m s' id version handled taken old (new ++ cs) where
  known := h.known.later hlater
  opened := hlater.opened id rfl h.opened
  listed := h.listed
  live := by
    intro scope waiting hdue
    obtain ⟨before, hbefore, htells⟩ := hlater.due id rfl h.opened scope waiting hdue
    obtain ⟨rfl, htold, hupheld⟩ := h.live scope before hbefore
    refine ⟨rfl, told_later htold htells, ?_⟩
    rw [← List.append_assoc, Contents.after_append]
    apply hupheld.after
    rw [List.append_assoc]
    exact (Tells.refl taken.toList).append htells

theorem receive (h : Follows L m s id version handled none old new)
    (hmade : L.Made s' (old ++ new)) (hrevision : L.revision s' = L.revision s)
    (hopened : L.Opened s' id)
    (hdue : ∀ scope waiting, L.due? s' id = some (scope, waiting) →
      L.due? s id = some (scope, taken.toList ++ waiting)) :
    Follows L m s' id version handled taken old new where
  known := ⟨hmade, h.known.le_version, h.known.lt_version, hrevision ▸ h.known.reached⟩
  opened := hopened
  listed := h.listed
  live := by
    intro scope waiting hwaiting
    obtain ⟨rfl, htold, hupheld⟩ := h.live scope _ (hdue scope waiting hwaiting)
    refine ⟨rfl, ?_, hupheld⟩
    simpa using htold

/-- The load that an event asks for, answered or not. The backend may have changed before it
answers, and the channel is due that too. -/
theorem load {e : Event} (hb : L.Kept b) (h : Follows L m s id version handled (some e) old new)
    (now : Instant)
    (hplaced : Placed L
      (Cached.handle (onBackend (b now)) (beside listener) e ⟨m, s, t⟩).state.1) :
    let cache := Cached.handle (onBackend (b now)) (beside listener) e ⟨m, s, t⟩
    ∃ cs, Follows L cache.membership cache.state.1 id version
      (handled ++ [(e, answered (b now) s e)]) none old (new ++ cs) := by
  intro cache
  obtain ⟨cs, ds, hlater, hhandle⟩ :=
    upheld_handle hb listener m t (some id) now h.known.made e
  refine ⟨cs ++ ds, h.known.later hlater, hlater.opened id rfl h.opened, ?_, ?_⟩
  · intro hnone
    exact absurd hnone (by simp)
  · intro scope waiting hdue
    obtain ⟨before, hbefore, htells⟩ := hlater.due id rfl h.opened scope waiting hdue
    obtain ⟨rfl, htold, hupheld⟩ := h.live scope before hbefore
    -- The load answers with what there was after `cs`; the channel tells of `ds` as well.
    have hsound : ((∅ : Contents).after (old ++ new ++ cs)).Sound := by
      apply Contents.sound_after
      intro c hc
      refine hplaced _ hlater.made c ?_
      rw [← List.append_assoc]
      exact List.mem_append_left _ hc
    have hcurrent : m.Upheld ((∅ : Contents).after (old ++ new ++ cs)) handled
        (e :: (before ++ everything.eventsOf cs)) := by
      rw [Contents.after_append]
      exact hupheld.after (.refl _)
    refine ⟨rfl, ?_, ?_⟩
    · simpa using told_later htold htells
    · rw [← List.append_assoc, ← List.append_assoc, Contents.after_append]
      apply (hhandle handled _ hsound hcurrent).after
      rwa [List.append_assoc, ← Scope.eventsOf_append]

end Follows

end Keeping

def Stage.Kept (L : Ledger σ) (m : Membership) (s : σ) : Stage → Prop
  | .retrying _ => ∃ log, L.Made s log
  | .listed version => ∃ old new, Known L s version old new ∧ Holds m old
  | .following id version handled taken =>
      ∃ old new, Follows L m s id version handled taken old new
  | .ended => True

def World.Kept (L : Ledger σ) (w : World σ τ) : Prop :=
  w.stage.Kept L w.cache.membership w.state

/-- A call that failed leaves a cache that waits for another attempt, or none. -/
theorem kept_afterFailure {L : Ledger σ} {m : Membership} {s : σ} {log : List Change}
    (h : L.Made s log) (now : Instant) (retry : Span) (f : Failure) :
    (Stage.afterFailure now retry f).Kept L m s := by
  cases f with
  | error e => exact ⟨log, h⟩
  | crash => trivial

/-- A watch that is answered goes on from the version that it is given: its channel is due
every change after that, as the laws of the ledger say. -/
theorem watch_spec {L : Ledger σ} {b : Instant → Backend σ} (hb : L.Kept b) {s s' : σ}
    {version : Int} {old new : List Change} (h : Known L s version old new) {now : Instant}
    {id : Nat} (hexec : ((b now).watch everything version).exec s = (.ok id, s')) :
    ∃ cs waiting, Known L s' version old (new ++ cs) ∧ L.Opened s' id ∧
      L.due? s' id = some (everything, waiting) ∧
      Tells (everything.eventsOf (new ++ cs)) waiting := by
  obtain ⟨cs, hlater, hanswer⟩ := hb.watch now everything version s _ h.made h.reached
  rw [hexec] at hlater hanswer
  obtain ⟨hopened, waiting, hdue, htells⟩ := hanswer id rfl
  have hknown := h.later hlater
  rw [List.append_assoc, hknown.filter_lt] at htells
  exact ⟨cs, waiting, hknown, hopened, hdue, htells⟩

namespace World.Kept

variable {L : Ledger σ} {b : Instant → Backend σ} {listener : Listener τ} {retry : Span}
  {w : World σ τ}

/-- A move of others, at any stage. They may drop changes from the history, but not take
from the channel. -/
theorem others (h : w.Kept L) (now : Instant) {s : σ} (hs : L.Moves w.stage.held w.state s) :
    (w.step b listener retry now (.others s)).Kept L := by
  obtain ⟨stage, cache⟩ := w
  cases stage with
  | retrying t =>
      obtain ⟨log, hmade⟩ := h
      obtain ⟨cs, hlater⟩ := hs log hmade
      exact ⟨_, hlater.made⟩
  | listed version =>
      obtain ⟨old, new, hknown, hholds⟩ := h
      obtain ⟨cs, hlater⟩ := hs _ hknown.made
      exact ⟨old, _, hknown.later hlater, hholds⟩
  | following id version handled taken =>
      obtain ⟨old, new, hfollows⟩ := h
      obtain ⟨cs, hlater⟩ := hs _ hfollows.known.made
      exact ⟨old, _, hfollows.later hlater⟩
  | ended => trivial

/-- A listing that is answered is the version that the next watch starts from. -/
theorem list (hb : L.Kept b) (h : w.Kept L) (now : Instant) (cancelled : Bool) :
    (w.step b listener retry now (.list cancelled)).Kept L := by
  obtain ⟨stage, m, s, t⟩ := w
  cases stage with
  | retrying wakeAt =>
      cases cancelled with
      | true => trivial
      | false =>
          obtain ⟨log, hmade⟩ := h
          by_cases hearly : now < wakeAt
          · simp only [World.step, Bool.false_eq_true, hearly, if_true, if_false]
            exact ⟨log, hmade⟩
          obtain ⟨cs, ds, hlater, hanswer⟩ := hb.get none now Key.serviceRoot s log hmade
          rcases hexec : ((b now).get everything).exec s with ⟨answer, s'⟩
          rw [hexec] at hlater hanswer
          cases answer with
          | error f =>
              simp only [World.step, Bool.false_eq_true, hearly, if_false,
                loadAll_of_error _ _ _ hexec]
              exact kept_afterFailure hlater.made now retry f
          | ok listing =>
              obtain ⟨cache, hload, rfl, hservices⟩ := loadAll_of_ok listener m t hexec
              obtain ⟨hpairs, hold, hnew, hreached⟩ := hanswer listing rfl
              simp only [World.step, Bool.false_eq_true, hearly, if_false, hload]
              refine ⟨log ++ cs, ds, ⟨?_, hold, hnew, hreached⟩, ?_⟩
              · rw [List.append_assoc]
                exact hlater.made
              · rw [Holds, hservices, Contents.nodesOf_snapshot hpairs]
  | listed version => exact h
  | following id version handled taken => exact h
  | ended => exact h

/-- A watch starts from the listing before it, or the cache waits again. -/
theorem watch (hb : L.Kept b) (h : w.Kept L) (now : Instant)
    (hplaced : Placed L (w.step b listener retry now .watch).state) :
    (w.step b listener retry now .watch).Kept L := by
  obtain ⟨stage, m, s, t⟩ := w
  cases stage with
  | listed version =>
      obtain ⟨old, new, hknown, hholds⟩ := h
      rcases hexec : ((b now).watch everything version).exec s with ⟨answer, s'⟩
      have hcall : ((onBackend (b now)).watch everything version).exec (s, t) =
          (answer, s', t) := by
        rw [watch_onBackend, hexec]
      cases answer with
      | error f =>
          obtain ⟨cs, hlater, -⟩ := hb.watch now everything version s _ hknown.made hknown.reached
          rw [hexec] at hlater
          simp only [World.step, hcall]
          exact kept_afterFailure hlater.made now retry f
      | ok id =>
          obtain ⟨cs, waiting, hafter, hopened, hdue, htells⟩ := watch_spec hb hknown hexec
          simp only [World.step, hcall] at hplaced ⊢
          have hsound : ((∅ : Contents).after old).Sound := by
            apply Contents.sound_after
            intro c hc
            exact hplaced _ hafter.made c (List.mem_append_left _ hc)
          refine ⟨old, new ++ cs, hafter, hopened, fun _ => hholds, ?_⟩
          intro scope found hfound
          obtain ⟨rfl, rfl⟩ := Prod.mk.inj (Option.some.inj (hdue.symm.trans hfound))
          refine ⟨rfl, htells, ?_⟩
          have hlisted : m.Upheld ((∅ : Contents).after old) [] [] := .of_listing hsound hholds
          rw [Contents.after_append]
          exact hlisted.after htells
  | retrying wakeAt => exact h
  | following id version handled taken => exact h
  | ended => exact h

/-- An event is taken from the channel, or the channel is lost and the cache waits. -/
theorem receive (hb : L.Kept b) (h : w.Kept L) (now : Instant) (cancelled : Bool) :
    (w.step b listener retry now (.receive cancelled)).Kept L := by
  obtain ⟨stage, m, s, t⟩ := w
  cases stage with
  | following id version handled taken =>
      cases taken with
      | some e => exact h
      | none =>
          cases cancelled with
          | true => trivial
          | false =>
              obtain ⟨old, new, hfollows⟩ := h
              obtain ⟨hmade, hrevision, hopened, hdue⟩ :=
                hb.receive now id s _ hfollows.known.made
              rcases hexec : (b now).receive id s with ⟨received, s'⟩
              rw [hexec] at hmade hrevision hopened hdue
              have hcall : (onBackend (b now)).receive id (s, t) = (received, s', t) := by
                rw [receive_onBackend, hexec]
              simp only [World.step, Bool.false_eq_true, if_false, hcall]
              cases received with
              | nothing =>
                  exact ⟨old, new,
                    hfollows.receive hmade hrevision (hopened hfollows.opened) hdue⟩
              | event e =>
                  exact ⟨old, new,
                    hfollows.receive hmade hrevision (hopened hfollows.opened) hdue⟩
              | ended => exact ⟨_, hb.dropWatch now id s' _ hmade⟩
  | retrying wakeAt => exact h
  | listed version => exact h
  | ended => exact h

theorem load (hb : L.Kept b) (h : w.Kept L) (now : Instant)
    (hplaced : Placed L (w.step b listener retry now .load).state) :
    (w.step b listener retry now .load).Kept L := by
  obtain ⟨stage, m, s, t⟩ := w
  cases stage with
  | following id version handled taken =>
      cases taken with
      | none => exact h
      | some e =>
          obtain ⟨old, new, hfollows⟩ := h
          obtain ⟨cs, hloaded⟩ := hfollows.load hb now hplaced
          exact ⟨old, _, hloaded⟩
  | retrying wakeAt => exact h
  | listed version => exact h
  | ended => exact h

end World.Kept

/-- By induction on the moves, one lemma for each kind of them; the laws of the ledger are
all that is used of the backend. -/
theorem kept_of_reachable {L : Ledger σ} {b : Instant → Backend σ} (hb : L.Kept b)
    {listener : Listener τ} {retry : Span} {w : World σ τ}
    (h : Reachable L b listener retry w) : w.Kept L := by
  induction h with
  | start wakeAt m s t missed hmade => exact ⟨missed, hmade⟩
  | step now move _ hpermits hplaced ih =>
      cases move with
      | others s => exact ih.others now hpermits
      | list cancelled => exact ih.list hb now cancelled
      | watch => exact ih.watch hb now hplaced
      | receive cancelled => exact ih.receive hb now cancelled
      | load => exact ih.load hb now hplaced

/-- However a cache has lost its watch, whatever it then held and however many attempts
have failed since: a watch that is answered is asked for from the version of the listing
that the cache holds, with which services that vanished meanwhile are gone, and the new
channel, which is not lost yet, is due every change after that version, in order, or a
refresh for some of them. As long as the channel is not lost, what has been handled,
taken and is still due on it goes on to tell of all those changes, and each service is
held as it is stored, or an event that concerns it is still to be handled, or the load for
the last one that was handled failed; what is no service name is never held. -/
theorem recovers {L : Ledger σ} {b : Instant → Backend σ} (hb : L.Kept b)
    (listener : Listener τ) (retry : Span) {w : World σ τ}
    (h : Reachable L b listener retry w) :
    (∀ version now id s', w.stage = .listed version →
      ((b now).watch everything version).exec w.state = (.ok id, s') →
      w.step b listener retry now .watch =
          ⟨.following id version [] none, w.cache.membership, s', w.cache.state.2⟩ ∧
        ∃ old new waiting, L.Made s' (old ++ new) ∧
          (∀ c ∈ old, c.version ≤ version) ∧ (∀ c ∈ new, version < c.version) ∧
          w.cache.membership.services =
            byService (nodesOf ⟨((∅ : Contents).after old).scan everything, version⟩) ∧
          L.due? s' id = some (everything, waiting) ∧
          Tells (everything.eventsOf new) waiting) ∧
    ∀ id version handled taken, w.stage = .following id version handled taken →
      ∃ old new, L.Made w.state (old ++ new) ∧
        (∀ c ∈ old, c.version ≤ version) ∧ (∀ c ∈ new, version < c.version) ∧
        (handled = [] → w.cache.membership.services =
          byService (nodesOf ⟨((∅ : Contents).after old).scan everything, version⟩)) ∧
        ∀ scope waiting, L.due? w.state id = some (scope, waiting) →
          scope = everything ∧
          Tells (everything.eventsOf new) (handled.map Prod.fst ++ taken.toList ++ waiting) ∧
          (∀ service, Key.IsServiceName service →
            w.cache.membership.members? service =
                ((∅ : Contents).after (old ++ new)).membersOf service ∨
              Pending (taken.toList ++ waiting) service ∨ Missed handled service) ∧
          ∀ service, ¬ Key.IsServiceName service →
            w.cache.membership.members? service = none := by
  have hkept := kept_of_reachable hb h
  obtain ⟨stage, m, s, t⟩ := w
  constructor
  · rintro version now id s' rfl hexec
    obtain ⟨old, new, hknown, hholds⟩ := hkept
    obtain ⟨cs, waiting, hafter, -, hdue, htells⟩ := watch_spec hb hknown hexec
    have hcall : ((onBackend (b now)).watch everything version).exec (s, t) =
        (.ok id, s', t) := by
      rw [watch_onBackend]
      exact congrArg (fun called => (called.1, called.2, t)) hexec
    refine ⟨?_, old, new ++ cs, waiting, hafter.made, hafter.le_version, hafter.lt_version,
      hholds, hdue, htells⟩
    simp only [World.step, hcall]
  · rintro id version handled taken rfl
    obtain ⟨old, new, hfollows⟩ := hkept
    refine ⟨old, new, hfollows.known.made, hfollows.known.le_version, hfollows.known.lt_version,
      hfollows.listed, ?_⟩
    intro scope waiting hdue
    obtain ⟨hscope, htold, hupheld⟩ := hfollows.live scope waiting hdue
    exact ⟨hscope, htold, hupheld.members, hupheld.others⟩

/-- In every other millisecond the backend cannot be reached. -/
def sampleBackend : Instant → Backend Memory :=
  Backend.interrupted
    (fun now =>
      if now.nanos / nanosPerMilli % 2 = 0 then some (.backend "get" "unreachable") else none)
    Memory.backend

def sampleInstant (millis : Nat) : Instant := ⟨millis * nanosPerMilli⟩

/-- A service that vanishes while the cache has no watch. -/
def sampleStale : Membership :=
  ⟨(∅ : Table String Members).insert "b" ((∅ : Members).insert "x" Following.sampleNode)⟩

def sampleWorld (moves : List (Nat × Move Memory)) : World Memory Unit :=
  moves.foldl
    (fun w move => w.step sampleBackend (fun _ _ t => t) (.ofMillis 1) (sampleInstant move.1) move.2)
    ⟨.retrying (sampleInstant 0), sampleStale, .create 8, ()⟩

def sampleWritten : Memory :=
  (Memory.create 8).act (sampleInstant 3) (.set "service/a/x" Following.sampleText .zero)

/-- A listing fails, then a watch; between the next listing and its watch another writes. -/
def sampleMoves : List (Nat × Move Memory) :=
  [(0, .list false), (1, .list false), (2, .watch), (3, .list false),
    (3, .others sampleWritten), (3, .watch), (3, .receive false), (3, .load)]

def sampleChange : Change := ⟨.update, ⟨"service/a/x", Following.sampleText, 1⟩⟩

theorem placed_sample {m : Memory} (hkept : m.store.compacted = 0)
    (hhistory : m.store.history = [] ∨ m.store.history = [sampleChange]) :
    Placed Memory.ledger m := by
  intro log hmade c hc _ _ node hdecode
  obtain ⟨lost, hlog, hlost⟩ := hmade.1.retained
  obtain rfl : lost = [] := List.length_eq_zero_iff.mp (by omega)
  rw [hlog, List.nil_append] at hc
  rcases hhistory with hempty | hone
  · rw [hempty] at hc
    cases hc
  · rw [hone] at hc
    obtain rfl := List.mem_singleton.mp hc
    obtain rfl := Except.ok.inj (Following.decode_sampleText.symm.trans hdecode)
    exact ⟨by decide, rfl⟩

/-- The write is told of by the new channel and the service that vanished is gone. -/
theorem recovers_outage :
    let w := sampleWorld sampleMoves
    (sampleWorld (sampleMoves.take 6)).stage = .following 0 0 [] none ∧
      w.stage = .following 0 0 [(.change sampleChange, true)] none ∧
      w.cache.membership.members? "b" = none ∧
      (w.cache.membership.members? "a").bind (fun members => members.get? "x") =
        some Following.sampleNode := by
  intro w
  let Reached (n : Nat) : Prop := Reachable Memory.ledger sampleBackend (fun _ _ t => t)
    (.ofMillis 1) (sampleWorld (sampleMoves.take n))
  have hcreated : Memory.ledger.Made (.create 8) [] :=
    ⟨.create 8, rfl, Channels.numbered_none⟩
  have hstart : Reached 0 := .start (sampleInstant 0) sampleStale _ () [] hcreated
  have hrefused : Reached 1 :=
    .step (sampleInstant 0) (.list false) hstart trivial (placed_sample rfl (.inl rfl))
  have hlisted : Reached 2 :=
    .step (sampleInstant 1) (.list false) hrefused trivial (placed_sample rfl (.inl rfl))
  have hunwatched : Reached 3 :=
    .step (sampleInstant 2) .watch hlisted trivial (placed_sample rfl (.inl rfl))
  have hagain : Reached 4 :=
    .step (sampleInstant 3) (.list false) hunwatched trivial (placed_sample rfl (.inl rfl))
  have hwritten : Reached 5 :=
    .step (sampleInstant 3) (.others sampleWritten) hagain (Memory.moves_act nofun)
      (placed_sample rfl (.inr rfl))
  have hwatching : Reached 6 :=
    .step (sampleInstant 3) .watch hwritten trivial (placed_sample rfl (.inr rfl))
  have htaken : Reached 7 :=
    .step (sampleInstant 3) (.receive false) hwatching trivial (placed_sample rfl (.inr rfl))
  have hloaded : Reached 8 :=
    .step (sampleInstant 3) .load htaken trivial (placed_sample rfl (.inr rfl))
  have hb : Memory.ledger.Kept sampleBackend := Memory.ledger_kept.interrupted _
  obtain ⟨hopens, -⟩ := (recovers hb (fun _ _ t => t) (.ofMillis 1) hwritten).1 0
    (sampleInstant 3) 0 _ rfl rfl
  obtain ⟨old, new, hmade, -, -, -, hlive⟩ :=
    (recovers hb (fun _ _ t => t) (.ofMillis 1) hloaded).2 0 0 [(.change sampleChange, true)]
      none rfl
  obtain ⟨-, -, hmembers, -⟩ := hlive everything [] rfl
  have hcontents : w.state.store.contents = (∅ : Contents).after (old ++ new) := hmade.2.1
  have hupheld (service : String) (hservice : Key.IsServiceName service) :
      w.cache.membership.members? service = w.state.store.membersOf service := by
    rw [← Contents.membersOf_contents, hcontents]
    rcases hmembers service hservice with hsame | ⟨e, he, -⟩ | ⟨before, e, after, hlast, -⟩
    · exact hsame
    · cases he
    · have hmem : (e, false) ∈ [(Event.change sampleChange, true)] := by
        rw [hlast]
        exact List.mem_append_right _ List.mem_cons_self
      cases List.mem_singleton.mp hmem
  have hsound : w.state.store.Sound := Following.sound_sample rfl
  have hentry : w.state.store.entries.get? (Key.service "a" "x") =
      some ⟨Following.sampleText, 1, none⟩ := by rfl
  refine ⟨congrArg World.stage hopens, rfl, ?_, ?_⟩
  · rw [hupheld "b" (by decide)]
    rfl
  · rw [hupheld "a" (by decide), hsound.member_eq (by decide), hentry, Option.bind_some,
      Following.decode_sampleText]
    rfl

end Recovering

end Rollcall
