import Rollcall.Proofs.Backend.Ledger
import Rollcall.Proofs.Memory.Watching

/-!
The ledger of a backend in memory. Its changes are those that its store has made, and
what is due on a channel is what waits on it, as long as it is open. What a store
announces to all tells each open channel of the changes that it covers, so whatever
happens but a receiver of the channel leaves that channel lost or due to tell of them.
Main statements: `moves_act` and `ledger_kept`.
-/

namespace Rollcall

/-- Events that are filtered for a scope tell of exactly the changes that the scope covers,
and the refreshes among them may only add to that. -/
theorem Tells.of_filter_wants (scope : Scope) (events : List Event) :
    Tells (scope.eventsOf (changesOf events)) (events.filter scope.wants) := by
  induction events with
  | nil => exact .nil
  | cons e rest ih =>
      cases e with
      | refresh =>
          rw [List.filter_cons_of_pos rfl]
          exact .refresh [] ih
      | change c =>
          by_cases hcovers : scope.covers c.pair.key = true
          · have htold : scope.eventsOf (c :: changesOf rest) =
                .change c :: scope.eventsOf (changesOf rest) := by
              simp [Scope.eventsOf, hcovers]
            rw [List.filter_cons_of_pos (by exact hcovers), changesOf_change, htold]
            exact .event (.change c) ih
          · have htold : scope.eventsOf (c :: changesOf rest) =
                scope.eventsOf (changesOf rest) := by
              simp [Scope.eventsOf, hcovers]
            rw [List.filter_cons_of_neg (by exact hcovers), changesOf_change, htold]
            exact ih

namespace Channels

/-- The scope of an open channel and what waits on it. -/
def due? (cs : Channels) (id : Nat) : Option (Scope × List Event) :=
  (cs.find? id).bind (fun c => if c.isOpen then some (c.scope, c.waiting) else Option.none)

def gain (events : List Event) (d : Scope × List Event) : Scope × List Event :=
  (d.1, d.2 ++ events.filter d.1.wants)

theorem map_gain_nil (d : Option (Scope × List Event)) : d.map (gain []) = d := by
  cases d with
  | none => rfl
  | some d => simp [gain]

variable {cs : Channels} {id : Nat}

theorem due?_congr {ds : Channels} (h : ds.find? id = cs.find? id) : ds.due? id = cs.due? id := by
  rw [due?, due?, h]

/-- An event that is offered to all channels is added to what is due on an open one if its
scope wants it. -/
theorem due?_offer (e : Event) : (cs.offer e).due? id = (cs.due? id).map (gain [e]) := by
  rw [due?, due?, find?_offer]
  cases cs.find? id with
  | none => rfl
  | some c =>
      simp only [Option.map_some, Option.bind_some, Channel.offer_isOpen, Channel.offer_scope]
      by_cases hopen : c.isOpen = true
      · rw [if_pos hopen, if_pos hopen, Channel.offer_waiting hopen]
        rfl
      · rw [if_neg hopen, if_neg hopen]
        rfl

theorem due?_closeAll : cs.closeAll.due? id = Option.none := by
  have hclosed := find?_update cs (fun c => { c with isOpen := false }) (fun _ => rfl) id
  rw [due?, closeAll, hclosed]
  cases cs.find? id <;> rfl

theorem due?_receive {scope : Scope} {waiting : List Event}
    (h : (cs.receive id).2.due? id = some (scope, waiting)) :
    cs.due? id = some (scope, (cs.receive id).1.events ++ waiting) := by
  cases hfind : cs.find? id with
  | none =>
      have hsame : (cs.receive id).2 = cs := by simp only [receive, hfind]
      rw [hsame, due?, hfind] at h
      cases h
  | some c =>
      obtain ⟨rest, hafter, htaken⟩ := receive_self hfind
      rw [due?, hafter, Option.bind_some] at h
      rw [due?, hfind, Option.bind_some]
      by_cases hopen : c.isOpen = true
      · rw [if_pos hopen] at h ⊢
        obtain ⟨rfl, rfl⟩ := Prod.mk.inj (Option.some.inj h)
        rw [htaken]
      · rw [if_neg hopen] at h
        cases h

end Channels

namespace Store

variable {s : Store} {id : Nat}

def Update.takes (id : Nat) : Update → Prop
  | .receive other | .drain other => other = id
  | _ => False

/-- Whatever does not take from a channel leaves it lost or with what is announced. -/
theorem due?_apply (hid : id < s.channels.nextId) {u : Update} (hu : ¬ u.takes id) :
    (s.apply u).channels.due? id = none ∨
      (s.apply u).channels.due? id =
        (s.channels.due? id).map (Channels.gain (s.announced u)) := by
  have hquiet {t : Store} {events : List Event} (hevents : events = [])
      (ht : t.channels.find? id = s.channels.find? id) :
      t.channels.due? id = (s.channels.due? id).map (Channels.gain events) := by
    rw [hevents, Channels.map_gain_nil, Channels.due?_congr ht]
  rcases channels_apply s u with ⟨hevents, hsame, -⟩ | ⟨e, hevent, hoffer, -⟩ |
    ⟨scope, version, rfl⟩ | ⟨other, rfl⟩ | ⟨other, rfl⟩ | ⟨other, rfl⟩ | rfl
  · exact .inr (hquiet hevents (by rw [hsame]))
  · rw [hoffer, hevent]
    exact .inr (Channels.due?_offer e)
  · exact .inr (hquiet rfl (Channels.find?_add_of_lt hid _ _))
  · refine .inr (hquiet rfl ?_)
    rcases Channels.receive_eq s.channels other with hsame | ⟨rest, hset⟩
    · simp only [apply, hsame]
    · simp only [apply, hset]
      exact Channels.find?_setWaiting_of_ne _ (Ne.symm hu) rest
  · refine .inr (hquiet rfl ?_)
    rcases Channels.drain_eq s.channels other with hsame | ⟨rest, hset⟩
    · simp only [apply, hsame]
    · simp only [apply, hset]
      exact Channels.find?_setWaiting_of_ne _ (Ne.symm hu) rest
  · by_cases hother : id = other
    · left
      rw [apply, Channels.due?, hother, Channels.find?_drop_self]
      rfl
    · exact .inr (hquiet rfl (Channels.find?_drop_of_ne _ hother))
  · exact .inl Channels.due?_closeAll

theorem nextId_le_applyAll (s : Store) (us : List Update) :
    s.channels.nextId ≤ (s.applyAll us).channels.nextId := by
  induction us generalizing s with
  | nil => exact Nat.le_refl _
  | cons u rest ih => exact Nat.le_trans (nextId_le_apply s u) (ih (s.apply u))

/-- Over any number of updates, none of which takes from the channel: it has been lost
meanwhile, or what is due on it is what was due before with what was announced, in that
order. -/
theorem due?_applyAll (hid : id < s.channels.nextId) {us : List Update}
    (hus : ∀ u ∈ us, ¬ u.takes id) :
    (s.applyAll us).channels.due? id = none ∨
      (s.applyAll us).channels.due? id =
        (s.channels.due? id).map (Channels.gain (s.announcedAll us)) := by
  induction us generalizing s with
  | nil => exact .inr (Channels.map_gain_nil _).symm
  | cons u rest ih =>
      have hid' := Nat.lt_of_lt_of_le hid (nextId_le_apply s u)
      have hlast := ih hid' (fun v hv => hus v (List.mem_cons_of_mem _ hv))
      rcases hlast with hlost | hgained
      · exact .inl hlost
      · rw [applyAll_cons, hgained]
        rcases due?_apply hid (hus u List.mem_cons_self) with hfirst | hfirst
        · left
          rw [hfirst]
          rfl
        · right
          rw [hfirst, Option.map_map]
          congr 1
          funext d
          simp only [Function.comp_apply, Channels.gain, announcedAll, List.filter_append,
            List.append_assoc]

theorem tells_backlog {made : List Change} (h : Coherent s made) (scope : Scope)
    (version : Int) :
    Tells (scope.eventsOf (made.filter (fun c => version < c.version)))
      (s.backlog scope version) := by
  by_cases hlost : version < s.compacted
  · rw [backlog, if_pos hlost]
    have hall := Tells.refresh (scope.eventsOf (made.filter (fun c => version < c.version))) .nil
    rwa [List.append_nil] at hall
  · have hsame : scope.eventsOf (made.filter (fun c => version < c.version)) =
        s.backlog scope version := by
      rw [backlog_of_le h (by omega), Scope.eventsOf, List.filter_filter]
      congr 2
      funext c
      exact Bool.and_comm _ _
    rw [hsame]
    exact .refl _

end Store

namespace Memory

variable {m : Memory} {now : Instant} {a : Action} {log : List Change}

def ledger : Ledger Memory where
  Made m log :=
    m.store.Coherent log ∧ m.store.contents = (∅ : Contents).after log ∧
      m.store.channels.Numbered
  revision m := m.store.revision
  Opened m id := id < m.store.channels.nextId
  due? m id := m.store.channels.due? id

def Action.takes (id : Nat) : Action → Prop
  | .receive other | .drain other => other = id
  | _ => False

/-- Only a receiver takes from a channel; an action with an update that takes is itself a
receive, a drain or a drop of that channel. -/
theorem takes_of_mem_updates {u : Store.Update} {id : Nat} (hu : u ∈ m.updates now a)
    (htakes : u.takes id) : a.takes id := by
  have hspares : ¬ u.spares id := by
    intro hspares
    cases u with
    | receive other => exact hspares htakes
    | drain other => exact hspares htakes
    | _ => exact htakes
  cases a with
  | receive other =>
      obtain rfl := List.mem_singleton.mp hu
      exact htakes
  | drain other =>
      obtain rfl := List.mem_singleton.mp hu
      exact htakes
  | dropWatch other =>
      obtain rfl := List.mem_singleton.mp hu
      exact htakes
  | close =>
      simp only [updates, openUpdates] at hu
      split at hu
      · cases hu
      · obtain rfl := List.mem_singleton.mp hu
        exact htakes
  | _ => exact absurd (spares_of_mem_updates (by trivial) hu) hspares

theorem le_revision (h : ledger.Made m log) : ∀ c ∈ log, c.version ≤ ledger.revision m := by
  obtain ⟨hcoherent, -, -⟩ := h
  have hrevision := hcoherent.revision_eq
  intro c hc
  have hversion := (hcoherent.consecutive.lt_version c hc).2
  simp only [ledger]
  omega

theorem later_applyAll {held : Option Nat} {m' : Memory} {us : List Store.Update}
    (h : ledger.Made m log) (hm' : m'.store = m.store.applyAll us)
    (hus : ∀ id ∈ held, ∀ u ∈ us, ¬ u.takes id) :
    ledger.Later held m log m' (changesOf (m.store.announcedAll us)) := by
  obtain ⟨hcoherent, hcontents, hnumbered⟩ := h
  have hafter := hcoherent.applyAll us
  have hrevision := hcoherent.revision_applyAll us
  refine ⟨⟨?_, ?_, ?_⟩, ?_, ?_, ?_, ?_⟩
  · rw [hm']
    exact hafter
  · rw [hm', Store.contents_applyAll, hcontents, Contents.after_append]
  · rw [hm']
    exact Store.numbered_applyAll hnumbered us
  · simp only [ledger, hm']
    omega
  · have hlater := (Consecutive.append_iff.mp hafter.consecutive).2
    have hbefore := hcoherent.revision_eq
    intro c hc
    have hversion := (hlater.lt_version c hc).1
    simp only [ledger]
    omega
  · intro id _ hid
    simp only [ledger, hm'] at hid ⊢
    exact Nat.lt_of_lt_of_le hid (Store.nextId_le_applyAll m.store us)
  · intro id hheld hid scope waiting hdue
    simp only [ledger, hm'] at hid hdue ⊢
    rcases Store.due?_applyAll hid (hus id hheld) with hlost | hgained
    · rw [hlost] at hdue
      cases hdue
    · rw [hgained] at hdue
      obtain ⟨⟨before, events⟩, hbefore, hgain⟩ := Option.map_eq_some_iff.mp hdue
      obtain ⟨rfl, rfl⟩ := Prod.mk.inj hgain
      exact ⟨events, hbefore, (Tells.refl events).append (.of_filter_wants _ _)⟩

theorem later_none {m' : Memory} {us : List Store.Update} (h : ledger.Made m log)
    (hm' : m'.store = m.store.applyAll us) :
    ledger.Later none m log m' (changesOf (m.store.announcedAll us)) :=
  later_applyAll h hm' (fun id hid => absurd hid (Option.not_mem_none id))

/-- Whatever a caller or a job does, but take from the channel that is held. -/
theorem moves_act {held : Option Nat} (ha : ∀ id ∈ held, ¬ a.takes id) :
    ledger.Moves held m (m.act now a) := fun _ h =>
  ⟨_, later_applyAll h (store_act m now a)
    (fun id hid _ hu htakes => ha id hid (takes_of_mem_updates hu htakes))⟩

theorem not_takes_of_mem_expiries {u : Store.Update} (hu : u ∈ m.store.expiries now)
    (id : Nat) : ¬ u.takes id := by
  obtain ⟨key, -, rfl⟩ := List.mem_map.mp hu
  exact not_false

/-- A backend in memory keeps its ledger, closed or not: it lists what it has made, a new
channel is due every change after its version, and what others do is told on it or the
channel is lost. -/
theorem ledger_kept : ledger.Kept backend where
  get := by
    intro held now root m log h
    cases hclosed : m.closed with
    | true =>
        have hget : ((backend now).get ⟨root, true⟩).exec m = (.error (.error .closed), m) := by
          simp only [backend, Call.exec, Call.of, Memory.get, hclosed, if_true]
        rw [hget]
        refine ⟨[], [], .refl h, ?_⟩
        intro listing hanswer
        cases hanswer
    | false =>
        let m' := { m with store := m.store.expire now }
        have hget : ((backend now).get ⟨root, true⟩).exec m =
            (.ok ⟨m'.store.scan ⟨root, true⟩, m'.store.revision⟩, m') :=
          get_eq_of_open hclosed now _
        rw [hget]
        have hlater : ledger.Later held m log m' _ :=
          later_applyAll h (Store.expire_eq_applyAll m.store now)
            (fun id _ u hu => not_takes_of_mem_expiries hu id)
        refine ⟨_, [], by rwa [List.append_nil], ?_⟩
        intro listing hanswer
        obtain rfl := Except.ok.inj hanswer
        refine ⟨?_, le_revision hlater.made, List.forall_mem_nil _, Int.le_refl _⟩
        rw [← hlater.made.2.1, Contents.scan_contents]
  watch := by
    intro now scope version m log h _
    cases hclosed : m.closed with
    | true =>
        have hwatch : ((backend now).watch scope version).exec m =
            (.error (.error .closed), m) := by
          simp only [backend, Call.exec, Call.of, Memory.watch, hclosed, if_true]
        rw [hwatch]
        refine ⟨[], .refl h, ?_⟩
        intro id hanswer
        cases hanswer
    | false =>
        let expired := m.store.expire now
        let m' := { m with store := (expired.watch scope version).2 }
        have hwatch : ((backend now).watch scope version).exec m =
            (.ok expired.channels.nextId, m') := watch_eq_of_open hclosed now scope version
        have hexpired : expired = m.store.applyAll (m.store.expiries now) :=
          Store.expire_eq_applyAll m.store now
        have hstore : m'.store =
            m.store.applyAll (m.store.expiries now ++ [.watch scope version]) := by
          rw [Store.applyAll_append, ← hexpired]
          rfl
        have hlater : ledger.Later none m log m' _ := later_none h hstore
        have hnumbered : expired.channels.Numbered := by
          rw [hexpired]
          exact Store.numbered_applyAll h.2.2 _
        have hcoherent : expired.Coherent (log ++ changesOf (m.store.announcedAll
            (m.store.expiries now ++ [.watch scope version]))) := by
          rw [Store.announcedAll_append, changesOf_append, hexpired]
          simpa [Store.announcedAll, Store.announced] using h.1.applyAll (m.store.expiries now)
        rw [hwatch]
        refine ⟨_, hlater, ?_⟩
        intro id hanswer
        obtain rfl := Except.ok.inj hanswer
        refine ⟨Nat.lt_succ_self _, expired.backlog scope version, ?_,
          Store.tells_backlog hcoherent scope version⟩
        have hfound := Channels.find?_add_self hnumbered scope (expired.backlog scope version)
        simp only [ledger, m', Store.watch, Channels.due?, hfound, Option.bind_some, if_true]
  receive := by
    intro now id m log h
    have hstore : (m.receive id).2.store = m.store.applyAll [.receive id] := rfl
    have hlater : ledger.Later none m log (m.receive id).2 [] := later_none h hstore
    have hmade := hlater.made
    rw [List.append_nil] at hmade
    refine ⟨hmade, rfl, ?_, fun scope waiting hdue => Channels.due?_receive hdue⟩
    intro hid
    exact Nat.lt_of_lt_of_le hid (Store.nextId_le_apply m.store (.receive id))
  dropWatch := by
    intro now id m log h
    have hstore : (m.dropWatch id).store = m.store.applyAll [.dropWatch id] := rfl
    have hlater : ledger.Later none m log (m.dropWatch id) [] := later_none h hstore
    have hmade := hlater.made
    rwa [List.append_nil] at hmade

end Memory

end Rollcall
