import Rollcall.Memory
import Rollcall.Proofs.Store.Delivery

/-!
Runs of a backend in memory. An action is a call, something arranged from outside
or one move of a background job, made at an instant; a run is any list of them,
so the order of users and jobs and the choice of instants are left open. A job
moves in single moves: its timer wakes it, it works, or it stops because it was
told to, and a job that is due and told to stop may do either. Main statements:
the store after an action is the store before it after some elementary updates
(`store_act`), and so for a run (`store_run`).
-/

namespace Rollcall.Memory

inductive Action where
  | set (key value : String) (ttl : Span)
  | get (scope : Scope)
  | delete (key : String)
  | increment (key : String)
  | watch (scope : Scope) (version : Int)
  | keepAlive (key value : String) (ttl : Span)
  | close
  | receive (id : Nat)
  | drain (id : Nat)
  | dropWatch (id : Nat)
  | sweep
  | addSweeper (interval : Span)
  | compact (revision : Int)
  | refreshAll
  | wake (index : Nat)
  | work (index : Nat)
  | stop (index : Nat)
deriving DecidableEq

def compact (revision : Int) (m : Memory) : Memory :=
  { m with store := m.store.compact revision }

def withoutJob (index : Nat) (m : Memory) : Memory :=
  { m with jobs := m.jobs.eraseIdx index }

def wakeJob (now : Instant) (index : Nat) (m : Memory) : Memory :=
  match m.jobs[index]? with
  | some (.renewal r) =>
      if r.phase.isDue now then
        { m with jobs := m.jobs.set index (.renewal { r with phase := .awake }) }
      else m
  | _ => m

/-- A renewal that is awake renews, a sweeper that is due sweeps. -/
def workJob (now : Instant) (index : Nat) (m : Memory) : Memory :=
  match m.jobs[index]? with
  | some (.renewal r) =>
      match r.phase with
      | .awake => (m.withoutJob index).renewOnce now r
      | .asleep _ => m
  | some (.sweeper w) => if w.next ≤ now then (m.withoutJob index).sweepOnce now w else m
  | none => m

def stopJob (index : Nat) (m : Memory) : Memory :=
  match m.jobs[index]? with
  | some (.renewal r) =>
      match r.phase with
      | .awake => m
      | .asleep _ => if m.closed || r.cancelled then m.withoutJob index else m
  | some (.sweeper _) => if m.closed then m.withoutJob index else m
  | none => m

def act (m : Memory) (now : Instant) : Action → Memory
  | .set key value ttl => (m.set now key value ttl).2
  | .get scope => (m.get now scope).2
  | .delete key => (m.delete key).2
  | .increment key => (m.increment key).2
  | .watch scope version => (m.watch now scope version).2
  | .keepAlive key value ttl => (m.keepAlive now key value ttl).2
  | .close => m.close
  | .receive id => (m.receive id).2
  | .drain id => (m.drain id).2
  | .dropWatch id => m.dropWatch id
  | .sweep => (m.sweep now).2
  | .addSweeper interval => m.addSweeper now interval
  | .compact revision => m.compact revision
  | .refreshAll => m.refreshAll
  | .wake index => m.wakeJob now index
  | .work index => m.workJob now index
  | .stop index => m.stopJob index

def writeUpdates (m : Memory) (now : Instant) (key value : String) (ttl : Span) :
    List Store.Update :=
  m.store.expiries now ++
    match deadline? now ttl with
    | .error _ => []
    | .ok deadline => [.put key value deadline]

def workUpdates (m : Memory) (now : Instant) (index : Nat) : List Store.Update :=
  match m.jobs[index]? with
  | some (.renewal r) =>
      match r.phase, deadline? now r.ttl with
      | .awake, .ok deadline => [m.store.renewal r.key r.value deadline]
      | _, _ => []
  | some (.sweeper w) => if w.next ≤ now then m.store.expiries now else []
  | none => []

/-- The updates of an open backend's store that an action amounts to. -/
def openUpdates (m : Memory) (now : Instant) : Action → List Store.Update
  | .set key value ttl | .keepAlive key value ttl => m.writeUpdates now key value ttl
  | .get _ => m.store.expiries now
  | .delete key => [.remove key]
  | .increment key =>
      match counter m.store key with
      | .error _ => []
      | .ok n =>
          if n + 1 < 0x8000000000000000 then [.put key (Decimal.showInt (n + 1)) none] else []
  | .watch scope version => m.store.expiries now ++ [.watch scope version]
  | .close => [.closeAll]
  | _ => []

/-- The elementary updates that an action amounts to. A closed backend refuses
every call, but what is arranged from outside and its jobs still act. -/
def updates (m : Memory) (now : Instant) : Action → List Store.Update
  | .receive id => [.receive id]
  | .drain id => [.drain id]
  | .dropWatch id => [.dropWatch id]
  | .sweep => m.store.expiries now
  | .compact revision => [.compact revision]
  | .refreshAll => [.refreshAll]
  | .work index => m.workUpdates now index
  | a => if m.closed then [] else m.openUpdates now a

theorem store_set (m : Memory) (now : Instant) (key value : String) (ttl : Span) :
    (m.set now key value ttl).2.store =
      if m.closed then m.store else m.store.applyAll (m.writeUpdates now key value ttl) := by
  unfold set writeUpdates
  split
  · rfl
  · cases deadline? now ttl with
    | error f => simp only [List.append_nil, Store.expire_eq_applyAll]
    | ok deadline =>
        simp only [Store.applyAll_append, Store.expire_eq_applyAll]
        rfl

/-- To the store a registration is a write; all else that it does is done to the jobs. -/
theorem store_keepAlive (m : Memory) (now : Instant) (key value : String) (ttl : Span) :
    (m.keepAlive now key value ttl).2.store = (m.set now key value ttl).2.store := by
  unfold keepAlive
  rcases m.set now key value ttl with ⟨answer, m'⟩
  cases answer <;> rfl

/-- What the work of a job does to the store, for a sweeper, a renewal or a place where
there is no job that can work. -/
theorem store_workJob (m : Memory) (now : Instant) (index : Nat) :
    (m.workJob now index).store = m.store.applyAll (m.workUpdates now index) := by
  unfold workJob workUpdates
  cases m.jobs[index]? with
  | none => rfl
  | some job =>
      cases job with
      | sweeper w =>
          by_cases hdue : w.next ≤ now
          · simp only [hdue, if_true, sweepOnce, withoutJob, Store.expire_eq_applyAll]
          · simp only [hdue, if_false, Store.applyAll_nil]
      | renewal r =>
          cases hphase : r.phase with
          | asleep t => simp only [hphase, Store.applyAll_nil]
          | awake =>
              cases hdeadline : deadline? now r.ttl with
              | error f => simp only [hphase, renewOnce, hdeadline, withoutJob, Store.applyAll_nil]
              | ok deadline =>
                  simp only [hphase, renewOnce, hdeadline, withoutJob, Store.renew_eq_apply,
                    Store.applyAll_cons, Store.applyAll_nil]

/-- Every action changes the store by elementary updates alone. All that is proved of stores
is proved of updates and carried over to runs by this. -/
theorem store_act (m : Memory) (now : Instant) (a : Action) :
    (m.act now a).store = m.store.applyAll (m.updates now a) := by
  cases a with
  | set key value ttl =>
      simp only [act, store_set, updates, openUpdates]
      split <;> rfl
  | keepAlive key value ttl =>
      simp only [act, store_keepAlive, store_set, updates, openUpdates]
      split <;> rfl
  | get scope =>
      simp only [act, get, updates, openUpdates]
      split
      · rfl
      · exact Store.expire_eq_applyAll _ _
  | delete key =>
      simp only [act, delete, updates, openUpdates]
      split <;> rfl
  | increment key =>
      simp only [act, increment, updates, openUpdates]
      split
      · rfl
      · cases counter m.store key with
        | error e => rfl
        | ok n =>
            dsimp only
            split <;> rfl
  | watch scope version =>
      simp only [act, watch, updates, openUpdates]
      split
      · rfl
      · rw [Store.applyAll_append, ← Store.expire_eq_applyAll]
        rfl
  | close =>
      simp only [act, close, updates, openUpdates]
      split <;> rfl
  | receive id => rfl
  | drain id => rfl
  | dropWatch id => rfl
  | sweep => exact Store.expire_eq_applyAll _ _
  | addSweeper interval =>
      simp only [act, addSweeper, updates, openUpdates, ite_self]
      split <;> rfl
  | compact revision => rfl
  | refreshAll => rfl
  | wake index =>
      simp only [act, wakeJob, updates, openUpdates, ite_self]
      split
      · split <;> rfl
      · rfl
  | work index => exact store_workJob m now index
  | stop index =>
      simp only [act, stopJob, updates, openUpdates, ite_self]
      split
      · split
        · rfl
        · split <;> rfl
      · split <;> rfl
      · rfl

theorem closed_set (m : Memory) (now : Instant) (key value : String) (ttl : Span) :
    (m.set now key value ttl).2.closed = m.closed := by
  unfold set
  split
  · rfl
  · dsimp only
    split <;> rfl

theorem closed_renewOnce (m : Memory) (now : Instant) (r : Renewal) :
    (m.renewOnce now r).closed = m.closed := by
  unfold renewOnce
  split <;> rfl

/-- Closing is for good, and nothing else closes. A closed backend still has jobs that run
until they heed the stop. -/
theorem closed_act (m : Memory) (now : Instant) (a : Action) :
    (m.act now a).closed = (m.closed || decide (a = .close)) := by
  cases a with
  | set key value ttl => simp [act, closed_set]
  | keepAlive key value ttl =>
      have hset := closed_set m now key value ttl
      simp only [act, keepAlive]
      rcases hresult : m.set now key value ttl with ⟨answer, m'⟩
      rw [hresult] at hset
      cases answer <;> simpa using hset
  | get scope =>
      simp only [act, get]
      split <;> simp_all
  | delete key =>
      simp only [act, delete]
      split <;> simp_all
  | increment key =>
      simp only [act, increment]
      split
      · simp_all
      · split
        · simp_all
        · split <;> simp_all
  | watch scope version =>
      simp only [act, watch]
      split <;> simp_all
  | close =>
      simp only [act, close]
      split <;> simp_all
  | addSweeper interval =>
      simp only [act, addSweeper]
      split <;> simp
  | wake index =>
      simp only [act, wakeJob]
      split
      · split <;> simp
      · simp
  | work index =>
      simp only [act, workJob]
      split
      · split <;> simp [closed_renewOnce, withoutJob]
      · split <;> simp [sweepOnce, withoutJob]
      · simp
  | stop index =>
      simp only [act, stopJob]
      split
      · split
        · simp
        · split <;> simp [withoutJob]
      · split <;> simp [withoutJob]
      · simp
  | receive id => simp [act, receive]
  | drain id => simp [act, drain]
  | dropWatch id => simp [act, dropWatch]
  | sweep => simp [act, sweep]
  | compact revision => simp [act, compact]
  | refreshAll => simp [act, refreshAll]

/-- Only a close closes, so an open backend stays open over any other action. -/
theorem isOpen_act {m : Memory} {a : Action} (hopen : m.closed = false) (ha : a ≠ .close)
    (now : Instant) : (m.act now a).closed = false := by
  rw [closed_act, hopen, decide_eq_false ha]
  rfl

/-- An action that neither takes from a channel nor ends it. -/
def Action.spares (id : Nat) : Action → Prop
  | .receive other | .drain other | .dropWatch other => other ≠ id
  | .close => False
  | _ => True

section Spares

variable {m : Memory} {now : Instant} {id : Nat} {u : Store.Update}

theorem spares_of_mem_expiries {s : Store} (h : u ∈ s.expiries now) : u.spares id := by
  obtain ⟨key, _, rfl⟩ := List.mem_map.mp h
  trivial

theorem spares_of_mem_writeUpdates {key value : String} {ttl : Span}
    (h : u ∈ m.writeUpdates now key value ttl) : u.spares id := by
  rcases List.mem_append.mp h with hexpiry | hput
  · exact spares_of_mem_expiries hexpiry
  · cases hdeadline : deadline? now ttl with
    | error f => simp [hdeadline] at hput
    | ok deadline =>
        simp only [hdeadline, List.mem_singleton] at hput
        subst hput
        trivial

theorem spares_renewal (s : Store) (key value : String) (deadline : Option Instant) :
    (s.renewal key value deadline).spares id := by
  unfold Store.renewal
  split
  · split <;> trivial
  · trivial

theorem spares_of_mem_workUpdates {index : Nat} (h : u ∈ m.workUpdates now index) :
    u.spares id := by
  unfold workUpdates at h
  split at h
  · split at h
    · rw [List.mem_singleton.mp h]
      exact spares_renewal _ _ _ _
    · cases h
  · split at h
    · exact spares_of_mem_expiries h
    · cases h
  · cases h

/-- What the calls of an open backend amount to spares a channel if the action does. The
cases are the actions that are not writes or jobs. -/
theorem spares_of_mem_openUpdates {a : Action} (ha : a.spares id)
    (h : u ∈ m.openUpdates now a) : u.spares id := by
  cases a with
  | set key value ttl => exact spares_of_mem_writeUpdates h
  | keepAlive key value ttl => exact spares_of_mem_writeUpdates h
  | get scope => exact spares_of_mem_expiries h
  | watch scope version =>
      rcases List.mem_append.mp h with hexpiry | hwatch
      · exact spares_of_mem_expiries hexpiry
      · rw [List.mem_singleton.mp hwatch]
        trivial
  | delete key =>
      rw [List.mem_singleton.mp h]
      trivial
  | increment key =>
      simp only [openUpdates] at h
      split at h
      · cases h
      · split at h
        · rw [List.mem_singleton.mp h]
          trivial
        · cases h
  | close => exact ha.elim
  | _ => cases h

/-- An action that spares a channel does so in each of its updates. -/
theorem spares_of_mem_updates {a : Action} (ha : a.spares id) (h : u ∈ m.updates now a) :
    u.spares id := by
  have hopen {us : List Store.Update} (hus : u ∈ us → u.spares id)
      (hmem : u ∈ if m.closed then [] else us) : u.spares id := by
    split at hmem
    · cases hmem
    · exact hus hmem
  cases a with
  | receive other =>
      rw [List.mem_singleton.mp h]
      exact ha
  | drain other =>
      rw [List.mem_singleton.mp h]
      exact ha
  | dropWatch other =>
      rw [List.mem_singleton.mp h]
      exact ha
  | sweep => exact spares_of_mem_expiries h
  | compact revision =>
      rw [List.mem_singleton.mp h]
      trivial
  | refreshAll =>
      rw [List.mem_singleton.mp h]
      trivial
  | work index => exact spares_of_mem_workUpdates h
  | _ => exact hopen (spares_of_mem_openUpdates ha) h

theorem eq_close_of_closeAll_mem {a : Action} (h : .closeAll ∈ m.updates now a) : a = .close := by
  cases a with
  | close => rfl
  | receive other => simp [updates] at h
  | drain other => simp [updates] at h
  | dropWatch other => simp [updates] at h
  | _ =>
      have hspares : Store.Update.spares 0 .closeAll := by
        refine spares_of_mem_updates ?_ h
        trivial
      exact hspares.elim

end Spares

/-- A query expires what is overdue, also outside its scope, and answers from what is left,
with the revision that the expiry has led to. -/
theorem get_eq_of_open {m : Memory} (h : m.closed = false) (now : Instant) (scope : Scope) :
    m.get now scope =
      (.ok ⟨(m.store.expire now).scan scope, (m.store.expire now).revision⟩,
        { m with store := m.store.expire now }) := by
  simp [get, h]

/-- A watch expires first too, so that the deletions of this expiry are in the history that
it may be sent. -/
theorem watch_eq_of_open {m : Memory} (h : m.closed = false) (now : Instant) (scope : Scope)
    (version : Int) :
    m.watch now scope version =
      (.ok ((m.store.expire now).watch scope version).1,
        { m with store := ((m.store.expire now).watch scope version).2 }) := by
  simp [watch, h]

def run (m : Memory) (actions : List (Instant × Action)) : Memory :=
  actions.foldl (fun m a => m.act a.1 a.2) m

def runUpdates : Memory → List (Instant × Action) → List Store.Update
  | _, [] => []
  | m, a :: rest => m.updates a.1 a.2 ++ (m.act a.1 a.2).runUpdates rest

/-- Everything that a run tells those who watch, in order. -/
def log (m : Memory) (actions : List (Instant × Action)) : List Event :=
  m.store.announcedAll (m.runUpdates actions)

/-- What the receiver of a channel takes during a run. -/
def taken (m : Memory) (id : Nat) (actions : List (Instant × Action)) : List Event :=
  Store.takenAll id m.store (m.runUpdates actions)

/-- So a run does nothing to the store but apply, in order, the updates that its actions
amount to. -/
theorem store_run (m : Memory) (actions : List (Instant × Action)) :
    (m.run actions).store = m.store.applyAll (m.runUpdates actions) := by
  induction actions generalizing m with
  | nil => rfl
  | cons a rest ih =>
      rw [runUpdates, Store.applyAll_append, ← store_act]
      exact ih (m.act a.1 a.2)

/-- The updates of a longer run are those of its two halves, the second begun where the
first has led to. -/
theorem runUpdates_append (m : Memory) (xs ys : List (Instant × Action)) :
    m.runUpdates (xs ++ ys) = m.runUpdates xs ++ (m.run xs).runUpdates ys := by
  induction xs generalizing m with
  | nil => rfl
  | cons a rest ih =>
      rw [List.cons_append, runUpdates, runUpdates, ih, List.append_assoc]
      rfl

/-- What a longer run tells is told by its two halves, one after the other. -/
theorem log_append (m : Memory) (xs ys : List (Instant × Action)) :
    m.log (xs ++ ys) = m.log xs ++ (m.run xs).log ys := by
  rw [log, runUpdates_append, Store.announcedAll_append, ← store_run]
  rfl

theorem closed_run {m : Memory} {actions : List (Instant × Action)} (h : m.closed = true) :
    (m.run actions).closed = true := by
  induction actions generalizing m with
  | nil => exact h
  | cons a rest ih => exact ih (by rw [closed_act, h, Bool.true_or])

/-- A run that ends with an open backend has not closed its channels. -/
theorem closeAll_not_mem_runUpdates {m : Memory} {actions : List (Instant × Action)}
    (h : (m.run actions).closed = false) : ∀ u ∈ m.runUpdates actions, u ≠ .closeAll := by
  induction actions generalizing m with
  | nil =>
      intro u member
      cases member
  | cons a rest ih =>
      intro u member heq
      subst heq
      rcases List.mem_append.mp member with hfirst | hrest
      · have hclose := eq_close_of_closeAll_mem hfirst
        have hact : (m.act a.1 a.2).closed = true := by rw [closed_act, hclose]; simp
        exact absurd ((closed_run hact).symm.trans h) (by decide)
      · exact ih h _ hrest rfl

end Rollcall.Memory
