import Rollcall.Backend
import Rollcall.Proofs.Channels
import Rollcall.Proofs.Store.Snapshot

/-!
What a cache may rely on of a backend, whichever it is. A ledger says what its states
stand for: the changes made so far, the revision, and what is still to come on each
channel. A backend keeps the ledger if a listing is a snapshot at its version and a
watch is due every later change, in order, or a refresh for some of them. Any call may
fail, and a channel may be lost at any time. Main statements: `Tells.trans`, by which
nothing that is due gets lost as more is told, and `Kept.interrupted`, by which calls
may fail whenever they are made.
-/

namespace Rollcall

/-- Events that tell of others: each as it is, or several in a row, or none, by one
refresh. -/
inductive Tells : List Event → List Event → Prop where
  | nil : Tells [] []
  | event (e : Event) {es fs : List Event} (h : Tells es fs) : Tells (e :: es) (e :: fs)
  | refresh (skipped : List Event) {es fs : List Event} (h : Tells es fs) :
      Tells (skipped ++ es) (.refresh :: fs)

namespace Tells

variable {es fs gs hs : List Event}

theorem refl (es : List Event) : Tells es es := by
  induction es with
  | nil => exact .nil
  | cons e rest ih => exact .event e ih

theorem append (h : Tells es fs) (h' : Tells gs hs) : Tells (es ++ gs) (fs ++ hs) := by
  induction h with
  | nil => exact h'
  | event e _ ih => exact .event e ih
  | refresh skipped _ ih =>
      rw [List.append_assoc]
      exact .refresh skipped ih

/-- What is told by two lists one after the other falls into two parts. -/
theorem split (h : Tells es (fs ++ gs)) :
    ∃ front back, es = front ++ back ∧ Tells front fs ∧ Tells back gs := by
  induction fs generalizing es with
  | nil => exact ⟨[], es, rfl, .nil, h⟩
  | cons f rest ih =>
      cases h with
      | event e hrest =>
          obtain ⟨front, back, rfl, hfront, hback⟩ := ih hrest
          exact ⟨f :: front, back, rfl, .event f hfront, hback⟩
      | refresh skipped hrest =>
          obtain ⟨front, back, rfl, hfront, hback⟩ := ih hrest
          exact ⟨skipped ++ front, back, (List.append_assoc _ _ _).symm, .refresh skipped hfront,
            hback⟩

theorem trans (h : Tells es fs) (h' : Tells fs gs) : Tells es gs := by
  induction h' generalizing es with
  | nil => exact h
  | event e _ ih =>
      cases h with
      | event _ hrest => exact .event e (ih hrest)
      | refresh skipped hrest => exact .refresh skipped (ih hrest)
  | refresh skipped _ ih =>
      obtain ⟨front, back, rfl, -, hback⟩ := h.split
      exact .refresh front (ih hback)

theorem mem (h : Tells es fs) {e : Event} (he : e ∈ es) : e ∈ fs ∨ .refresh ∈ fs := by
  induction h with
  | nil => cases he
  | event f _ ih =>
      rcases List.mem_cons.mp he with rfl | hrest
      · exact .inl List.mem_cons_self
      · exact (ih hrest).imp (List.mem_cons_of_mem _) (List.mem_cons_of_mem _)
  | refresh skipped _ ih => exact .inr List.mem_cons_self

end Tells

def Scope.eventsOf (scope : Scope) (cs : List Change) : List Event :=
  (cs.filter (fun c => scope.covers c.pair.key)).map Event.change

/-- The events of more changes are those of the ones and then those of the others. -/
theorem Scope.eventsOf_append (scope : Scope) (cs ds : List Change) :
    scope.eventsOf (cs ++ ds) = scope.eventsOf cs ++ scope.eventsOf ds := by
  rw [eventsOf, List.filter_append, List.map_append]
  rfl

structure Ledger (σ : Type) where
  /-- A state that has come about by these changes. -/
  Made : σ → List Change → Prop
  /-- The version of the last of them, or a later one. -/
  revision : σ → Int
  /-- A channel that has been opened, if it is lost or not. -/
  Opened : σ → Nat → Prop
  /-- The scope of a channel that is not lost, and all that has still to be received on
  it. -/
  due? : σ → Nat → Option (Scope × List Event)

namespace Ledger

variable {σ : Type} {L : Ledger σ} {held : Option Nat} {s s' : σ} {log cs ds : List Change}

/-- A state that has come about from another by some more changes. The channel that
is held, if any, is lost or is due to tell of them too. -/
structure Later (L : Ledger σ) (held : Option Nat) (s : σ) (log : List Change) (s' : σ)
    (cs : List Change) : Prop where
  made : L.Made s' (log ++ cs)
  revision_le : L.revision s ≤ L.revision s'
  lt_version : ∀ c ∈ cs, L.revision s < c.version
  opened : ∀ id ∈ held, L.Opened s id → L.Opened s' id
  due : ∀ id ∈ held, L.Opened s id → ∀ scope waiting, L.due? s' id = some (scope, waiting) →
    ∃ before, L.due? s id = some (scope, before) ∧ Tells (before ++ scope.eventsOf cs) waiting

theorem Later.refl (h : L.Made s log) : L.Later held s log s [] where
  made := by
    rw [List.append_nil]
    exact h
  revision_le := Int.le_refl _
  lt_version := nofun
  opened := fun _ _ hid => hid
  due := by
    intro id _ _ scope waiting hdue
    refine ⟨waiting, hdue, ?_⟩
    rw [Scope.eventsOf, List.filter_nil, List.map_nil, List.append_nil]
    exact .refl waiting

/-- What may happen beside the calls of a cache. -/
def Moves (L : Ledger σ) (held : Option Nat) (s s' : σ) : Prop :=
  ∀ log, L.Made s log → ∃ cs, L.Later held s log s' cs

structure Kept (L : Ledger σ) (b : Instant → Backend σ) : Prop where
  /-- A listing is a snapshot, though more may have happened when it is answered. -/
  get : ∀ held now root s log, L.Made s log →
    let called := ((b now).get ⟨root, true⟩).exec s
    ∃ cs ds, L.Later held s log called.2 (cs ++ ds) ∧ ∀ listing, called.1 = .ok listing →
      listing.pairs = ((∅ : Contents).after (log ++ cs)).scan ⟨root, true⟩ ∧
        (∀ c ∈ log ++ cs, c.version ≤ listing.version) ∧
        (∀ d ∈ ds, listing.version < d.version) ∧ listing.version ≤ L.revision called.2
  /-- A watch is due every later change that it covers. -/
  watch : ∀ now scope version s log, L.Made s log → version ≤ L.revision s →
    let called := ((b now).watch scope version).exec s
    ∃ cs, L.Later none s log called.2 cs ∧ ∀ id, called.1 = .ok id →
      L.Opened called.2 id ∧ ∃ waiting, L.due? called.2 id = some (scope, waiting) ∧
        Tells (scope.eventsOf ((log ++ cs).filter (fun c => version < c.version))) waiting
  /-- What is received was due first. -/
  receive : ∀ now id s log, L.Made s log →
    let called := (b now).receive id s
    L.Made called.2 log ∧ L.revision called.2 = L.revision s ∧
      (L.Opened s id → L.Opened called.2 id) ∧
      ∀ scope waiting, L.due? called.2 id = some (scope, waiting) →
        L.due? s id = some (scope, called.1.events ++ waiting)
  dropWatch : ∀ now id s log, L.Made s log → L.Made ((b now).dropWatch id s) log

end Ledger

section Interrupted

variable {σ : Type}

def Backend.unreachable (e : Error) (b : Backend σ) : Backend σ :=
  { b with get := fun _ => .fail e, watch := fun _ _ => .fail e }

/-- A backend that cannot be reached now and then. -/
def Backend.interrupted (outage : Instant → Option Error) (b : Instant → Backend σ)
    (now : Instant) : Backend σ :=
  match outage now with
  | some e => (b now).unreachable e
  | none => b now

/-- Outages do not break the laws: a call that is refused answers nothing and changes
nothing. So a backend that obeys them may also be one that cannot be reached now and then. -/
theorem Ledger.Kept.interrupted {L : Ledger σ} {b : Instant → Backend σ} (h : L.Kept b)
    (outage : Instant → Option Error) : L.Kept (Backend.interrupted outage b) where
  get := by
    intro held now root s log hmade
    unfold Backend.interrupted
    cases outage now with
    | some e => exact ⟨[], [], .refl hmade, nofun⟩
    | none => exact h.get held now root s log hmade
  watch := by
    intro now scope version s log hmade hversion
    unfold Backend.interrupted
    cases outage now with
    | some e => exact ⟨[], .refl hmade, nofun⟩
    | none => exact h.watch now scope version s log hmade hversion
  receive := by
    intro now id s log hmade
    unfold Backend.interrupted
    cases outage now with
    | some e => exact h.receive now id s log hmade
    | none => exact h.receive now id s log hmade
  dropWatch := by
    intro now id s log hmade
    unfold Backend.interrupted
    cases outage now with
    | some e => exact h.dropWatch now id s log hmade
    | none => exact h.dropWatch now id s log hmade

end Interrupted

end Rollcall
