import Rollcall.Watch

/-!
What a channel carries. A channel that stays held and open gains exactly the
events that its scope wants, in the order in which they are sent; taking events
from one channel, opening or dropping another, leaves it alone. Channels are
numbered as they open, so an id that is no longer held is never held again.
-/

namespace Rollcall

/-- The change that an event tells of; a refresh tells of none. -/
def Event.change? : Event → Option Change
  | .change c => some c
  | .refresh => none

def changesOf (events : List Event) : List Change := events.filterMap Event.change?

@[simp] theorem changesOf_nil : changesOf [] = [] := rfl

@[simp] theorem changesOf_change (c : Change) (events : List Event) :
    changesOf (.change c :: events) = c :: changesOf events := rfl

@[simp] theorem changesOf_refresh (events : List Event) :
    changesOf (.refresh :: events) = changesOf events := rfl

@[simp] theorem changesOf_append (xs ys : List Event) :
    changesOf (xs ++ ys) = changesOf xs ++ changesOf ys :=
  List.filterMap_append

@[simp] theorem changesOf_map_change (cs : List Change) :
    changesOf (cs.map Event.change) = cs := by
  induction cs with
  | nil => rfl
  | cons c rest ih =>
      simp only [List.map_cons, changesOf_change, ih]

/-- A change is among those that events tell of if one of them is its event. -/
theorem mem_changesOf {c : Change} {events : List Event} :
    c ∈ changesOf events ↔ .change c ∈ events := by
  unfold changesOf
  rw [List.mem_filterMap]
  constructor
  · rintro ⟨e, he, hc⟩
    cases e with
    | refresh => cases hc
    | change c' =>
        obtain rfl := Option.some.inj hc
        exact he
  · intro h
    exact ⟨_, h, rfl⟩

/-- A refresh concerns every watch, a change those that cover its key. -/
def Scope.wants (s : Scope) : Event → Bool
  | .change c => s.covers c.pair.key
  | .refresh => true

/-- To keep what a watch wants and read off the changes is to read off the changes and keep
those that it covers. -/
theorem changesOf_filter_wants (s : Scope) (events : List Event) :
    changesOf (events.filter s.wants) =
      (changesOf events).filter (fun c => s.covers c.pair.key) := by
  induction events with
  | nil => rfl
  | cons e rest ih =>
      cases e with
      | refresh =>
          rw [List.filter_cons_of_pos rfl]
          exact ih
      | change c =>
          by_cases h : s.covers c.pair.key
          · rw [List.filter_cons_of_pos (by exact h)]
            simp [h, ih]
          · rw [List.filter_cons_of_neg (by exact h)]
            simp [h, ih]

theorem count_refresh_filter_wants (s : Scope) (events : List Event) :
    (events.filter s.wants).count .refresh = events.count .refresh :=
  List.count_filter rfl

theorem count_refresh_map_change (cs : List Change) :
    (cs.map Event.change).count .refresh = 0 := by
  apply List.count_eq_zero.mpr
  simp

def Channel.offer (e : Event) (c : Channel) : Channel :=
  if c.isOpen && c.scope.wants e then { c with waiting := c.waiting ++ [e] } else c

namespace Channel

@[simp] theorem offer_id (e : Event) (c : Channel) : (c.offer e).id = c.id := by
  unfold offer
  split <;> rfl

@[simp] theorem offer_scope (e : Event) (c : Channel) : (c.offer e).scope = c.scope := by
  unfold offer
  split <;> rfl

@[simp] theorem offer_isOpen (e : Event) (c : Channel) : (c.offer e).isOpen = c.isOpen := by
  unfold offer
  split <;> rfl

/-- An open channel queues an event that it wants behind what waits. -/
theorem offer_waiting {c : Channel} (hopen : c.isOpen = true) (e : Event) :
    (c.offer e).waiting = c.waiting ++ [e].filter c.scope.wants := by
  unfold offer
  by_cases h : c.scope.wants e <;> simp [hopen, h]

end Channel

/-- The events that a receiver finds, one at most. -/
def Received.events : Received → List Event
  | .event e => [e]
  | .nothing | .ended => []

namespace Channels

/-- Ids are given in ascending order, so the next one is free. -/
def Numbered (cs : Channels) : Prop := ∀ c ∈ cs.held, c.id < cs.nextId

theorem numbered_none : Numbered .none := by
  intro c member
  cases member

theorem find?_eq_none_of_le {cs : Channels} (h : cs.Numbered) {id : Nat}
    (hid : cs.nextId ≤ id) : cs.find? id = Option.none := by
  apply List.find?_eq_none.mpr
  intro c member
  have hc := h c member
  simp only [decide_eq_true_eq]
  omega

theorem id_lt_of_find? {cs : Channels} (h : cs.Numbered) {id : Nat} {c : Channel}
    (hc : cs.find? id = some c) : id < cs.nextId := by
  have hlt := h c (List.mem_of_find?_eq_some hc)
  have hid : c.id = id := by simpa using List.find?_some hc
  omega

theorem find?_update (cs : Channels) (f : Channel → Channel) (hf : ∀ c, (f c).id = c.id)
    (id : Nat) : (cs.update f).find? id = (cs.find? id).map f := by
  have hid : (fun c : Channel => decide (c.id = id)) ∘ f = fun c => decide (c.id = id) := by
    funext c
    simp only [Function.comp_apply, hf]
  simp only [find?, update, List.find?_map, hid]

/-- A change of channels that keeps their ids keeps them numbered. -/
theorem numbered_update {cs : Channels} (h : cs.Numbered) {f : Channel → Channel}
    (hf : ∀ c, (f c).id = c.id) : (cs.update f).Numbered := by
  intro c member
  obtain ⟨c, hc, rfl⟩ := List.mem_map.mp member
  rw [hf]
  exact h c hc

/-- Sends an event to all: each channel takes it if it is open and wants it. -/
def offer (cs : Channels) (e : Event) : Channels := cs.update (Channel.offer e)

theorem publish_eq_offer (cs : Channels) (c : Change) : cs.publish c = cs.offer (.change c) := rfl

theorem broadcast_refresh_eq_offer (cs : Channels) :
    cs.broadcast .refresh = cs.offer .refresh := rfl

/-- Sending to all is sending to each. Seen from one channel, nothing of what the others
want or hold matters. -/
theorem find?_offer (cs : Channels) (e : Event) (id : Nat) :
    (cs.offer e).find? id = (cs.find? id).map (Channel.offer e) :=
  find?_update cs _ (Channel.offer_id e) id

theorem numbered_offer {cs : Channels} (h : cs.Numbered) (e : Event) : (cs.offer e).Numbered :=
  numbered_update h (Channel.offer_id e)

theorem numbered_add {cs : Channels} (h : cs.Numbered) (scope : Scope) (waiting : List Event) :
    (cs.add scope waiting).2.Numbered := by
  intro c member
  simp only [add, List.mem_append, List.mem_singleton] at member ⊢
  rcases member with hc | rfl
  · have := h c hc
    omega
  · exact Nat.lt_succ_self _

theorem find?_add_of_lt {cs : Channels} {id : Nat} (hid : id < cs.nextId) (scope : Scope)
    (waiting : List Event) : (cs.add scope waiting).2.find? id = cs.find? id := by
  have hne : ¬ cs.nextId = id := by omega
  simp [find?, add, hne]

/-- A new channel has the next id, and is open with what it is to be sent first. -/
theorem find?_add_self {cs : Channels} (h : cs.Numbered) (scope : Scope) (waiting : List Event) :
    (cs.add scope waiting).2.find? cs.nextId = some ⟨cs.nextId, scope, waiting, true⟩ := by
  have hnone : cs.held.find? (fun c => decide (c.id = cs.nextId)) = Option.none :=
    find?_eq_none_of_le h (Nat.le_refl _)
  simp [find?, add, hnone]

theorem numbered_drop {cs : Channels} (h : cs.Numbered) (id : Nat) : (cs.drop id).Numbered :=
  fun c member => h c (List.mem_filter.mp member).1

theorem find?_drop_self (cs : Channels) (id : Nat) : (cs.drop id).find? id = Option.none := by
  apply List.find?_eq_none.mpr
  intro c member
  simpa using (List.mem_filter.mp member).2

theorem find?_drop_of_ne (cs : Channels) {id other : Nat} (h : id ≠ other) :
    (cs.drop other).find? id = cs.find? id := by
  unfold find? drop
  rw [List.find?_filter]
  congr 1
  funext c
  by_cases hc : c.id = id
  · have hne : c.id ≠ other := by omega
    simp [hc, h]
  · simp [hc]

theorem find?_id {cs : Channels} {id : Nat} {c : Channel} (h : cs.find? id = some c) :
    c.id = id := by
  simpa using List.find?_some h

theorem find?_setWaiting (cs : Channels) (id other : Nat) (waiting : List Event) :
    (cs.setWaiting other waiting).find? id =
      (cs.find? id).map (fun c => if c.id = other then { c with waiting } else c) :=
  find?_update cs _ (fun c => by split <;> rfl) id

theorem find?_setWaiting_of_ne (cs : Channels) {id other : Nat} (h : id ≠ other)
    (waiting : List Event) : (cs.setWaiting other waiting).find? id = cs.find? id := by
  rw [find?_setWaiting]
  cases hc : cs.find? id with
  | none => rfl
  | some c =>
      have hne : ¬ c.id = other := fun heq => h ((find?_id hc).symm.trans heq)
      rw [Option.map_some, if_neg hne]

theorem find?_setWaiting_self {cs : Channels} {id : Nat} {c : Channel} (h : cs.find? id = some c)
    (waiting : List Event) :
    (cs.setWaiting id waiting).find? id = some { c with waiting } := by
  rw [find?_setWaiting, h, Option.map_some, if_pos (find?_id h)]

theorem numbered_setWaiting {cs : Channels} (h : cs.Numbered) (id : Nat) (waiting : List Event) :
    (cs.setWaiting id waiting).Numbered :=
  numbered_update h (fun c => by split <;> rfl)

/-- Receiving sets what waits on a channel, if it does anything. -/
theorem receive_eq (cs : Channels) (id : Nat) :
    (cs.receive id).2 = cs ∨ ∃ rest, (cs.receive id).2 = cs.setWaiting id rest := by
  unfold receive
  cases cs.find? id with
  | none => exact .inl rfl
  | some c =>
      cases hwaiting : c.waiting with
      | nil => exact .inl (by simp only [hwaiting])
      | cons e rest => exact .inr ⟨rest, by simp only [hwaiting]⟩

theorem drain_eq (cs : Channels) (id : Nat) :
    (cs.drain id).2 = cs ∨ ∃ rest, (cs.drain id).2 = cs.setWaiting id rest := by
  unfold drain
  cases cs.find? id with
  | none => exact .inl rfl
  | some c => exact .inr ⟨[], rfl⟩

/-- What a receiver takes and what is left for it are what waited. -/
theorem receive_self {cs : Channels} {id : Nat} {c : Channel} (h : cs.find? id = some c) :
    ∃ rest, (cs.receive id).2.find? id = some { c with waiting := rest } ∧
      (cs.receive id).1.events ++ rest = c.waiting := by
  unfold receive
  rw [h]
  cases hwaiting : c.waiting with
  | nil =>
      refine ⟨[], ?_, ?_⟩
      · simp only [hwaiting, h]
        rw [← hwaiting]
      · cases hopen : c.isOpen <;> simp [hwaiting, hopen, Received.events]
  | cons e rest =>
      refine ⟨rest, ?_, ?_⟩
      · simp only [hwaiting]
        exact find?_setWaiting_self h rest
      · simp only [hwaiting, Received.events, List.singleton_append]

/-- After a drain nothing waits, and the channel is otherwise as it was. -/
theorem drain_self {cs : Channels} {id : Nat} {c : Channel} (h : cs.find? id = some c) :
    (cs.drain id).2.find? id = some { c with waiting := [] } ∧
      (cs.drain id).1.map Prod.fst = some c.waiting := by
  unfold drain
  rw [h]
  exact ⟨find?_setWaiting_self h [], rfl⟩

def waitingOn (cs : Channels) (id : Nat) : List Event :=
  ((cs.find? id).map Channel.waiting).getD []

section Waiting

variable {cs : Channels} {id other : Nat} {e : Event}

theorem waitingOn_congr {ds : Channels} (h : ds.find? id = cs.find? id) :
    ds.waitingOn id = cs.waitingOn id := by
  rw [waitingOn, waitingOn, h]

theorem waitingOn_eq {c : Channel} (h : cs.find? id = some c) : cs.waitingOn id = c.waiting := by
  rw [waitingOn, h]
  rfl

/-- What waits after an event was sent waited before or is that event. -/
theorem mem_waitingOn_offer {sent : Event} (h : e ∈ (cs.offer sent).waitingOn id) :
    e ∈ cs.waitingOn id ∨ e = sent := by
  rw [waitingOn, find?_offer] at h
  rw [waitingOn]
  cases hc : cs.find? id with
  | none =>
      rw [hc] at h
      exact .inl h
  | some c =>
      rw [hc] at h
      simp only [Option.map_some, Option.getD_some, Channel.offer] at h ⊢
      split at h
      · simpa only [List.mem_append, List.mem_singleton] using h
      · exact .inl h

theorem waitingOn_closeAll : cs.closeAll.waitingOn id = cs.waitingOn id := by
  have hclosed := find?_update cs (fun c => { c with isOpen := false }) (fun _ => rfl) id
  rw [waitingOn, waitingOn, closeAll, hclosed, Option.map_map]
  rfl

theorem waitingOn_of_ne {ds : Channels} (h : ds = cs ∨ ∃ rest, ds = cs.setWaiting other rest)
    (hne : id ≠ other) : ds.waitingOn id = cs.waitingOn id := by
  rcases h with rfl | ⟨rest, rfl⟩
  · rfl
  · exact waitingOn_congr (find?_setWaiting_of_ne _ hne rest)

/-- What a receiver finds and what is left after that are together what waited, in order. -/
theorem waitingOn_receive :
    (cs.receive id).1.events ++ (cs.receive id).2.waitingOn id = cs.waitingOn id := by
  cases hc : cs.find? id with
  | none => simp only [receive, waitingOn, hc, Received.events, Option.map_none, Option.getD_none,
      List.nil_append]
  | some c =>
      obtain ⟨rest, hrest, htaken⟩ := receive_self hc
      rw [waitingOn_eq hrest, waitingOn_eq hc]
      exact htaken

theorem waitingOn_drain :
    ((cs.drain id).1.map Prod.fst).getD [] ++ (cs.drain id).2.waitingOn id =
      cs.waitingOn id := by
  cases hc : cs.find? id with
  | none => simp only [drain, waitingOn, hc, Option.map_none, Option.getD_none, List.nil_append]
  | some c =>
      obtain ⟨hfound, htaken⟩ := drain_self hc
      rw [htaken, waitingOn_eq hfound, waitingOn_eq hc, Option.getD_some, List.append_nil]

end Waiting

end Channels

end Rollcall
