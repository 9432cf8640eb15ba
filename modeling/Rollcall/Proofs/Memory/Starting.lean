import Rollcall.Proofs.Memory.Watching

/-!
Where a watch starts. Its receiver gets nothing but what waited for it when the watch was
opened, the missed changes after its version, and what is announced from then on,
whatever else happens to its channel. So it is sent nothing up to its version, unless
that lies ahead of the store: then the changes up to it are yet to be made, and they are
sent like all others (`watch_ahead_told_earlier`). Main statements: `mem_delivered` and
`watch_starts_after`.
-/

namespace Rollcall

namespace Store

variable {s : Store} {id : Nat} {e : Event}

/-- What a receiver has got and still gets after one update waited for it before or is
announced. -/
theorem mem_delivered_apply (hid : id < s.channels.nextId) {u : Update}
    (h : e ∈ s.taken id u ++ (s.apply u).channels.waitingOn id) :
    e ∈ s.channels.waitingOn id ∨ e ∈ s.announced u := by
  rcases channels_apply s u with ⟨-, hsame, htaken⟩ | ⟨sent, hsent, hoffer, htaken⟩ |
    ⟨scope, version, rfl⟩ | ⟨other, rfl⟩ | ⟨other, rfl⟩ | ⟨other, rfl⟩ | rfl
  · rw [htaken, hsame] at h
    exact .inl h
  · rw [htaken, hoffer] at h
    rw [hsent, List.mem_singleton]
    exact Channels.mem_waitingOn_offer h
  · left
    rwa [← Channels.waitingOn_congr (Channels.find?_add_of_lt hid scope (s.backlog scope version))]
  -- Whatever takes from this channel takes what waited on it.
  · left
    have hgot : e ∈ s.taken id (.receive other) ++ (s.channels.receive other).2.waitingOn id := h
    by_cases hother : other = id
    · subst hother
      rw [← Channels.waitingOn_receive]
      simpa only [taken, if_true] using hgot
    · rw [← Channels.waitingOn_of_ne (Channels.receive_eq s.channels other) (Ne.symm hother)]
      simpa only [taken, if_neg hother, List.nil_append] using hgot
  · left
    have hgot : e ∈ s.taken id (.drain other) ++ (s.channels.drain other).2.waitingOn id := h
    by_cases hother : other = id
    · subst hother
      rw [← Channels.waitingOn_drain]
      simpa only [taken, if_true] using hgot
    · rw [← Channels.waitingOn_of_ne (Channels.drain_eq s.channels other) (Ne.symm hother)]
      simpa only [taken, if_neg hother, List.nil_append] using hgot
  · left
    by_cases hother : id = other
    · subst hother
      rw [Channels.waitingOn] at h
      simp only [apply, Channels.find?_drop_self] at h
      cases h
    · rw [← Channels.waitingOn_congr (Channels.find?_drop_of_ne s.channels hother)]
      exact h
  · left
    rw [← Channels.waitingOn_closeAll]
    exact h

/-- Over a run too, also one that drops the receiver or closes the channels. -/
theorem mem_delivered (hid : id < s.channels.nextId) {us : List Update}
    (h : e ∈ takenAll id s us ++ (s.applyAll us).channels.waitingOn id) :
    e ∈ s.channels.waitingOn id ∨ e ∈ s.announcedAll us := by
  induction us generalizing s with
  | nil => exact .inl h
  | cons u rest ih =>
      rw [takenAll, applyAll_cons, List.append_assoc] at h
      rw [announcedAll, List.mem_append]
      rcases List.mem_append.mp h with htaken | hlater
      · have hfirst := mem_delivered_apply hid (List.mem_append_left _ htaken)
        exact hfirst.imp_right .inl
      · rcases ih (Nat.lt_of_lt_of_le hid (nextId_le_apply s u)) hlater with hwaiting | hannounced
        · have hfirst := mem_delivered_apply hid (List.mem_append_right _ hwaiting)
          exact hfirst.imp_right .inl
        · exact .inr (.inr hannounced)

theorem Coherent.revision_lt_of_announced {made : List Change} (h : Coherent s made)
    {us : List Update} {c : Change} (hc : .change c ∈ s.announcedAll us) :
    s.revision < c.version := by
  have hlater := (Consecutive.append_iff.mp (h.applyAll us).consecutive).2
  have hversion := (hlater.lt_version c (mem_changesOf.mpr hc)).1
  have hrevision := h.revision_eq
  omega

theorem version_lt_of_backlog {scope : Scope} {version : Int} {c : Change}
    (hc : .change c ∈ s.backlog scope version) : version < c.version := by
  unfold backlog at hc
  split at hc
  · cases List.mem_singleton.mp hc
  · obtain ⟨d, hd, hcd⟩ := List.mem_map.mp hc
    obtain rfl := Event.change.inj hcd
    have hkept := (List.mem_filter.mp hd).2
    rw [Bool.and_eq_true] at hkept
    exact of_decide_eq_true hkept.1

end Store

namespace Memory

/-- Everything that the receiver of a watch has taken or finds waiting after a run. -/
def delivered (m : Memory) (id : Nat) (actions : List (Instant × Action)) : List Event :=
  m.taken id actions ++ (m.run actions).store.channels.waitingOn id

/-- A watch starts after its version. On an open backend every change that its receiver
ever gets, over any run, is newer than the version, if the store has reached it by the
time of the expiry that the watch does first; if it lies ahead, every change is newer
than what the store has reached. A closed backend opens no watch. -/
theorem watch_starts_after (limit : Nat) (before : List (Instant × Action)) (now : Instant)
    (scope : Scope) (version : Int) :
    let m := (create limit).run before
    let reached := (m.act now .sweep).store.revision
    (m.closed = true → m.watch now scope version = (.error (.error .closed), m)) ∧
    (m.closed = false → ∃ id opened, m.watch now scope version = (.ok id, opened) ∧
      ∀ after, ∀ c ∈ changesOf (opened.delivered id after),
        (version ≤ reached → version < c.version) ∧
          (reached < version → reached < c.version)) := by
  intro m reached
  refine ⟨fun hclosed => ?_, fun hopen => ⟨_, _, watch_eq_of_open hopen now scope version, ?_⟩⟩
  · rw [watch, if_pos hclosed]
  · intro after c hc
    let expired := m.store.expire now
    have hcoherent := (coherent_run limit before).applyAll (m.store.expiries now)
    rw [← Store.expire_eq_applyAll] at hcoherent
    have hnumbered : expired.channels.Numbered := by
      simp only [expired, Store.expire_eq_applyAll]
      exact Store.numbered_applyAll (numbered_run limit before) _
    have hopened := hcoherent.apply (.watch scope version)
    have hwaiting : (expired.watch scope version).2.channels.waitingOn
        (expired.watch scope version).1 = expired.backlog scope version :=
      Channels.waitingOn_eq (Channels.find?_add_self hnumbered scope _)
    rw [mem_changesOf, delivered, taken,
      store_run { m with store := (expired.watch scope version).2 }] at hc
    rcases Store.mem_delivered (Nat.lt_succ_self _) hc with hbacklog | hannounced
    · have hlater : version < c.version := Store.version_lt_of_backlog (hwaiting ▸ hbacklog)
      refine ⟨fun _ => hlater, fun hahead => Int.lt_trans hahead hlater⟩
    · have hlater : reached < c.version := hopened.revision_lt_of_announced hannounced
      exact ⟨fun hbehind => Int.lt_of_le_of_lt hbehind hlater, fun _ => hlater⟩

/-- A watch from the first of two changes is sent the second and the deletion that
follows, which it takes before the backend is closed. -/
theorem watch_starts_after_first :
    let before : List (Instant × Action) := [(⟨0⟩, .set "a" "1" .zero), (⟨0⟩, .set "b" "2" .zero)]
    let after : List (Instant × Action) := [(⟨0⟩, .receive 0), (⟨0⟩, .delete "a"), (⟨0⟩, .close)]
    let m := (create 8).run before
    let opened := (m.watch ⟨0⟩ ⟨"", true⟩ 1).2
    m.closed = false ∧
      changesOf (opened.delivered 0 after) =
        [⟨.update, ⟨"b", "2", 2⟩⟩, ⟨.delete, ⟨"a", "1", 3⟩⟩] ∧
      ∀ c ∈ changesOf (opened.delivered 0 after), 1 < c.version := by
  intro before after m opened
  obtain ⟨id, opened', hwatch, hlater⟩ :=
    (watch_starts_after 8 before ⟨0⟩ ⟨"", true⟩ 1).2 rfl
  obtain rfl : opened = opened' := congrArg Prod.snd hwatch
  obtain rfl : 0 = id := Except.ok.inj (congrArg Prod.fst hwatch)
  refine ⟨rfl, by decide, fun c hc => ?_⟩
  exact (hlater after c hc).1 (by decide)

/-- A watch from the fifth version of a new store is told of the first. -/
theorem watch_ahead_told_earlier :
    let opened := ((create 8).watch ⟨0⟩ ⟨"", true⟩ 5).2
    ((create 8).watch ⟨0⟩ ⟨"", true⟩ 5).1 = .ok 0 ∧
      opened.delivered 0 [(⟨0⟩, .set "k" "v" .zero)] = [.change ⟨.update, ⟨"k", "v", 1⟩⟩] ∧
      ¬ ∀ c ∈ changesOf (opened.delivered 0 [(⟨0⟩, .set "k" "v" .zero)]), 5 < c.version := by
  refine ⟨rfl, rfl, ?_⟩
  decide

end Memory

end Rollcall
