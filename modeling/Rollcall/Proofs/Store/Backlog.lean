import Rollcall.Proofs.Store.Delivery

/-!
What a watch is sent at once, and what it is sent over a run. Within the history
the backlog is every matching change after the version of the watch, so together
with what is announced later there is no gap; before it the backlog is a single
refresh. Main statements: `sent_within_history` and `backlog_applyAll`.
-/

namespace Rollcall

namespace Store

variable {s : Store} {made : List Change} {scope : Scope} {version : Int}

/-- A new channel starts with its backlog and is sent what is announced from then
on and is wanted. -/
theorem sent_from_watch {us : List Update} (hn : s.channels.Numbered)
    (hus : ∀ u ∈ us, u ≠ .closeAll) {c : Channel}
    (hc : ((s.watch scope version).2.applyAll us).channels.find? (s.watch scope version).1 =
      some c) :
    takenAll (s.watch scope version).1 (s.watch scope version).2 us ++ c.waiting =
      s.backlog scope version ++
        ((s.watch scope version).2.announcedAll us).filter scope.wants := by
  have hopened : (s.watch scope version).2.channels.find? (s.watch scope version).1 =
      some ⟨s.channels.nextId, scope, s.backlog scope version, true⟩ :=
    Channels.find?_add_self hn scope _
  have hnumbered : (s.watch scope version).2.channels.Numbered :=
    Channels.numbered_add hn scope _
  exact (sent_applyAll hnumbered hopened rfl hus hc).2.2

/-- Within the history, the backlog is every matching change after the version. -/
theorem backlog_of_le (h : Coherent s made) (hversion : s.compacted ≤ version) :
    s.backlog scope version =
      (made.filter (fun c => version < c.version && scope.covers c.pair.key)).map Event.change := by
  have hkept : ¬ version < s.compacted := by omega
  rw [backlog, if_neg hkept, replay, h.history_eq_filter, List.filter_filter]
  congr 2
  funext c
  by_cases hc : version < c.version
  · have hlater : s.compacted < c.version := by omega
    simp [hc, hlater]
  · simp [hc]

/-- What is made later lies after any version up to the present one. -/
theorem filter_later {later : List Change} (h : Coherent s made)
    (hlater : Consecutive 0 (made ++ later)) (hversion : version ≤ s.revision) :
    (made ++ later).filter (fun c => version < c.version && scope.covers c.pair.key) =
      made.filter (fun c => version < c.version && scope.covers c.pair.key) ++
        later.filter (fun c => scope.covers c.pair.key) := by
  rw [List.filter_append]
  congr 1
  apply List.filter_congr
  intro c member
  have hafter := (Consecutive.append_iff.mp hlater).2.lt_version c member
  have hrevision := h.revision_eq
  have hlt : version < c.version := by omega
  simp [hlt]

/-- Everything that a watch within the history is sent, over any run. -/
theorem sent_within_history (h : Coherent s made) {later : List Event}
    (hlater : Consecutive 0 (made ++ changesOf later)) (hfrom : s.compacted ≤ version)
    (hto : version ≤ s.revision) :
    changesOf (s.backlog scope version ++ later.filter scope.wants) =
        (made ++ changesOf later).filter
          (fun c => version < c.version && scope.covers c.pair.key) ∧
      (s.backlog scope version ++ later.filter scope.wants).count .refresh =
        later.count .refresh := by
  rw [backlog_of_le h hfrom]
  constructor
  · rw [changesOf_append, changesOf_map_change, changesOf_filter_wants, filter_later h hlater hto]
  · rw [List.count_append, count_refresh_map_change, count_refresh_filter_wants, Nat.zero_add]

/-- As long as nothing makes it lose what it would have sent, a watch that is yet
to start gains every matching change that is announced. -/
theorem backlog_applyAll (h : Coherent s made) (hversion : version ≤ s.revision)
    (us : List Update) :
    (s.applyAll us).backlog scope version = [.refresh] ∨
      (s.applyAll us).backlog scope version =
        s.backlog scope version ++
          ((changesOf (s.announcedAll us)).filter (fun c => scope.covers c.pair.key)).map
            Event.change := by
  have hlater := h.applyAll us
  have hmonotone := h.compacted_le_applyAll us
  by_cases hkept : (s.applyAll us).compacted ≤ version
  · right
    have hfrom : s.compacted ≤ version := by omega
    rw [backlog_of_le hlater hkept, backlog_of_le h hfrom,
      filter_later h hlater.consecutive hversion, List.map_append]
  · left
    rw [backlog, if_pos (by omega)]

end Store

end Rollcall
