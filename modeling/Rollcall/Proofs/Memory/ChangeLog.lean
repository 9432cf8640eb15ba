import Rollcall.Proofs.Memory.Watching
import Rollcall.Proofs.Store.Replay

/-!
The changes that a backend in memory publishes determine its entries. Whatever
happens between two moments of a run, explicit writes, counters, lapses of several
keys at once, renewals that write or only move a deadline, the published changes
are numbered without a gap and lead from the keys, values and versions of the one
moment to those of the other. Main statement: `log_determines_contents`.
-/

namespace Rollcall

namespace Memory

section

variable {m : Memory}

/-- However long a run is, its history stays within the limit that the backend was created
with; a limit of zero counts as one. -/
theorem bounded_run (limit : Nat) (actions : List (Instant × Action)) :
    ((create limit).run actions).store.Bounded := by
  rw [store_run]
  exact (Store.Bounded.create limit).applyAll _

theorem history_run {made : List Change} (h : m.store.Coherent made)
    (later : List (Instant × Action)) :
    (m.run later).store.history =
      (m.store.history ++ changesOf (m.log later)).filter
        (fun c => (m.run later).store.compacted < c.version) := by
  have hafter := h.applyAll (m.runUpdates later)
  have hcompacted := h.compacted_le_applyAll (m.runUpdates later)
  rw [store_run, hafter.history_eq_filter, h.history_eq_filter, List.filter_append,
    List.filter_append, List.filter_filter]
  congr 1
  apply List.filter_congr
  intro c _
  rw [Bool.eq_iff_iff, Bool.and_eq_true, decide_eq_true_iff, decide_eq_true_iff]
  omega

/-- A renewal that finds its value moves a deadline and publishes nothing. -/
theorem work_unchanged (now : Instant) {i : Nat} {r : Renewal} {e : Entry}
    (hjob : m.jobs[i]? = some (.renewal r)) (hentry : m.store.entries.get? r.key = some e)
    (hvalue : e.value = r.value) :
    m.workUpdates now i = [] ∨ ∃ deadline, m.workUpdates now i = [.extend r.key deadline] := by
  simp only [workUpdates, hjob]
  cases r.phase with
  | asleep t => exact .inl rfl
  | awake =>
      cases deadline? now r.ttl with
      | error failure => exact .inl rfl
      | ok deadline =>
          refine .inr ⟨deadline, ?_⟩
          simp only [Store.renewal, hentry, hvalue, if_true]

end

/-- Between two moments of a run the published changes have exactly the versions
after the revision of the first up to that of the second; each makes a difference to
the entries, and entered one after the other into the keys, values and versions of
the first moment they give those of the second. They are what the history gains, and
what each watch that is held meanwhile is sent, as far as it covers them. A renewal
that finds its value changes no key, value, version or revision. -/
theorem log_determines_contents (limit : Nat) (before later : List (Instant × Action)) :
    let m := (create limit).run before
    let m' := m.run later
    let changes := changesOf (m.log later)
    changes.map Change.version = versionsBetween m.store.revision m'.store.revision ∧
      m.store.contents.Alters changes ∧
      m'.store.contents = m.store.contents.after changes ∧
      m'.store.history =
        (m.store.history ++ changes).filter (fun c => m'.store.compacted < c.version) ∧
      (∀ id c c', m.store.channels.find? id = some c → c.isOpen = true → m'.closed = false →
        m'.store.channels.find? id = some c' →
        changesOf (m.taken id later ++ c'.waiting) =
          changesOf c.waiting ++ changes.filter (fun d => c.scope.covers d.pair.key)) ∧
      (∀ now i r e, m'.jobs[i]? = some (.renewal r) → m'.store.entries.get? r.key = some e →
        e.value = r.value →
        let renewed := m'.act now (.work i)
        renewed.store.contents = m'.store.contents ∧
          renewed.store.revision = m'.store.revision ∧ m'.log [(now, .work i)] = []) := by
  intro m m' changes
  have hm : m.store.Coherent (changesOf ((create limit).log before)) := coherent_run limit before
  have hstore : m'.store = m.store.applyAll (m.runUpdates later) := store_run m later
  have hm' := hm.applyAll (m.runUpdates later)
  rw [← hstore] at hm'
  refine ⟨?_, (bounded_run limit before).alters_applyAll _, ?_, history_run hm later, ?_, ?_⟩
  · have hnumbered := (Consecutive.append_iff.mp hm'.consecutive).2
    have hfirst := hm.revision_eq
    have hlast := hm'.revision_eq
    rw [List.length_append] at hlast
    rw [Int.zero_add, ← hfirst] at hnumbered
    rw [show m'.store.revision = m.store.revision + changes.length by
      simp only [changes, log]
      omega]
    exact hnumbered.map_version
  · rw [hstore]
    exact Store.contents_applyAll m.store _
  · intro id c c' hc hopen hclosed hc'
    rw [hstore] at hc'
    have hsent := (Store.sent_applyAll (numbered_run limit before) hc hopen
      (closeAll_not_mem_runUpdates hclosed) hc').2.2
    rw [taken, hsent, changesOf_append, changesOf_filter_wants]
    rfl
  · intro now i r e hjob hentry hvalue renewed
    have hlog : m'.log [(now, .work i)] = m'.store.announcedAll (m'.workUpdates now i) := by
      simp only [log, runUpdates, updates, List.append_nil]
    simp only [renewed, act, store_workJob, hlog]
    rcases work_unchanged now hjob hentry hvalue with hidle | ⟨deadline, hmoves⟩
    · rw [hidle]
      exact ⟨rfl, rfl, rfl⟩
    · rw [hmoves]
      refine ⟨Store.contents_extend _ _ _, ?_, rfl⟩
      simp only [Store.applyAll_cons, Store.applyAll_nil, Store.apply, Store.extend, hentry]

/-- A watch is sent the one change that it covers of the two that are made, and then a
renewal that is awake finds its value. -/
theorem log_determines_contents_renewed :
    let before : List (Instant × Action) :=
      [(⟨0⟩, .keepAlive "k/a" "v" (.ofMillis 30)), (⟨0⟩, .watch ⟨"k/", true⟩ 0)]
    let later : List (Instant × Action) :=
      [(⟨0⟩, .set "k/b" "w" .zero), (⟨0⟩, .set "c" "w" .zero),
        (⟨10 * nanosPerMilli⟩, .wake 0)]
    let m := (create 1).run before
    let m' := m.run later
    let renewed := m'.act ⟨10 * nanosPerMilli⟩ (.work 0)
    m'.store.contents =
        m.store.contents.after [⟨.update, ⟨"k/b", "w", 2⟩⟩, ⟨.update, ⟨"c", "w", 3⟩⟩] ∧
      (∃ c', m'.store.channels.find? 0 = some c' ∧
        changesOf (m.taken 0 later ++ c'.waiting) =
          [⟨.update, ⟨"k/a", "v", 1⟩⟩, ⟨.update, ⟨"k/b", "w", 2⟩⟩]) ∧
      renewed.store.entries ≠ m'.store.entries ∧ renewed.store.contents = m'.store.contents := by
  intro before later m m' renewed
  obtain ⟨-, -, hcontents, -, hsent, hrenewed⟩ := log_determines_contents 1 before later
  have hchanges : changesOf (m.log later) =
      [⟨.update, ⟨"k/b", "w", 2⟩⟩, ⟨.update, ⟨"c", "w", 3⟩⟩] := by decide
  rw [hchanges] at hcontents
  let first : Change := ⟨.update, ⟨"k/a", "v", 1⟩⟩
  let second : Change := ⟨.update, ⟨"k/b", "w", 2⟩⟩
  let c : Channel := ⟨0, ⟨"k/", true⟩, [.change first], true⟩
  let c' : Channel := { c with waiting := [.change first, .change second] }
  have hc' : m'.store.channels.find? 0 = some c' := by decide
  refine ⟨hcontents, ⟨c', hc', ?_⟩, by decide, ?_⟩
  · rw [hsent 0 c c' (by decide) rfl (by decide) hc', hchanges]
    decide
  · exact (hrenewed ⟨10 * nanosPerMilli⟩ 0 ⟨"k/a", "v", .ofMillis 30, .awake, false⟩
      ⟨"v", 1, some ⟨30 * nanosPerMilli⟩⟩ (by decide) (by decide) rfl).1

end Memory

end Rollcall
