import Rollcall.Proofs.Memory.Schedule
import Rollcall.Proofs.Store.Backlog

/-!
Watches of a backend in memory have no gaps. The history always holds the last
changes of the run, those after `compacted`, however the bound on its length and
compactions have cut it. A watch that starts within the history is therefore sent
every matching change after its version, once and in order; one that starts
before it is first told to load again. Main statement: `watch_gapless`.
-/

namespace Rollcall

namespace Memory

/-- The channels of a reachable backend are numbered in the order in which they were opened,
whatever has been dropped since. -/
theorem numbered_run (limit : Nat) (actions : List (Instant × Action)) :
    ((create limit).run actions).store.channels.Numbered := by
  rw [store_run]
  exact Store.numbered_applyAll Channels.numbered_none _

/-- A reachable store is coherent with the changes of its run: it has made exactly those,
numbered from one on, and keeps the last of them. -/
theorem coherent_run (limit : Nat) (actions : List (Instant × Action)) :
    Store.Coherent ((create limit).run actions).store (changesOf ((create limit).log actions)) := by
  have h := (Store.Coherent.create limit).applyAll ((create limit).runUpdates actions)
  rw [List.nil_append] at h
  rw [store_run]
  exact h

/-- The bound of the history is fixed when the backend is created, at one or more. -/
theorem historyLimit_run (limit : Nat) (actions : List (Instant × Action)) :
    ((create limit).run actions).store.historyLimit = max limit 1 := by
  rw [store_run, Store.historyLimit_applyAll]
  rfl

/-- A watch that an open backend starts is preceded by the expiry that it does. -/
theorem log_watch {m : Memory} (h : m.closed = false) (now : Instant) (scope : Scope)
    (version : Int) (after : List (Instant × Action)) :
    m.log ((now, .watch scope version) :: after) =
      m.store.announcedAll (m.store.expiries now) ++
        (m.act now (.watch scope version)).log after := by
  have hupdates : m.updates now (.watch scope version) =
      m.store.expiries now ++ [.watch scope version] := by
    simp only [updates, h, Bool.false_eq_true, if_false, openUpdates]
  rw [log, runUpdates, Store.announcedAll_append, ← store_act, hupdates,
    Store.announcedAll_append]
  simp only [Store.announcedAll, Store.announced, List.append_nil]
  rfl

/-- The retained history and every watch of it. The history holds exactly the
changes of the run with the versions after `compacted`, at most as many as the
bound allows. A watch on an open backend from a version that the store has
reached is sent, as long as the backend is open and its receiver held, exactly
the matching changes after that version, each once and in order, if the history
still reaches back to it, and otherwise a refresh and then exactly the matching
changes made from then on. The only other refreshes are those sent to all. -/
theorem watch_gapless (limit : Nat) (before : List (Instant × Action)) :
    let m := (create limit).run before
    let made := changesOf ((create limit).log before)
    (made.map Change.version = versionsBetween 0 m.store.revision ∧
      m.store.history = made.filter (fun c => m.store.compacted < c.version) ∧
      m.store.history.map Change.version =
        versionsBetween m.store.compacted m.store.revision ∧
      m.store.history.length ≤ m.store.historyLimit ∧ m.store.historyLimit = max limit 1) ∧
    ∀ (now : Instant) (scope : Scope) (version : Int), m.closed = false →
      version ≤ m.store.revision →
      ∃ id opened, m.watch now scope version = (.ok id, opened) ∧
        ∀ (after : List (Instant × Action)) (c : Channel), (opened.run after).closed = false →
          (opened.run after).store.channels.find? id = some c →
          let sent := opened.taken id after ++ c.waiting
          let later := opened.log after
          let all := changesOf ((create limit).log (before ++ (now, .watch scope version) :: after))
          (changesOf sent).Pairwise (fun a b => a.version < b.version) ∧
          ((m.store.expire now).compacted ≤ version →
            changesOf sent =
                all.filter (fun c => version < c.version && scope.covers c.pair.key) ∧
              sent.count .refresh = later.count .refresh) ∧
          (version < (m.store.expire now).compacted →
            ∃ rest, sent = .refresh :: rest ∧
              changesOf rest = (changesOf later).filter (fun c => scope.covers c.pair.key) ∧
              rest.count .refresh = later.count .refresh) := by
  intro m made
  have hm : Store.Coherent m.store made := coherent_run limit before
  refine ⟨⟨?_, hm.history_eq_filter, ?_, hm.bounded, historyLimit_run limit before⟩, ?_⟩
  · rw [hm.consecutive.map_version, hm.revision_eq, Int.zero_add]
  · rw [hm.history_consecutive.1.map_version, hm.history_consecutive.2]
  intro now scope version hopen hversion
  refine ⟨_, _, watch_eq_of_open hopen now scope version, ?_⟩
  intro after c hclosed hc sent later all
  let expired := m.store.expire now
  let expiring := changesOf (m.store.announcedAll (m.store.expiries now))
  have hact : m.act now (.watch scope version) =
      { m with store := (expired.watch scope version).2 } := by
    rw [act, watch_eq_of_open hopen]
  have hexpired : Store.Coherent expired (made ++ expiring) := by
    have h := hm.applyAll (m.store.expiries now)
    rwa [← Store.expire_eq_applyAll] at h
  have hall : all = (made ++ expiring) ++ changesOf later := by
    have hlog := log_append (create limit) before ((now, .watch scope version) :: after)
    rw [log_watch hopen, hact] at hlog
    simp only [all, hlog, changesOf_append]
    exact (List.append_assoc _ _ _).symm
  have hconsecutive : Consecutive 0 ((made ++ expiring) ++ changesOf later) := by
    have h := coherent_run limit (before ++ (now, .watch scope version) :: after)
    rw [← hall]
    exact h.consecutive
  have hreached : version ≤ expired.revision := by
    have hbefore := hm.revision_eq
    have hafter := hexpired.revision_eq
    rw [List.length_append] at hafter
    omega
  have hsent : sent = expired.backlog scope version ++ later.filter scope.wants := by
    have hn : expired.channels.Numbered := by
      simp only [expired, Store.expire_eq_applyAll]
      exact Store.numbered_applyAll (numbered_run limit before) _
    rw [store_run] at hc
    exact Store.sent_from_watch hn (closeAll_not_mem_runUpdates hclosed) hc
  have hwithin (hfrom : expired.compacted ≤ version) :=
    hsent ▸ Store.sent_within_history hexpired hconsecutive hfrom hreached
  have hrefresh (hlost : version < expired.compacted) :
      sent = .refresh :: later.filter scope.wants := by
    rw [hsent, Store.backlog, if_pos hlost]
    rfl
  refine ⟨?_, ?_, ?_⟩
  · have hascending := hconsecutive.ascending
    by_cases hfrom : expired.compacted ≤ version
    · rw [(hwithin hfrom).1]
      exact hascending.filter _
    · rw [hrefresh (by omega), changesOf_refresh, changesOf_filter_wants]
      exact (List.pairwise_append.mp hascending).2.1.filter _
  · intro hfrom
    rw [hall]
    exact hwithin hfrom
  · intro hlost
    exact ⟨_, hrefresh hlost, changesOf_filter_wants _ _, count_refresh_filter_wants _ _⟩

/-- With room for one change, a watch from before the two that were made is
refreshed and then sent the next. -/
theorem watch_gapless_evicted :
    let before : List (Instant × Action) := [(⟨0⟩, .set "a" "1" .zero), (⟨0⟩, .set "b" "2" .zero)]
    let after : List (Instant × Action) := [(⟨0⟩, .receive 0), (⟨0⟩, .set "b" "3" .zero)]
    let m := (create 1).run before
    let opened := (m.watch ⟨0⟩ ⟨"", true⟩ 0).2
    m.closed = false ∧ (0 : Int) ≤ m.store.revision ∧ (opened.run after).closed = false ∧
      0 < (m.store.expire ⟨0⟩).compacted ∧
      ∃ c rest, (opened.run after).store.channels.find? 0 = some c ∧
        opened.taken 0 after ++ c.waiting = .refresh :: rest ∧
        changesOf rest = [⟨.update, ⟨"b", "3", 3⟩⟩] := by
  intro before after m opened
  obtain ⟨id, opened', hwatch, hsent⟩ :=
    (watch_gapless 1 before).2 ⟨0⟩ ⟨"", true⟩ 0 (by decide) (by decide)
  obtain rfl : opened = opened' := congrArg Prod.snd hwatch
  obtain rfl : 0 = id := Except.ok.inj (congrArg Prod.fst hwatch)
  obtain ⟨-, -, hlost⟩ := hsent after ⟨0, ⟨"", true⟩, [.change ⟨.update, ⟨"b", "3", 3⟩⟩], true⟩
    (by decide) (by decide)
  obtain ⟨rest, hrest, hchanges, -⟩ := hlost (by decide)
  have hmade : changesOf rest = [⟨.update, ⟨"b", "3", 3⟩⟩] := hchanges.trans (by decide)
  exact ⟨by decide, by decide, by decide, by decide, _, rest, by decide, hrest, hmade⟩

end Memory

end Rollcall
