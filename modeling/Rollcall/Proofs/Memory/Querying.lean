import Rollcall.Proofs.Memory.ChangeLog
import Rollcall.Proofs.Memory.Lapsing
import Rollcall.Proofs.Text.Order

/-!
What a query of a backend in memory answers. A query expires first, so it finds the
entries whose deadlines lie ahead. Under a prefix it reads on from the prefix to the
first key without it, and that is everything: in the order of bytes such keys stand
together. Every entry has the number of the change that wrote it, so none is older than
the first change or newer than the store. Main statement: `listings_exact`.
-/

namespace Rollcall

/-- What is bound after some changes was bound before them or is from one of them. -/
theorem Contents.get?_after {t : Contents} {cs : List Change} {key : String} {p : String × Int}
    (h : (t.after cs).get? key = some p) :
    t.get? key = some p ∨ ∃ c ∈ cs, c.pair = ⟨key, p.1, p.2⟩ := by
  induction cs generalizing t with
  | nil => exact .inl h
  | cons c rest ih =>
      rw [after_cons] at h
      rcases ih h with hentered | ⟨d, hd, hpair⟩
      · unfold enter at hentered
        cases hkind : c.kind with
        | update =>
            simp only [hkind, Table.get?_insert] at hentered
            split at hentered
            · rename_i hkey
              subst hkey
              obtain rfl := Option.some.inj hentered
              exact .inr ⟨c, List.mem_cons_self, rfl⟩
            · exact .inl hentered
        | delete =>
            simp only [hkind, Table.get?_erase] at hentered
            split at hentered
            · cases hentered
            · exact .inl hentered
      · exact .inr ⟨d, List.mem_cons_of_mem _ hd, hpair⟩

/-- An entry is in time if it has no deadline or one that lies ahead. At the deadline itself
it is overdue. -/
theorem Entry.isOverdue_eq_false_iff {e : Entry} {now : Instant} :
    e.isOverdue now = false ↔ ∀ d, e.deadline = some d → now < d := by
  unfold isOverdue
  cases e.deadline with
  | none => simp
  | some d =>
      simp only [decide_eq_false_iff_not, Option.some.injEq, forall_eq']
      exact Nat.not_le

namespace Store

variable {s : Store} {now : Instant} {root : String} {p : Pair}

/-- A query under a prefix lists the entries that have it and are not overdue. -/
theorem mem_scan_expire :
    p ∈ (s.expire now).scan ⟨root, true⟩ ↔
      Key.startsWith root p.key = true ∧
        ∃ e, s.entries.get? p.key = some e ∧ e.isOverdue now = false ∧ p = toPair (p.key, e) := by
  have hfresh (key : String) (e : Entry) : (key, e) ∈ (s.expire now).entries.rows ↔
      s.entries.get? key = some e ∧ e.isOverdue now = false := by
    rw [← Table.get?_eq_some_iff, get?_expire, Option.filter_eq_some_iff, Bool.not_eq_true']
  rw [scan_eq_filter, List.mem_map]
  constructor
  · rintro ⟨⟨key, e⟩, hrow, rfl⟩
    obtain ⟨hentry, hstarts⟩ := List.mem_filter.mp hrow
    obtain ⟨hfound, hlate⟩ := (hfresh key e).mp hentry
    exact ⟨hstarts, e, hfound, hlate, rfl⟩
  · rintro ⟨hstarts, e, hfound, hlate, hpair⟩
    exact ⟨(p.key, e), List.mem_filter.mpr ⟨(hfresh p.key e).mpr ⟨hfound, hlate⟩, hstarts⟩,
      hpair.symm⟩

theorem scan_ascending (s : Store) (root : String) :
    (s.scan ⟨root, true⟩).Pairwise (fun p q => Text.utf8 p.key < Text.utf8 q.key) := by
  rw [scan_eq_filter]
  have hrows := s.entries.ascending.filter (fun row => Key.startsWith root row.1)
  exact hrows.map toPair (fun _ _ hlt => Text.utf8_lt hlt)

/-- A query for one key answers what a query under that key as a prefix lists of it. -/
theorem scan_single (s : Store) (key : String) :
    s.scan ⟨key, false⟩ = (s.scan ⟨key, true⟩).filter (fun p => p.key = key) := by
  have hself : Key.startsWith key key = true := Key.startsWith_iff.mpr (List.prefix_refl _)
  have hrows : (s.entries.rows.filter (fun row => Key.startsWith key row.1)).filter
      (fun row => row.1 = key) = ((s.entries.get? key).map (fun e => (key, e))).toList := by
    rw [List.filter_filter, ← Table.rows_filter_key]
    apply List.filter_congr
    intro row _
    by_cases hkey : row.1 = key
    · simp [hkey, hself]
    · simp [hkey]
  rw [scan_eq_filter, List.filter_map]
  have hkeys : (fun p : Pair => decide (p.key = key)) ∘ toPair =
      fun row : String × Entry => decide (row.1 = key) := rfl
  rw [hkeys, hrows]
  simp only [scan, Bool.false_eq_true, if_false]
  cases s.entries.get? key <;> rfl

end Store

namespace Memory

theorem run_concat (m : Memory) (actions : List (Instant × Action)) (now : Instant) (a : Action) :
    m.run (actions ++ [(now, a)]) = (m.run actions).act now a :=
  List.foldl_append

theorem version_run (limit : Nat) (actions : List (Instant × Action)) {key : String} {e : Entry}
    (h : ((create limit).run actions).store.entries.get? key = some e) :
    0 < e.version ∧ e.version ≤ ((create limit).run actions).store.revision := by
  have hcontents := Store.contents_applyAll (create limit).store ((create limit).runUpdates actions)
  rw [← store_run] at hcontents
  have hbound := Store.get?_contents ((create limit).run actions).store key
  rw [h, hcontents] at hbound
  rcases Contents.get?_after hbound with hnone | ⟨c, hc, hpair⟩
  · cases hnone
  · have hversion : c.version = e.version := congrArg Pair.version hpair
    have hm := coherent_run limit actions
    rw [← hversion, hm.revision_eq, ← Int.zero_add (List.length _ : Int)]
    exact hm.consecutive.lt_version c hc

/-- Listings are exact. On an open backend a query under a prefix answers the entries
whose keys have it and whose deadlines lie ahead, each once and in the order of the bytes
of their keys; their versions are positive and at most that of the answer, which is the
revision after the expiry that the query does first. A query for one key answers what is
listed of that key. A closed backend answers neither, and stays as it is. -/
theorem listings_exact (limit : Nat) (before : List (Instant × Action)) (now : Instant) :
    let m := (create limit).run before
    let expired := m.act now .sweep
    (m.closed = true → ∀ scope, m.get now scope = (.error (.error .closed), m)) ∧
    (m.closed = false → ∀ root, ∃ pairs,
      m.get now ⟨root, true⟩ = (.ok ⟨pairs, expired.store.revision⟩, expired) ∧
      (∀ p, p ∈ pairs ↔ Key.startsWith root p.key = true ∧
        ∃ e, m.store.entries.get? p.key = some e ∧ (∀ d, e.deadline = some d → now < d) ∧
          p = ⟨p.key, e.value, e.version⟩) ∧
      pairs.Pairwise (fun p q => Text.utf8 p.key < Text.utf8 q.key) ∧
      (∀ p ∈ pairs, 0 < p.version ∧ p.version ≤ expired.store.revision) ∧
      m.get now ⟨root, false⟩ =
        (.ok ⟨pairs.filter (fun p => p.key = root), expired.store.revision⟩, expired)) := by
  intro m expired
  have hreached : expired = (create limit).run (before ++ [(now, .sweep)]) :=
    (run_concat _ _ _ _).symm
  refine ⟨fun hclosed scope => ?_, fun hopen root => ?_⟩
  · rw [get, if_pos hclosed]
  · refine ⟨expired.store.scan ⟨root, true⟩, get_eq_of_open hopen now _, fun p => ?_,
      Store.scan_ascending _ _, fun p hp => ?_, ?_⟩
    · simp only [← Entry.isOverdue_eq_false_iff]
      exact Store.mem_scan_expire
    · rw [Store.scan_eq_filter] at hp
      obtain ⟨⟨key, e⟩, hrow, rfl⟩ := List.mem_map.mp hp
      have hentry := Table.get?_eq_some_iff.mpr (List.mem_filter.mp hrow).1
      rw [hreached] at hentry ⊢
      exact version_run limit _ hentry
    · rw [← Store.scan_single]
      exact get_eq_of_open hopen now _

def sampleKeys : List (Instant × Action) := [
  (⟨0⟩, .set "k" "v" .zero), (⟨0⟩, .set "k/é" "w" (.ofMillis 10)), (⟨0⟩, .set "k/z" "w" .zero),
  (⟨0⟩, .set "l" "v" .zero), (⟨0⟩, .set "k/a" "u" (.ofMillis 5))]

/-- Seven milliseconds later one of the four keys with the prefix has lapsed. -/
theorem listings_exact_lapsed :
    let m := (create 8).run sampleKeys
    let now : Instant := ⟨7 * nanosPerMilli⟩
    m.closed = false ∧ ∃ pairs,
      (m.get now ⟨"k", true⟩).1 = .ok ⟨pairs, 6⟩ ∧ pairs.map Pair.key = ["k", "k/z", "k/é"] ∧
        (∀ p ∈ pairs, 0 < p.version ∧ p.version ≤ 6) ∧
        (m.get now ⟨"k", false⟩).1 = .ok ⟨[⟨"k", "v", 1⟩], 6⟩ := by
  intro m now
  obtain ⟨pairs, hget, -, -, hversions, hsingle⟩ :=
    (listings_exact 8 sampleKeys now).2 rfl "k"
  have hpairs : pairs = [⟨"k", "v", 1⟩, ⟨"k/z", "w", 3⟩, ⟨"k/é", "w", 2⟩] :=
    congrArg Listing.pairs (Except.ok.inj (congrArg Prod.fst hget.symm))
  have hrevision : (m.act now .sweep).store.revision = 6 := rfl
  rw [hrevision] at hversions
  refine ⟨rfl, pairs, ?_, ?_, hversions, ?_⟩
  · rw [hget]
    rfl
  · rw [hpairs]
    rfl
  · rw [hsingle, hpairs]
    rfl

/-- A closed backend keeps its entries and lists none. -/
theorem closed_lists_nothing :
    let m := (create 8).run [(⟨0⟩, .set "k" "v" .zero), (⟨0⟩, .close)]
    m.store.entries.get? "k" = some ⟨"v", 1, none⟩ ∧
      m.get ⟨0⟩ ⟨"k", true⟩ = (.error (.error .closed), m) :=
  ⟨rfl, rfl⟩

end Memory

end Rollcall
