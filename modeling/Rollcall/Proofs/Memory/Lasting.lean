import Rollcall.Proofs.Memory.Counters
import Rollcall.Proofs.Memory.Lapsing
import Rollcall.Proofs.Memory.Stopping

/-!
A key that is kept alive. Its renewal sleeps until a timer that fires before the deadline
of its entry, so whatever looks at the entries in between finds it, and the renewal moves
the deadline on from the instant at which it works. That takes an interval shorter than
the time to live, and the interval has a floor (`nextWake_lt`). Main statements:
`Held.act` and `Held.run`.
-/

namespace Rollcall

namespace Store

variable {s : Store} {now : Instant} {key : String} {e : Entry}

theorem remove_mem_of_announced {us : List Update} {c : Change}
    (h : .change c ∈ s.announcedAll us) (hkind : c.kind = .delete) :
    .remove c.pair.key ∈ us := by
  induction us generalizing s with
  | nil => cases h
  | cons u rest ih =>
      rcases List.mem_append.mp h with hfirst | hrest
      · cases u with
        | put key value deadline =>
            obtain rfl := Event.change.inj (List.mem_singleton.mp hfirst)
            cases hkind
        | remove key =>
            simp only [announced] at hfirst
            split at hfirst
            · cases hfirst
            · obtain rfl := Event.change.inj (List.mem_singleton.mp hfirst)
              exact List.mem_cons_self
        | refreshAll => cases List.mem_singleton.mp hfirst
        | _ => cases hfirst
      · exact List.mem_cons_of_mem _ (ih hrest)

theorem mem_scan_of_get? (hentry : s.entries.get? key = some e) {scope : Scope}
    (hcovers : scope.covers key = true) : toPair (key, e) ∈ s.scan scope := by
  obtain ⟨root, wholePrefix⟩ := scope
  cases wholePrefix with
  | true =>
      rw [scan_eq_filter]
      refine List.mem_map_of_mem (List.mem_filter.mpr ⟨Table.get?_eq_some_iff.mp hentry, ?_⟩)
      exact hcovers
  | false =>
      obtain rfl : key = root := of_decide_eq_true hcovers
      simp only [scan, Bool.false_eq_true, if_false, hentry, List.mem_singleton]

end Store

/-- A renewal acts before the deadline, given that it was awake at most since `last`. -/
def Phase.Leads (last deadline : Instant) : Phase → Prop
  | .asleep t => t < deadline
  | .awake => last < deadline

namespace Memory

/-- The timers of the renewals of a key that go on fire when they are due: none lies in the
past, and one that is awake was woken at the last instant. The clock can hold their next
deadlines. -/
def punctual (m : Memory) (key : String) (last now : Instant) : Bool :=
  m.jobs.all fun
    | .renewal r =>
        r.key ≠ key || r.cancelled ||
          (now.after? r.ttl).isSome &&
            match r.phase with
            | .asleep t => decide (now ≤ t)
            | .awake => decide (now = last)
    | .sweeper _ => true

/-- Nobody writes or deletes the key, begins another renewal of it or closes the backend,
and a renewal of it that was told to stop does not work any more. -/
def leaves (m : Memory) (key : String) : Action → Bool
  | .set k _ _ | .keepAlive k _ _ | .delete k | .increment k => k ≠ key
  | .close => false
  | .work i =>
      match m.jobs[i]? with
      | some (.renewal r) => r.key ≠ key || !r.cancelled
      | _ => true
  | _ => true

/-- A renewal of the key that works now sets its timer to the nanosecond. -/
def exact (m : Memory) (key : String) (now : Instant) : Action → Bool
  | .work i =>
      match m.jobs[i]? with
      | some (.renewal r) => r.key ≠ key || nextWake now r.ttl = now.after (renewalInterval r.ttl)
      | _ => true
  | _ => true

def Undisturbed (key : String) : Memory → Instant → List (Instant × Action) → Prop
  | _, _, [] => True
  | m, last, a :: rest =>
      m.punctual key last a.1 = true ∧ m.leaves key a.2 = true ∧
        Undisturbed key (m.act a.1 a.2) a.1 rest

def Exact (key : String) : Memory → List (Instant × Action) → Prop
  | _, [] => True
  | m, a :: rest => m.exact key a.1 a.2 = true ∧ Exact key (m.act a.1 a.2) rest

theorem nextWake_lt {now : Instant} {ttl : Span} (hfloor : minRenewalInterval.nanos < ttl.nanos)
    (hlead : minRenewalInterval.nanos + nanosPerMilli ≤ ttl.nanos ∨
      nextWake now ttl = now.after (renewalInterval ttl)) : nextWake now ttl < now.after ttl := by
  rcases hlead with hmargin | hexact
  · have hwake := Nat.div_mul_le_self
      (now.nanos + max (ttl.nanos / 3) minRenewalInterval.nanos + (nanosPerMilli - 1)) nanosPerMilli
    have hmin : minRenewalInterval.nanos = 10000000 := rfl
    have hmilli : nanosPerMilli = 1000000 := rfl
    show (now.nanos + max (ttl.nanos / 3) minRenewalInterval.nanos + (nanosPerMilli - 1)) /
      nanosPerMilli * nanosPerMilli < now.nanos + ttl.nanos
    omega
  · rw [hexact]
    show now.nanos + max (ttl.nanos / 3) minRenewalInterval.nanos < now.nanos + ttl.nanos
    omega

/-- The key has its value, with a deadline one time to live after the last renewal, and
is renewed before that. -/
structure Held (key value : String) (ttl : Span) (last : Instant) (m : Memory) : Prop where
  isOpen : m.closed = false
  renewals : ∀ r, .renewal r ∈ m.jobs → r.key = key → r.cancelled = false →
    r.value = value ∧ r.ttl = ttl
  entry : ∃ deadline version, m.store.entries.get? key = some ⟨value, version, some deadline⟩ ∧
    ∃ r, .renewal r ∈ m.jobs ∧ r.key = key ∧ r.cancelled = false ∧ r.phase.Leads last deadline

section

variable {m : Memory} {last now : Instant} {a : Action} {key value : String} {ttl : Span}
  {r : Renewal}

/-- What punctual timers say of one renewal of the key that goes on: the clock has room for
its next deadline, and any deadline that it was to act before still lies ahead and still
does. -/
theorem of_punctual (h : m.punctual key last now = true) (hr : .renewal r ∈ m.jobs)
    (hkey : r.key = key) (hcancelled : r.cancelled = false) :
    now.after? r.ttl = some (now.after r.ttl) ∧
      ∀ deadline, r.phase.Leads last deadline → now < deadline ∧ r.phase.Leads now deadline := by
  have hjob := List.all_eq_true.mp h _ hr
  simp only [hkey, hcancelled, ne_eq, not_true_eq_false, decide_false, Bool.or_self,
    Bool.false_or, Bool.and_eq_true] at hjob
  obtain ⟨hclock, hphase⟩ := hjob
  constructor
  · unfold Instant.after? at hclock ⊢
    split at hclock
    · rename_i hfits
      rw [if_pos hfits]
    · cases hclock
  · intro deadline hleads
    cases hr : r.phase with
    | asleep t =>
        rw [hr] at hphase hleads
        exact ⟨Nat.lt_of_le_of_lt (of_decide_eq_true hphase) hleads, hleads⟩
    | awake =>
        rw [hr] at hphase hleads
        obtain rfl := of_decide_eq_true hphase
        exact ⟨hleads, hleads⟩

/-- A renewal that works leaves its value under its key with a new deadline, and goes back
to sleep until its next timer. The version may be old or new: an unchanged value is only
extended. -/
theorem get?_workJob {i : Nat} (hjob : m.jobs[i]? = some (.renewal r)) (hawake : r.phase = .awake)
    {deadline : Option Instant} (hclock : deadline? now r.ttl = .ok deadline) :
    (∃ version, (m.workJob now i).store.entries.get? r.key = some ⟨r.value, version, deadline⟩) ∧
      .renewal { r with phase := .asleep (nextWake now r.ttl) } ∈ (m.workJob now i).jobs := by
  simp only [workJob, hjob, hawake, renewOnce, hclock]
  refine ⟨?_, List.mem_append_right _ (List.mem_singleton_self _)⟩
  simp only [withoutJob, Store.renew]
  cases hentry : m.store.entries.get? r.key with
  | none => exact ⟨_, Table.get?_insert _ _ _ _ |>.trans (if_pos rfl)⟩
  | some e =>
      by_cases hvalue : e.value = r.value
      · refine ⟨e.version, ?_⟩
        simp only [hvalue, if_true, Table.get?_insert]
      · refine ⟨m.store.revision + 1, ?_⟩
        simp only [hvalue, if_false, Store.get?_put, if_true]

/-- An action that leaves the key alone is none of the three kinds that could end its
registration. -/
theorem of_leaves (h : m.leaves key a = true) :
    a ≠ .close ∧ (∀ value, ¬ a.writes key value) ∧ ¬ a.cancels key := by
  cases a <;> simp_all [leaves, Action.writes, Action.cancels]

/-- The renewal that does work was not told to stop, for otherwise it would have heeded
that. -/
theorem not_cancelled_of_leaves {i : Nat} (h : m.leaves key (.work i) = true)
    (hjob : m.jobs[i]? = some (.renewal r)) (hkey : r.key = key) : r.cancelled = false := by
  simpa [leaves, hjob, hkey] using h

namespace Held

/-- The deadline of a key that is held lies ahead at every instant up to the next punctual
one, as its renewal acts before it. -/
theorem now_lt_deadline (h : Held key value ttl last m)
    (hpunctual : m.punctual key last now = true) :
    ∃ deadline version, m.store.entries.get? key = some ⟨value, version, some deadline⟩ ∧
      now < deadline := by
  obtain ⟨deadline, version, hentry, r, hr, hkey, hcancelled, hleads⟩ := h.entry
  exact ⟨deadline, version, hentry, ((of_punctual hpunctual hr hkey hcancelled).2 deadline hleads).1⟩

theorem not_overdue (h : Held key value ttl last m)
    (hpunctual : m.punctual key last now = true) : key ∉ m.store.overdue now := by
  obtain ⟨deadline, version, hentry, hlt⟩ := h.now_lt_deadline hpunctual
  intro hoverdue
  obtain ⟨e, he, hlate⟩ := Store.mem_overdue.mp hoverdue
  obtain rfl := Option.some.inj (hentry.symm.trans he)
  exact absurd (of_decide_eq_true hlate) (Nat.not_le.mpr hlt)

/-- Whatever leaves the key to its renewal, and whatever that does, keeps it held. This is
the step from which the run lemma follows. -/
theorem act (h : Held key value ttl last m) (hpunctual : m.punctual key last now = true)
    (hleaves : m.leaves key a = true) (hpositive : ttl.isZero = false)
    (hlead : (∃ i r, a = .work i ∧ m.jobs[i]? = some (.renewal r) ∧ r.key = key) →
      nextWake now ttl < now.after ttl) : Held key value ttl now (m.act now a) := by
  obtain ⟨hclose, hwrites, hcancels⟩ := of_leaves hleaves
  have hfresh := h.not_overdue hpunctual
  have hdelete : a ≠ .delete key := fun ha => hcancels (ha ▸ rfl)
  refine ⟨isOpen_act h.isOpen hclose now, ?_, ?_⟩
  · intro r hr hkey hcancelled
    rcases renewal_origin hr with ⟨r₀, hr₀, hbecomes⟩ | ⟨-, ha, -, -⟩
    · have hfree : r₀.cancelled = false :=
        Bool.eq_false_iff.mpr (fun htold =>
          absurd (hcancelled.symm.trans (hbecomes.cancelled htold)) Bool.false_ne_true)
      rw [hbecomes.value, hbecomes.ttl]
      exact h.renewals r₀ hr₀ (hbecomes.key ▸ hkey) hfree
    · exact absurd hkey (fun hkey => hcancels (ha ▸ hkey))
  · obtain ⟨deadline, version, hentry, r, hr, rfl, hcancelled, hleads⟩ := h.entry
    have hlater := ((of_punctual hpunctual hr rfl hcancelled).2 deadline hleads).2
    by_cases hworks : ∃ i r₀, a = .work i ∧ m.jobs[i]? = some (.renewal r₀) ∧ r₀.key = r.key
    · obtain ⟨i, r₀, rfl, hjob, hkey⟩ := hworks
      cases hphase : r₀.phase with
      | asleep t =>
          have hsame : m.act now (.work i) = m := workJob_asleep hjob (hphase ▸ Phase.noConfusion)
          rw [hsame]
          exact ⟨deadline, version, hentry, r, hr, rfl, hcancelled, hlater⟩
      | awake =>
          -- The deadline moves on, and the renewal sleeps again.
          have hmem := List.mem_of_getElem? hjob
          have hfree := not_cancelled_of_leaves hleaves hjob hkey
          obtain ⟨hvalue, httl⟩ := h.renewals r₀ hmem hkey hfree
          have hclock : deadline? now r₀.ttl = .ok (some (now.after ttl)) := by
            have hafter := (of_punctual hpunctual hmem hkey hfree).1
            rw [httl] at hafter ⊢
            simp only [deadline?, hpositive, Bool.false_eq_true, if_false, hafter]
          obtain ⟨⟨renewed, hrenewed⟩, hsleeps⟩ := get?_workJob hjob hphase hclock
          rw [hkey, hvalue] at hrenewed
          refine ⟨now.after ttl, renewed, hrenewed, _, hsleeps, hkey, hfree, ?_⟩
          rw [httl]
          exact hlead ⟨i, r₀, rfl, hjob, hkey⟩
    · have hsame := get?_act_of_not_worked hwrites hdelete hfresh
        (fun i r₀ ha hjob hkey => hworks ⟨i, r₀, ha, hjob, hkey⟩)
      have hfree : m.isStopped r = false := by rw [isStopped, h.isOpen, hcancelled]; rfl
      refine ⟨deadline, version, hsame.trans hentry, ?_⟩
      rcases renewal_stays hr hfree hcancels (fun i ha hjob => hworks ⟨i, r, ha, hjob, rfl⟩) with
        hstays | hwoken
      · exact ⟨r, hstays, rfl, hcancelled, hlater⟩
      · have hlt := ((of_punctual hpunctual hr rfl hcancelled).2 deadline hleads).1
        exact ⟨_, hwoken, rfl, hcancelled, hlt⟩

theorem get (h : Held key value ttl last m) (hpunctual : m.punctual key last now = true)
    {scope : Scope} (hcovers : scope.covers key = true) :
    ∃ listing, (m.get now scope).1 = .ok listing ∧
      ∃ p ∈ listing.pairs, p.key = key ∧ p.value = value := by
  obtain ⟨deadline, version, hentry, hlt⟩ := h.now_lt_deadline hpunctual
  have hlive : (m.store.expire now).entries.get? key = some ⟨value, version, some deadline⟩ := by
    have hfresh : Entry.isOverdue now ⟨value, version, some deadline⟩ = false :=
      decide_eq_false (Nat.not_le.mpr hlt)
    rw [Store.get?_expire, hentry, Option.filter_some, hfresh]
    rfl
  rw [get_eq_of_open h.isOpen]
  exact ⟨_, rfl, _, Store.mem_scan_of_get? hlive hcovers, rfl, rfl⟩

theorem not_deleted (h : Held key value ttl last m) (hpunctual : m.punctual key last now = true)
    (hleaves : m.leaves key a = true) {c : Change}
    (hc : .change c ∈ m.store.announcedAll (m.updates now a)) (hkind : c.kind = .delete) :
    c.pair.key ≠ key := by
  intro hkey
  have hremove := Store.remove_mem_of_announced hc hkind
  rw [hkey] at hremove
  rcases remove_mem_updates hremove with rfl | hoverdue
  · exact (of_leaves hleaves).2.2 rfl
  · exact h.not_overdue hpunctual hoverdue

/-- The key is in every listing of a run that covers it, and no deletion of it is told. -/
theorem run {actions : List (Instant × Action)} (h : Held key value ttl last m)
    (hundisturbed : Undisturbed key m last actions) (hfloor : minRenewalInterval.nanos < ttl.nanos)
    (hexact : minRenewalInterval.nanos + nanosPerMilli ≤ ttl.nanos ∨ Exact key m actions) :
    (∀ done t scope rest, actions = done ++ (t, .get scope) :: rest → scope.covers key = true →
      ∃ listing, ((m.run done).get t scope).1 = .ok listing ∧
        ∃ p ∈ listing.pairs, p.key = key ∧ p.value = value) ∧
    ∀ c, .change c ∈ m.log actions → c.kind = .delete → c.pair.key ≠ key := by
  have hpositive : ttl.isZero = false := decide_eq_false (by omega)
  induction actions generalizing m last with
  | nil =>
      refine ⟨fun done t scope rest heq => ?_, fun c hc => by cases hc⟩
      simp at heq
  | cons b later ih =>
      obtain ⟨now, a⟩ := b
      obtain ⟨hpunctual, hleaves, hlater⟩ := hundisturbed
      have hlead (hworks : ∃ i r, a = .work i ∧ m.jobs[i]? = some (.renewal r) ∧ r.key = key) :
          nextWake now ttl < now.after ttl := by
        refine nextWake_lt hfloor ?_
        rcases hexact with hmargin | hexact
        · exact .inl hmargin
        · obtain ⟨i, r, rfl, hjob, hkey⟩ := hworks
          have hfree := not_cancelled_of_leaves hleaves hjob hkey
          have httl := (h.renewals r (List.mem_of_getElem? hjob) hkey hfree).2
          have hnow := hexact.1
          simp only [Memory.exact, hjob, hkey, httl, ne_eq, not_true_eq_false, decide_false,
            Bool.false_or, decide_eq_true_eq] at hnow
          exact .inr hnow
      obtain ⟨hgets, hlog⟩ := ih (h.act hpunctual hleaves hpositive hlead) hlater
        (hexact.imp_right And.right)
      constructor
      · intro done t scope rest heq hcovers
        cases done with
        | nil =>
            obtain ⟨hfirst, -⟩ := List.cons.inj heq
            obtain ⟨rfl, rfl⟩ := Prod.mk.inj hfirst
            exact h.get hpunctual hcovers
        | cons first done =>
            obtain ⟨rfl, hrest⟩ := List.cons.inj heq
            exact hgets done t scope rest hrest hcovers
      · intro c hc hkind
        rw [log, runUpdates, Store.announcedAll_append, ← store_act] at hc
        rcases List.mem_append.mp hc with hfirst | hrest
        · exact h.not_deleted hpunctual hleaves hfirst hkind
        · exact hlog c hrest hkind

end Held

theorem held_renewing {now : Instant} {key value : String} {ttl : Span} {m : Memory}
    (hopen : m.closed = false) (hfloor : minRenewalInterval.nanos < ttl.nanos)
    (hlead : minRenewalInterval.nanos + nanosPerMilli ≤ ttl.nanos ∨
      nextWake now ttl = now.after (renewalInterval ttl)) :
    Held key value ttl now (m.renewing now key value ttl (some (now.after ttl))) where
  isOpen := hopen
  renewals := by
    intro r hr hkey hcancelled
    rcases List.mem_append.mp hr with hold | hnew
    · obtain ⟨_, _, _, _, htold, _⟩ := mem_cancelled hold
      exact absurd (hcancelled.symm.trans (htold hkey)) Bool.false_ne_true
    · obtain rfl := MemoryJob.renewal.inj (List.mem_singleton.mp hnew)
      exact ⟨rfl, rfl⟩
  entry := by
    refine ⟨now.after ttl, (m.store.expire now).revision + 1, ?_, _,
      List.mem_append_right _ (List.mem_singleton_self _), rfl, rfl, nextWake_lt hfloor hlead⟩
    rw [renewing, Store.get?_put, if_pos rfl]

end

end Memory

end Rollcall
