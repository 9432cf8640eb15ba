import Rollcall.Proofs.Replacing
import Rollcall.Proofs.Memory.Schedule

/-!
What one action does to the value of a key and to the renewals. Every update that an
action amounts to has one of few origins; so a value is left alone, removed, written by
a caller or written again by a renewal of its key. A renewal goes on from one that was
there, whose place can be told (`moved`), or is a new one. Main statements: `origin`,
`value_act`, `renewal_moved` and `renewal_survives`.
-/

namespace Rollcall

namespace Store

def value? (s : Store) (key : String) : Option String := (s.entries.get? key).map Entry.value

variable {s : Store} {key : String}

theorem value?_put (s : Store) (key value : String) (deadline : Option Instant) :
    (s.put key value deadline).value? key = some value := by
  simp only [value?, put, publish, Table.get?_insert, if_true, Option.map_some]

theorem value?_remove (s : Store) (key : String) : (s.remove key).value? key = none := by
  unfold remove
  cases hentry : s.entries.get? key with
  | none => simp only [value?, hentry, Option.map_none]
  | some e => simp only [value?, publish, Table.get?_erase, if_true, Option.map_none]

theorem value?_put_of_ne {other : String} (hne : other ≠ key) (value : String)
    (deadline : Option Instant) : (s.put key value deadline).value? other = s.value? other := by
  simp only [value?, put, publish, Table.get?_insert, if_neg hne]

theorem value?_remove_of_ne {other : String} (hne : other ≠ key) :
    (s.remove key).value? other = s.value? other := by
  unfold remove
  cases s.entries.get? key with
  | none => rfl
  | some e => simp only [value?, publish, Table.get?_erase, if_neg hne]

/-- One update leaves the value of a key as it was, removes it, or puts another one there. A
moved deadline is an update that leaves the value. -/
theorem value?_apply (s : Store) (u : Update) (key : String) :
    (s.apply u).value? key = s.value? key ∨
      u = .remove key ∧ (s.apply u).value? key = none ∨
      ∃ value deadline, u = .put key value deadline ∧ (s.apply u).value? key = some value := by
  cases u with
  | put other value deadline =>
      by_cases hkey : key = other
      · subst hkey
        exact .inr (.inr ⟨value, deadline, rfl, value?_put s key value deadline⟩)
      · exact .inl (value?_put_of_ne hkey value deadline)
  | remove other =>
      by_cases hkey : key = other
      · subst hkey
        exact .inr (.inl ⟨rfl, value?_remove s key⟩)
      · exact .inl (value?_remove_of_ne hkey)
  | extend other deadline =>
      left
      simp only [apply, extend]
      cases hentry : s.entries.get? other with
      | none => rfl
      | some e =>
          by_cases hkey : key = other
          · subst hkey
            simp only [value?, Table.get?_insert, if_true, hentry, Option.map_some]
          · simp only [value?, Table.get?_insert, if_neg hkey]
  | compact revision => exact .inl rfl
  | refreshAll => exact .inl rfl
  | watch scope version => exact .inl rfl
  | receive id => exact .inl rfl
  | drain id => exact .inl rfl
  | dropWatch id => exact .inl rfl
  | closeAll => exact .inl rfl

theorem value?_applyAll (s : Store) (us : List Update) (key : String) :
    (s.applyAll us).value? key = s.value? key ∨
      .remove key ∈ us ∧ (s.applyAll us).value? key = none ∨
      ∃ value deadline, .put key value deadline ∈ us ∧
        (s.applyAll us).value? key = some value := by
  induction us generalizing s with
  | nil => exact .inl rfl
  | cons u rest ih =>
      rw [applyAll_cons]
      rcases ih (s.apply u) with hsame | ⟨hmem, hnone⟩ | ⟨value, deadline, hmem, hvalue⟩
      · rw [hsame]
        rcases value?_apply s u key with hfirst | ⟨rfl, hnone⟩ | ⟨value, deadline, rfl, hvalue⟩
        · exact .inl hfirst
        · exact .inr (.inl ⟨List.mem_cons_self, hnone⟩)
        · exact .inr (.inr ⟨value, deadline, List.mem_cons_self, hvalue⟩)
      · exact .inr (.inl ⟨List.mem_cons_of_mem _ hmem, hnone⟩)
      · exact .inr (.inr ⟨value, deadline, List.mem_cons_of_mem _ hmem, hvalue⟩)

def Update.touches (key : String) : Update → Prop
  | .put k _ _ | .remove k | .extend k _ => k = key
  | _ => False

/-- A renewal that finds its value extends the deadline, and otherwise puts the value again,
whatever else stands there. -/
theorem renewal_cases (s : Store) (key value : String) (deadline : Option Instant) :
    s.renewal key value deadline = .extend key deadline ∨
      s.renewal key value deadline = .put key value deadline := by
  unfold renewal
  split
  · split
    · exact .inl rfl
    · exact .inr rfl
  · exact .inr rfl

/-- The keys that an expiry takes are those of entries whose deadline has come. -/
theorem mem_overdue {now : Instant} :
    key ∈ s.overdue now ↔ ∃ e, s.entries.get? key = some e ∧ e.isOverdue now = true := by
  simp only [overdue, Table.keys, Table.filter, List.mem_map, List.mem_filter, Prod.exists,
    Table.get?_eq_some_iff]
  constructor
  · rintro ⟨k, e, ⟨hrow, hoverdue⟩, rfl⟩
    exact ⟨e, hrow, hoverdue⟩
  · rintro ⟨e, hrow, hoverdue⟩
    exact ⟨key, e, ⟨hrow, hoverdue⟩, rfl⟩

theorem put_not_mem_expiries {now : Instant} {value : String} {deadline : Option Instant} :
    .put key value deadline ∉ s.expiries now := by
  simp only [expiries, List.mem_map, reduceCtorEq, and_false, exists_false, not_false_iff]

end Store

/-- A renewal of the same registration, at a later time. -/
structure Renewal.Continues (r r' : Renewal) : Prop where
  key : r'.key = r.key
  value : r'.value = r.value
  ttl : r'.ttl = r.ttl
  cancelled : r.cancelled = true → r'.cancelled = true

theorem Renewal.Continues.refl (r : Renewal) : r.Continues r := ⟨rfl, rfl, rfl, id⟩

namespace Memory

/-- A caller's action that gives a key a value. -/
def Action.writes (key value : String) : Action → Prop
  | .set k v _ | .keepAlive k v _ => k = key ∧ v = value
  | .increment k => k = key
  | _ => False

/-- A caller's action that tells the renewals of a key to stop. -/
def Action.cancels (key : String) : Action → Prop
  | .delete k | .keepAlive k _ _ => k = key
  | _ => False

structure Becomes (m : Memory) (a : Action) (r r' : Renewal) : Prop extends r.Continues r' where
  awake : r'.phase = .awake →
    r.phase = .awake ∨ ∃ i, a = .wake i ∧ m.jobs[i]? = some (.renewal r)
  told : r'.cancelled = true → r.cancelled = true ∨ a.cancels r.key

def isStopped (m : Memory) (r : Renewal) : Bool := m.closed || r.cancelled

section Values

variable {m : Memory} {now : Instant} {a : Action} {u : Store.Update} {key value : String}

/-- Where an update comes from that an action amounts to: an expiry takes what is overdue,
a caller writes, counts or deletes, a renewal renews. The others leave all entries
aside. -/
inductive Origin (m : Memory) (now : Instant) (a : Action) (u : Store.Update) : Prop where
  | expired {key : String} (hlate : key ∈ m.store.overdue now) (hu : u = .remove key)
  | written {key value : String} {ttl : Span} {deadline : Option Instant}
      (hopen : m.closed = false) (ha : a = .set key value ttl ∨ a = .keepAlive key value ttl)
      (hclock : deadline? now ttl = .ok deadline) (hu : u = .put key value deadline)
  | counted {key : String} {n : Int} (hopen : m.closed = false) (ha : a = .increment key)
      (hcount : counter m.store key = .ok n)
      (hu : u = .put key (Decimal.showInt (n + 1)) none)
  | deleted {key : String} (hopen : m.closed = false) (ha : a = .delete key)
      (hu : u = .remove key)
  | renewed {i : Nat} {r : Renewal} {deadline : Option Instant} (ha : a = .work i)
      (hjob : m.jobs[i]? = some (.renewal r)) (hawake : r.phase = .awake)
      (hclock : deadline? now r.ttl = .ok deadline)
      (hu : u = m.store.renewal r.key r.value deadline)
  | aside (hu : ∀ key, ¬ u.touches key)

/-- Every elementary update of an action has one of the listed origins. What follows splits
on the origin, and no longer on the actions. -/
theorem origin (h : u ∈ m.updates now a) : Origin m now a u := by
  have hexpiry (hmem : u ∈ m.store.expiries now) : Origin m now a u := by
    obtain ⟨key, hlate, rfl⟩ := List.mem_map.mp hmem
    exact .expired hlate rfl
  have hopen {us : List Store.Update} (hmem : u ∈ if m.closed then [] else us) :
      m.closed = false ∧ u ∈ us := by
    split at hmem
    · cases hmem
    · rename_i hclosed
      exact ⟨Bool.eq_false_iff.mpr hclosed, hmem⟩
  have hwrite {key value : String} {ttl : Span}
      (ha : a = .set key value ttl ∨ a = .keepAlive key value ttl)
      (hmem : u ∈ if m.closed then [] else m.writeUpdates now key value ttl) :
      Origin m now a u := by
    obtain ⟨hopen, hmem⟩ := hopen hmem
    rcases List.mem_append.mp hmem with hexpiring | hput
    · exact hexpiry hexpiring
    · split at hput
      · cases hput
      · rename_i deadline hclock
        exact .written hopen ha hclock (List.mem_singleton.mp hput)
  have hone {v : Store.Update} (hmem : u ∈ [v]) (hv : ∀ key, ¬ v.touches key) :
      Origin m now a u := .aside (List.mem_singleton.mp hmem ▸ hv)
  cases a with
  | set key value ttl => exact hwrite (.inl rfl) h
  | keepAlive key value ttl => exact hwrite (.inr rfl) h
  | get scope => exact hexpiry (hopen h).2
  | sweep => exact hexpiry h
  | watch scope version =>
      rcases List.mem_append.mp (hopen h).2 with hexpiring | hwatch
      · exact hexpiry hexpiring
      · exact hone hwatch (fun _ => not_false)
  | increment key =>
      obtain ⟨hopen, hmem⟩ := hopen h
      simp only [openUpdates] at hmem
      split at hmem
      · cases hmem
      · rename_i n hcount
        split at hmem
        · exact .counted hopen rfl hcount (List.mem_singleton.mp hmem)
        · cases hmem
  | delete key =>
      obtain ⟨hopen, hmem⟩ := hopen h
      exact .deleted hopen rfl (List.mem_singleton.mp hmem)
  | work i =>
      simp only [updates, workUpdates] at h
      split at h
      · rename_i r hjob
        split at h
        · rename_i deadline hawake hclock
          exact .renewed rfl hjob hawake hclock (List.mem_singleton.mp h)
        · cases h
      · split at h
        · exact hexpiry h
        · cases h
      · cases h
  | close => exact hone (hopen h).2 (fun _ => not_false)
  | receive id | drain id | dropWatch id | compact revision | refreshAll =>
      exact hone h (fun _ => not_false)
  | addSweeper interval | wake i | stop i => cases (hopen h).2

/-- A key is given a value by a caller, while the backend is open, or by a renewal. -/
theorem put_mem_updates {deadline : Option Instant}
    (h : .put key value deadline ∈ m.updates now a) :
    m.closed = false ∧ a.writes key value ∨
      ∃ i r, a = .work i ∧ m.jobs[i]? = some (.renewal r) ∧ r.phase = .awake ∧ r.key = key ∧
        r.value = value := by
  cases origin h with
  | written hopen ha _ hu =>
      obtain ⟨rfl, rfl, -⟩ := Store.Update.put.inj hu
      rcases ha with rfl | rfl <;> exact .inl ⟨hopen, rfl, rfl⟩
  | counted hopen ha _ hu =>
      obtain ⟨rfl, -⟩ := Store.Update.put.inj hu
      exact .inl ⟨hopen, ha ▸ rfl⟩
  | renewed ha hjob hawake _ hu =>
      rcases m.store.renewal_cases _ _ _ with hextend | hput
      · cases hu.trans hextend
      · obtain ⟨rfl, rfl, -⟩ := Store.Update.put.inj (hu.trans hput)
        exact .inr ⟨_, _, ha, hjob, hawake, rfl, rfl⟩
  | expired _ hu | deleted _ _ hu => cases hu
  | aside hu => exact absurd rfl (hu key)

theorem remove_mem_updates (h : .remove key ∈ m.updates now a) :
    a = .delete key ∨ key ∈ m.store.overdue now := by
  cases origin h with
  | expired hlate hu =>
      obtain rfl := Store.Update.remove.inj hu
      exact .inr hlate
  | deleted _ ha hu =>
      obtain rfl := Store.Update.remove.inj hu
      exact .inl ha
  | renewed _ _ _ _ hu =>
      rcases m.store.renewal_cases _ _ _ with hextend | hput
      · cases hu.trans hextend
      · cases hu.trans hput
  | written _ _ _ hu | counted _ _ _ hu => cases hu
  | aside hu => exact absurd rfl (hu key)

/-- What becomes of the value of a key: it stays, is removed by a deletion or an expiry, is
written by a caller, or is put again by a renewal that is awake. -/
theorem value_act (m : Memory) (now : Instant) (a : Action) (key : String) :
    (m.act now a).store.value? key = m.store.value? key ∨
      (a = .delete key ∨ key ∈ m.store.overdue now) ∧ (m.act now a).store.value? key = none ∨
      (∃ value, m.closed = false ∧ a.writes key value ∧
        (m.act now a).store.value? key = some value) ∨
      ∃ i r, a = .work i ∧ m.jobs[i]? = some (.renewal r) ∧ r.phase = .awake ∧ r.key = key ∧
        (m.act now a).store.value? key = some r.value := by
  rw [store_act]
  rcases Store.value?_applyAll m.store (m.updates now a) key with
    hsame | ⟨hmem, hnone⟩ | ⟨value, deadline, hmem, hvalue⟩
  · exact .inl hsame
  · exact .inr (.inl ⟨remove_mem_updates hmem, hnone⟩)
  · rcases put_mem_updates hmem with ⟨hopen, hwrites⟩ | ⟨i, r, ha, hjob, hphase, hkey, rfl⟩
    · exact .inr (.inr (.inl ⟨value, hopen, hwrites, hvalue⟩))
    · exact .inr (.inr (.inr ⟨i, r, ha, hjob, hphase, hkey, hvalue⟩))

end Values

section Jobs

variable {m : Memory} {now : Instant} {a : Action} {r : Renewal}

/-- After a key is cancelled the same renewals stand at the same places. Those of the key
are told to stop, the others are unchanged, and none is woken or put to sleep. -/
theorem getElem?_cancelled {key : String} {jobs : List MemoryJob} {j : Nat}
    (h : (jobs.map (cancelRenewal key))[j]? = some (.renewal r)) :
    ∃ r₀, jobs[j]? = some (.renewal r₀) ∧ r₀.Continues r ∧ r.phase = r₀.phase ∧
      (r.key = key → r.cancelled = true) ∧ (r.key ≠ key → r = r₀) := by
  rw [List.getElem?_map] at h
  obtain ⟨job, hjob, heq⟩ := Option.map_eq_some_iff.mp h
  cases job with
  | sweeper w => cases heq
  | renewal r₀ =>
      obtain rfl := MemoryJob.renewal.inj heq
      refine ⟨r₀, hjob, ?_⟩
      split
      · rename_i hkey
        exact ⟨⟨rfl, rfl, rfl, fun _ => rfl⟩, rfl, fun _ => rfl, fun hne => absurd hkey hne⟩
      · rename_i hother
        exact ⟨.refl r₀, rfl, fun hkey => absurd hkey hother, fun _ => rfl⟩

theorem mem_cancelled {key : String} {jobs : List MemoryJob}
    (h : .renewal r ∈ jobs.map (cancelRenewal key)) :
    ∃ r₀, .renewal r₀ ∈ jobs ∧ r₀.Continues r ∧ r.phase = r₀.phase ∧
      (r.key = key → r.cancelled = true) ∧ (r.key ≠ key → r = r₀) := by
  obtain ⟨j, hj⟩ := List.mem_iff_getElem?.mp h
  obtain ⟨r₀, hr₀, hbecomes⟩ := getElem?_cancelled hj
  exact ⟨r₀, List.mem_of_getElem? hr₀, hbecomes⟩

/-- On an open backend a deletion removes the entry and tells every renewal of the key to
stop, in one action. -/
theorem act_delete (hopen : m.closed = false) (key : String) :
    m.act now (.delete key) =
      { m with store := m.store.remove key, jobs := m.jobs.map (cancelRenewal key) } := by
  simp only [act, delete, hopen, Bool.false_eq_true, if_false]

def Action.movesJobs : Action → Bool
  | .delete _ | .keepAlive _ _ _ | .addSweeper _ | .wake _ | .work _ | .stop _ => true
  | _ => false

/-- The calls that read, write or count, and the channels, have no effect on the jobs. -/
theorem jobs_act (ha : a.movesJobs = false) : (m.act now a).jobs = m.jobs := by
  cases a with
  | set key value ttl =>
      simp only [act, set]
      split
      · rfl
      · split <;> rfl
  | get scope =>
      simp only [act, get]
      split <;> rfl
  | increment key =>
      simp only [act, increment]
      split
      · rfl
      · split
        · rfl
        · split <;> rfl
  | watch scope version =>
      simp only [act, watch]
      split <;> rfl
  | close =>
      simp only [act, close]
      split <;> rfl
  | receive id => rfl
  | drain id => rfl
  | dropWatch id => rfl
  | sweep => rfl
  | compact revision => rfl
  | refreshAll => rfl
  | _ => cases ha

/-- What a registration leaves that writes its value and takes over from those
before it. -/
def renewing (m : Memory) (now : Instant) (key value : String) (ttl : Span)
    (deadline : Option Instant) : Memory :=
  { m with
    store := (m.store.expire now).put key value deadline
    jobs := m.jobs.map (cancelRenewal key) ++
      [.renewal ⟨key, value, ttl, .asleep (nextWake now ttl), false⟩] }

theorem keepAlive_cases (m : Memory) (now : Instant) (key value : String) (ttl : Span) :
    (∃ failure m', m.keepAlive now key value ttl = (.error failure, m') ∧
      (m' = m ∨ m' = m.act now .sweep)) ∨
    ∃ deadline, m.closed = false ∧
      m.keepAlive now key value ttl = (.ok (), m.renewing now key value ttl deadline) := by
  obtain ⟨store, closed, jobs⟩ := m
  cases closed with
  | true => exact .inl ⟨_, _, rfl, .inl rfl⟩
  | false =>
      simp only [keepAlive, set, Bool.false_eq_true, if_false]
      cases deadline? now ttl with
      | error failure => exact .inl ⟨failure, _, rfl, .inr rfl⟩
      | ok deadline => exact .inr ⟨deadline, trivial, rfl⟩

theorem Becomes.refl (m : Memory) (a : Action) (r : Renewal) : Becomes m a r r :=
  ⟨.refl r, .inl, .inl⟩

/-- The place from which an action takes a job. A job that works is put last again; a job
that is told to stop, or whose deadline is beyond the clock, is gone. -/
def takenOff? (m : Memory) (now : Instant) : Action → Option Nat
  | .work i =>
      match m.jobs[i]? with
      | some (.renewal r) => if r.phase = .awake then some i else none
      | some (.sweeper w) => if w.next ≤ now then some i else none
      | none => none
  | .stop i => if (m.stopJob i).jobs.length < m.jobs.length then some i else none
  | _ => none

/-- Where the job at a place stands after an action, if it goes on. Jobs have no names, and
two registrations may be alike in all they hold; their places tell their renewals apart. -/
def moved (m : Memory) (now : Instant) (a : Action) (i : Nat) : Option Nat :=
  if i < m.jobs.length then
    match m.takenOff? now a with
    | none => some i
    | some taken =>
        if i < taken then some i
        else if taken < i then some (i - 1)
        else if (m.act now a).jobs.length = m.jobs.length then some (m.jobs.length - 1)
        else none
  else none

/-- Where the job at a place stands after a run. -/
def place (m : Memory) : List (Instant × Action) → Nat → Option Nat
  | [], i => some i
  | a :: rest, i => (m.moved a.1 a.2 i).bind ((m.act a.1 a.2).place rest)

theorem moved_of_stays (hstays : m.takenOff? now a = none) {i j : Nat} :
    m.moved now a i = some j ↔ i = j ∧ j < m.jobs.length := by
  simp only [moved, hstays, Option.ite_none_right_eq_some, Option.some.injEq]
  omega

/-- Where a job is taken off, those before it keep their places and those behind it move up
by one. The job itself comes to the last place if it was put there again, that is, if there
are as many jobs as before. -/
theorem moved_of_takenOff {taken : Nat} (htaken : m.takenOff? now a = some taken) {i j : Nat} :
    m.moved now a i = some j ↔ i < m.jobs.length ∧
      (i < taken ∧ i = j ∨ taken < i ∧ i = j + 1 ∨
        i = taken ∧ (m.act now a).jobs.length = m.jobs.length ∧ j + 1 = m.jobs.length) := by
  simp only [moved, htaken, Option.ite_none_right_eq_some]
  refine and_congr_right fun hi => ?_
  split
  · simp only [Option.some.injEq]
    omega
  · split
    · simp only [Option.some.injEq]
      omega
    · simp only [Option.ite_none_right_eq_some, Option.some.injEq]
      omega

/-- No two jobs come to one place. So a renewal is followed through a run by its place, also
where another one has the same key, value and time to live. -/
theorem moved_injective {i i' j : Nat} (h : m.moved now a i = some j)
    (h' : m.moved now a i' = some j) : i = i' := by
  cases htaken : m.takenOff? now a with
  | none =>
      rw [moved_of_stays htaken] at h h'
      omega
  | some taken =>
      rw [moved_of_takenOff htaken] at h h'
      omega

/-- The renewal at a place after an action is what became of the one that moved there. -/
def CameTo (m : Memory) (now : Instant) (a : Action) (j : Nat) (r : Renewal) : Prop :=
  ∃ i r₀, m.jobs[i]? = some (.renewal r₀) ∧ m.moved now a i = some j ∧ Becomes m a r₀ r

/-- A renewal that stays at its place, and that the action only changes as it may, came
there from that place. -/
theorem cameTo_of_stays (hstays : m.takenOff? now a = none) {j : Nat} {r₀ : Renewal}
    (h : m.jobs[j]? = some (.renewal r₀)) (hbecomes : Becomes m a r₀ r) : CameTo m now a j r := by
  have hj := (List.getElem?_eq_some_iff.mp h).1
  exact ⟨j, r₀, h, (moved_of_stays hstays).mpr ⟨rfl, hj⟩, hbecomes⟩

theorem cameTo_of_cancelled {key : String} (hstays : m.takenOff? now a = none)
    (ha : a.cancels key) {j : Nat} (h : (m.jobs.map (cancelRenewal key))[j]? = some (.renewal r)) :
    CameTo m now a j r := by
  obtain ⟨r₀, hr₀, hcontinues, hphase, -, hother⟩ := getElem?_cancelled h
  refine cameTo_of_stays hstays hr₀
    ⟨hcontinues, fun hawake => .inl (hphase ▸ hawake), fun htold => ?_⟩
  by_cases hkey : r.key = key
  · right
    rw [← hcontinues.key, hkey]
    exact ha
  · exact .inl (hother hkey ▸ htold)

/-- The timer that fires changes the phase of one job, at its place. -/
theorem cameTo_of_wakeJob {i j : Nat} (h : (m.wakeJob now i).jobs[j]? = some (.renewal r)) :
    CameTo m now (.wake i) j r := by
  have hsame (hjob : m.jobs[j]? = some (.renewal r)) : CameTo m now (.wake i) j r :=
    cameTo_of_stays rfl hjob (.refl m _ r)
  unfold wakeJob at h
  split at h
  · rename_i r₀ hjob
    split at h
    · obtain ⟨rfl, hwoken⟩ | ⟨-, hrest⟩ := getElem?_set_cases h
      · obtain rfl := MemoryJob.renewal.inj hwoken
        exact cameTo_of_stays rfl hjob ⟨⟨rfl, rfl, rfl, id⟩, fun _ => .inr ⟨j, rfl, hjob⟩, .inl⟩
      · exact hsame hrest
    · exact hsame h
  · exact hsame h

theorem cameTo_of_eraseIdx {taken j : Nat} (htaken : m.takenOff? now a = some taken)
    (h : (m.jobs.eraseIdx taken)[j]? = some (.renewal r)) : CameTo m now a j r := by
  rw [List.getElem?_eraseIdx] at h
  split at h
  · have hj := (List.getElem?_eq_some_iff.mp h).1
    exact ⟨j, r, h, (moved_of_takenOff htaken).mpr ⟨hj, by omega⟩, .refl m a r⟩
  · have hj := (List.getElem?_eq_some_iff.mp h).1
    exact ⟨j + 1, r, h, (moved_of_takenOff htaken).mpr ⟨hj, by omega⟩, .refl m a r⟩

/-- A renewal that works is taken off and put last, asleep until its next timer, or is gone
if the clock has no room for the deadline; a sweeper that is due is put last too. So the
case that matters is a job behind the one that works. -/
theorem cameTo_of_workJob {i j : Nat} (h : (m.workJob now i).jobs[j]? = some (.renewal r)) :
    CameTo m now (.work i) j r := by
  have hsame (hstays : m.takenOff? now (.work i) = none) (hjob : m.jobs[j]? = some (.renewal r)) :
      CameTo m now (.work i) j r := cameTo_of_stays hstays hjob (.refl m _ r)
  cases hjob : m.jobs[i]? with
  | none =>
      simp only [workJob, hjob] at h
      exact hsame (by simp only [takenOff?, hjob]) h
  | some job =>
      have hi := (List.getElem?_eq_some_iff.mp hjob).1
      have herased : (m.jobs.eraseIdx i).length + 1 = m.jobs.length := by
        rw [List.length_eraseIdx_of_lt hi]
        omega
      cases job with
      | sweeper w =>
          by_cases hdue : w.next ≤ now
          · have htaken : m.takenOff? now (.work i) = some i := by
              simp only [takenOff?, hjob, if_pos hdue]
            simp only [workJob, hjob, if_pos hdue, sweepOnce, withoutJob] at h
            rw [List.getElem?_append] at h
            split at h
            · exact cameTo_of_eraseIdx htaken h
            · cases List.mem_singleton.mp (List.mem_of_getElem? h)
          · simp only [workJob, hjob, if_neg hdue] at h
            exact hsame (by simp only [takenOff?, hjob, if_neg hdue]) h
      | renewal r₀ =>
          cases hphase : r₀.phase with
          | asleep t =>
              simp only [workJob, hjob, hphase] at h
              exact hsame (by simp only [takenOff?, hjob, hphase, reduceCtorEq, if_false]) h
          | awake =>
              have htaken : m.takenOff? now (.work i) = some i := by
                simp only [takenOff?, hjob, hphase, if_true]
              cases hclock : deadline? now r₀.ttl with
              | error failure =>
                  simp only [workJob, hjob, hphase, renewOnce, hclock, withoutJob] at h
                  exact cameTo_of_eraseIdx htaken h
              | ok deadline =>
                  have hjobs : (m.act now (.work i)).jobs = m.jobs.eraseIdx i ++
                      [.renewal { r₀ with phase := .asleep (nextWake now r₀.ttl) }] := by
                    simp only [act, workJob, hjob, hphase, renewOnce, hclock, withoutJob]
                  have hlength : (m.act now (.work i)).jobs.length = m.jobs.length := by
                    rw [hjobs, List.length_append, List.length_singleton, herased]
                  change (m.act now (.work i)).jobs[j]? = _ at h
                  rw [hjobs, List.getElem?_append] at h
                  split at h
                  · exact cameTo_of_eraseIdx htaken h
                  · have hlast := (List.getElem?_eq_some_iff.mp h).1
                    rw [List.length_singleton] at hlast
                    obtain rfl :=
                      MemoryJob.renewal.inj (List.mem_singleton.mp (List.mem_of_getElem? h))
                    exact ⟨i, r₀, hjob, (moved_of_takenOff htaken).mpr ⟨hi, by omega⟩,
                      ⟨rfl, rfl, rfl, id⟩, (by rintro ⟨⟩), .inl⟩

theorem cameTo_of_stopJob {i j : Nat} (h : (m.stopJob i).jobs[j]? = some (.renewal r)) :
    CameTo m now (.stop i) j r := by
  have hcases : (m.stopJob i).jobs = m.jobs ∨
      i < m.jobs.length ∧ (m.stopJob i).jobs = m.jobs.eraseIdx i := by
    unfold stopJob
    split
    · rename_i hjob
      have hi := (List.getElem?_eq_some_iff.mp hjob).1
      split
      · exact .inl rfl
      · split
        · exact .inr ⟨hi, rfl⟩
        · exact .inl rfl
    · rename_i hjob
      have hi := (List.getElem?_eq_some_iff.mp hjob).1
      split
      · exact .inr ⟨hi, rfl⟩
      · exact .inl rfl
    · exact .inl rfl
  rcases hcases with hsame | ⟨hi, herased⟩
  · have hstays : m.takenOff? now (.stop i) = none := by
      rw [takenOff?, hsame, if_neg (Nat.lt_irrefl _)]
    rw [hsame] at h
    exact cameTo_of_stays hstays h (.refl m _ r)
  · have htaken : m.takenOff? now (.stop i) = some i := by
      rw [takenOff?, herased, List.length_eraseIdx_of_lt hi, if_pos (by omega)]
    rw [herased] at h
    exact cameTo_of_eraseIdx htaken h

/-- The renewal at a place after an action came there from the place of a renewal before it, or
was begun by the action, sleeps, and stands where nothing came to. -/
theorem renewal_moved {j : Nat} (h : (m.act now a).jobs[j]? = some (.renewal r)) :
    CameTo m now a j r ∨
      (m.closed = false ∧ a = .keepAlive r.key r.value r.ttl ∧ r.phase ≠ .awake ∧
        r.cancelled = false) ∧ ∀ i, m.moved now a i ≠ some j := by
  have hsame (hstays : m.takenOff? now a = none) (hjob : m.jobs[j]? = some (.renewal r)) :
      CameTo m now a j r := cameTo_of_stays hstays hjob (.refl m a r)
  cases hmoves : a.movesJobs with
  | false =>
      rw [jobs_act hmoves] at h
      refine .inl (hsame ?_ h)
      cases a <;> first | rfl | cases hmoves
  | true =>
      cases a with
      | keepAlive key value ttl =>
          rcases keepAlive_cases m now key value ttl with ⟨_, m', hcall, hm'⟩ | ⟨_, hopen, hcall⟩
          · simp only [act, hcall] at h
            rcases hm' with rfl | rfl <;> exact .inl (hsame rfl h)
          · simp only [act, hcall, renewing] at h
            rw [List.getElem?_append] at h
            split at h
            · exact .inl (cameTo_of_cancelled (a := .keepAlive key value ttl) rfl rfl h)
            · rename_i hnew
              obtain rfl := MemoryJob.renewal.inj (List.mem_singleton.mp (List.mem_of_getElem? h))
              refine .inr ⟨⟨hopen, rfl, Phase.noConfusion, rfl⟩, fun i hi => hnew ?_⟩
              rw [List.length_map]
              exact ((moved_of_stays rfl).mp hi).2
      | delete key =>
          simp only [act, delete] at h
          split at h
          · exact .inl (hsame rfl h)
          · exact .inl (cameTo_of_cancelled (a := .delete key) rfl rfl h)
      | addSweeper interval =>
          simp only [act, addSweeper] at h
          split at h
          · exact .inl (hsame rfl h)
          · rw [List.getElem?_append] at h
            split at h
            · exact .inl (hsame rfl h)
            · cases List.mem_singleton.mp (List.mem_of_getElem? h)
      | wake i => exact .inl (cameTo_of_wakeJob h)
      | work i => exact .inl (cameTo_of_workJob h)
      | stop i => exact .inl (cameTo_of_stopJob h)
      | _ => cases hmoves

/-- A renewal is what became of one that was there, or was begun by the action and
sleeps. -/
theorem renewal_origin (h : .renewal r ∈ (m.act now a).jobs) :
    (∃ r₀, .renewal r₀ ∈ m.jobs ∧ Becomes m a r₀ r) ∨
      m.closed = false ∧ a = .keepAlive r.key r.value r.ttl ∧ r.phase ≠ .awake ∧
        r.cancelled = false := by
  obtain ⟨j, hj⟩ := List.mem_iff_getElem?.mp h
  rcases renewal_moved hj with ⟨i, r₀, hr₀, -, hbecomes⟩ | ⟨hbegun, -⟩
  · exact .inl ⟨r₀, List.mem_of_getElem? hr₀, hbecomes⟩
  · exact .inr hbegun

/-- A job at another place is still there when one is taken off. -/
theorem mem_eraseIdx_of_ne {jobs : List MemoryJob} {job : MemoryJob} {i j : Nat} (hne : j ≠ i)
    (h : jobs[j]? = some job) : job ∈ jobs.eraseIdx i :=
  List.mem_eraseIdx_iff_getElem?.mpr ⟨j, hne, h⟩

def GoesOn (m : Memory) (r : Renewal) : Prop :=
  ∃ r', .renewal r' ∈ m.jobs ∧ r.Continues r' ∧ r'.cancelled = false

theorem goesOn_of_mem (h : .renewal r ∈ m.jobs) (hcancelled : r.cancelled = false) :
    m.GoesOn r := ⟨r, h, .refl r, hcancelled⟩

/-- A renewal that was not told to stop and has worked goes on, as long as the clock has
room for its deadline. -/
theorem goesOn_workJob {i : Nat} (hjob : m.jobs[i]? = some (.renewal r))
    (hcancelled : r.cancelled = false) {deadline : Option Instant}
    (hclock : deadline? now r.ttl = .ok deadline) : (m.workJob now i).GoesOn r := by
  cases hphase : r.phase with
  | asleep t =>
      simp only [workJob, hjob, hphase]
      exact goesOn_of_mem (List.mem_of_getElem? hjob) hcancelled
  | awake =>
      simp only [workJob, hjob, hphase, renewOnce, hclock]
      exact ⟨_, List.mem_append_right _ (List.mem_singleton_self _), ⟨rfl, rfl, rfl, id⟩,
        hcancelled⟩

/-- Whichever timer fires, a renewal is still there, asleep as before or awake. -/
theorem mem_wakeJob (h : .renewal r ∈ m.jobs) (i : Nat) :
    .renewal r ∈ (m.wakeJob now i).jobs ∨
      .renewal { r with phase := .awake } ∈ (m.wakeJob now i).jobs := by
  obtain ⟨j, hj⟩ := List.mem_iff_getElem?.mp h
  unfold wakeJob
  split
  · rename_i r₀ hjob
    split
    · obtain ⟨rfl, hwoken⟩ | ⟨-, hrest⟩ :=
        getElem?_set_of_some hj i (.renewal { r₀ with phase := .awake })
      · obtain rfl := MemoryJob.renewal.inj (Option.some.inj (hj.symm.trans hjob))
        exact .inr (List.mem_of_getElem? hwoken)
      · exact .inl (List.mem_of_getElem? hrest)
    · exact .inl h
  · exact .inl h

theorem mem_workJob {i : Nat} (h : .renewal r ∈ m.jobs)
    (hother : m.jobs[i]? ≠ some (.renewal r)) : .renewal r ∈ (m.workJob now i).jobs := by
  obtain ⟨j, hj⟩ := List.mem_iff_getElem?.mp h
  have hij : j ≠ i := by
    rintro rfl
    exact hother hj
  have hrest := mem_eraseIdx_of_ne hij hj
  unfold workJob
  split
  · split
    · unfold renewOnce
      split
      · exact hrest
      · exact List.mem_append_left _ hrest
    · exact h
  · split
    · exact List.mem_append_left _ hrest
    · exact h
  · exact h

theorem mem_stopJob (h : .renewal r ∈ m.jobs) (hfree : m.isStopped r = false) (i : Nat) :
    .renewal r ∈ (m.stopJob i).jobs := by
  obtain ⟨hopen, -⟩ := Bool.or_eq_false_iff.mp hfree
  obtain ⟨j, hj⟩ := List.mem_iff_getElem?.mp h
  unfold stopJob
  split
  · rename_i r₀ hjob
    split
    · exact h
    · split
      · rename_i hstopped
        have hij : j ≠ i := by
          rintro rfl
          obtain rfl := MemoryJob.renewal.inj (Option.some.inj (hj.symm.trans hjob))
          exact absurd (hfree.symm.trans hstopped) Bool.false_ne_true
        exact mem_eraseIdx_of_ne hij hj
      · exact h
  · rw [hopen]
    exact h
  · exact h

/-- A renewal that nobody tells to stop and that does not work sleeps on, or is woken. -/
theorem renewal_stays (h : .renewal r ∈ m.jobs) (hfree : m.isStopped r = false)
    (hcancels : ¬ a.cancels r.key) (hworks : ∀ i, a = .work i → m.jobs[i]? ≠ some (.renewal r)) :
    .renewal r ∈ (m.act now a).jobs ∨
      .renewal { r with phase := .awake } ∈ (m.act now a).jobs := by
  obtain ⟨hopen, -⟩ := Bool.or_eq_false_iff.mp hfree
  have hkept {key : String} (hkey : r.key ≠ key) :
      .renewal r ∈ m.jobs.map (cancelRenewal key) := by
    refine List.mem_map.mpr ⟨.renewal r, h, ?_⟩
    simp only [cancelRenewal, if_neg hkey]
  cases hmoves : a.movesJobs with
  | false => exact .inl ((jobs_act hmoves).symm ▸ h)
  | true =>
      cases a with
      | keepAlive key value ttl =>
          left
          rcases keepAlive_cases m now key value ttl with ⟨_, m', hcall, hm'⟩ | ⟨_, -, hcall⟩
          · simp only [act, hcall]
            rcases hm' with rfl | rfl <;> exact h
          · simp only [act, hcall]
            exact List.mem_append_left _ (hkept (Ne.symm hcancels))
      | delete key =>
          rw [act_delete hopen]
          exact .inl (hkept (Ne.symm hcancels))
      | addSweeper interval =>
          left
          simp only [act, addSweeper]
          split
          · exact h
          · exact List.mem_append_left _ h
      | wake i => exact mem_wakeJob h i
      | work i => exact .inl (mem_workJob h (hworks i rfl))
      | stop i => exact .inl (mem_stopJob h hfree i)
      | _ => cases hmoves

/-- A renewal that nobody tells to stop goes on, as long as its deadlines are within
the clock. -/
theorem renewal_survives (h : .renewal r ∈ m.jobs) (hfree : m.isStopped r = false)
    (hcancels : ¬ a.cancels r.key) {deadline : Option Instant}
    (hclock : deadline? now r.ttl = .ok deadline) : (m.act now a).GoesOn r := by
  obtain ⟨-, hcancelled⟩ := Bool.or_eq_false_iff.mp hfree
  by_cases hworks : ∃ i, a = .work i ∧ m.jobs[i]? = some (.renewal r)
  · obtain ⟨i, rfl, hjob⟩ := hworks
    exact goesOn_workJob hjob hcancelled hclock
  · have hother : ∀ i, a = .work i → m.jobs[i]? ≠ some (.renewal r) :=
      fun i ha hjob => hworks ⟨i, ha, hjob⟩
    rcases renewal_stays h hfree hcancels hother with hsame | hwoken
    · exact goesOn_of_mem hsame hcancelled
    · exact ⟨_, hwoken, ⟨rfl, rfl, rfl, id⟩, hcancelled⟩

end Jobs

end Memory

end Rollcall
