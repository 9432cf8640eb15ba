import Rollcall.Proofs.Memory.Renewals
import Rollcall.Proofs.Store.Listing

/-!
What stops the renewals of a key: its deletion, a newer registration, or the close
of the backend. A renewal that is awake at that time, or that is woken although it
was told to stop, renews all the same, and brings back what was deleted or
replaced (`renews_after_stop`). Where no renewal of the key is awake and those told
to stop heed it, none of them changes the store again. Main statement:
`stays_stopped`.
-/

namespace Rollcall.Memory

/-- An action that stops the renewals of a key that were there before. -/
inductive Stops (m : Memory) (now : Instant) (key : String) : Action → Prop where
  | delete (hopen : m.closed = false) : Stops m now key (.delete key)
  | close : Stops m now key .close
  | replace (value : String) (ttl : Span) (hok : (m.keepAlive now key value ttl).1 = .ok ()) :
      Stops m now key (.keepAlive key value ttl)

/-- No renewal of the key has been woken and has still to renew. -/
def Sleeps (m : Memory) (key : String) : Prop :=
  ∀ r, .renewal r ∈ m.jobs → r.key = key → r.phase ≠ .awake

/-- A timer does not wake a renewal that is told to stop. -/
def heeds (m : Memory) : Action → Bool
  | .wake i =>
      match m.jobs[i]? with
      | some (.renewal r) => !m.isStopped r
      | _ => true
  | _ => true

def Heeds : Memory → List (Instant × Action) → Prop
  | _, [] => True
  | m, a :: rest => m.heeds a.2 = true ∧ (m.act a.1 a.2).Heeds rest

/-- The actions of a run that an open backend takes. -/
def accepted : Memory → List (Instant × Action) → List Action
  | _, [] => []
  | m, a :: rest => (if m.closed then [] else [a.2]) ++ (m.act a.1 a.2).accepted rest

/-- A key whose renewals at the old places are stopped and asleep, whose others were begun
since, and whose value was written since. -/
structure Confined (key : String) (isOld : Nat → Prop) (begun : String → Span → Prop)
    (written : String → Prop) (m : Memory) : Prop where
  old : ∀ j r, m.jobs[j]? = some (.renewal r) → r.key = key → isOld j →
    m.isStopped r = true ∧ r.phase ≠ .awake
  new : ∀ j r, m.jobs[j]? = some (.renewal r) → r.key = key → ¬ isOld j → begun r.value r.ttl
  value : ∀ value, m.store.value? key = some value → written value

section

variable {m : Memory} {now : Instant} {a : Action} {key : String} {isOld : Nat → Prop}
  {begun : String → Span → Prop} {written : String → Prop}

theorem isStopped_act {r r' : Renewal} (h : m.isStopped r = true) (hr : r.Continues r') :
    (m.act now a).isStopped r' = true := by
  rw [isStopped, Bool.or_eq_true] at h
  rw [isStopped, Bool.or_eq_true, closed_act, Bool.or_eq_true]
  rcases h with hclosed | hcancelled
  · exact .inl (.inl hclosed)
  · exact .inr (hr.cancelled hcancelled)

/-- One action keeps a key confined, as long as renewals heed their stop and callers only begin
and write what is allowed. Old is then what came from an old place. -/
theorem Confined.act (h : Confined key isOld begun written m) (hheeds : m.heeds a = true)
    (hbegun : ∀ value ttl, begun value ttl → written value)
    (hcalls : m.closed = false → ∀ value ttl, a = .keepAlive key value ttl → begun value ttl)
    (hwrites : m.closed = false → ∀ value, a.writes key value → written value) :
    Confined key (fun j => ∃ i, isOld i ∧ m.moved now a i = some j) begun written
      (m.act now a) where
  old := by
    rintro j r hr hkey ⟨i, hold, hmoved⟩
    rcases renewal_moved hr with ⟨i', r₀, hr₀, hmoved', hbecomes⟩ | ⟨-, hnew⟩
    · obtain rfl := moved_injective hmoved hmoved'
      obtain ⟨hstopped, hasleep⟩ := h.old i r₀ hr₀ (hbecomes.key ▸ hkey) hold
      refine ⟨isStopped_act hstopped hbecomes.toContinues, fun hawake => ?_⟩
      rcases hbecomes.awake hawake with hbefore | ⟨i, rfl, hjob⟩
      · exact hasleep hbefore
      · simp only [heeds, hjob, hstopped] at hheeds
        cases hheeds
    · exact absurd hmoved (hnew i)
  new := by
    intro j r hr hkey hnot
    rcases renewal_moved hr with ⟨i, r₀, hr₀, hmoved, hbecomes⟩ | ⟨⟨hopen, ha, -, -⟩, -⟩
    · rw [hbecomes.value, hbecomes.ttl]
      exact h.new i r₀ hr₀ (hbecomes.key ▸ hkey) fun hold => hnot ⟨i, hold, hmoved⟩
    · rw [hkey] at ha
      exact hcalls hopen r.value r.ttl ha
  value := by
    intro value hvalue
    rcases value_act m now a key with hsame | ⟨-, hnone⟩ | ⟨other, hopen, hother, hwritten⟩ |
      ⟨i, r, -, hjob, hawake, hkey, hwritten⟩
    · exact h.value value (hsame ▸ hvalue)
    · rw [hnone] at hvalue
      cases hvalue
    · obtain rfl := Option.some.inj (hwritten.symm.trans hvalue)
      exact hwrites hopen other hother
    · obtain rfl := Option.some.inj (hwritten.symm.trans hvalue)
      by_cases hold : isOld i
      · exact absurd hawake (h.old i r hjob hkey hold).2
      · exact hbegun r.value r.ttl (h.new i r hjob hkey hold)

/-- Over a run: the old renewals, wherever they have moved to, stay stopped and asleep,
every other renewal of the key was begun by a call of the run, and its value comes from such
a call or a write of the run. -/
theorem Confined.run {later : List (Instant × Action)} (h : Confined key isOld begun written m)
    (hheeds : m.Heeds later) (hbegun : ∀ value ttl, begun value ttl → written value)
    (hcalls : ∀ value ttl, .keepAlive key value ttl ∈ m.accepted later → begun value ttl)
    (hwrites : ∀ a ∈ m.accepted later, ∀ value, a.writes key value → written value) :
    Confined key (fun j => ∃ i, isOld i ∧ m.place later i = some j) begun written
      (m.run later) := by
  induction later generalizing m isOld with
  | nil =>
      have hplace (j : Nat) : (∃ i, isOld i ∧ m.place [] i = some j) ↔ isOld j := by
        simp only [place, Option.some.injEq, exists_eq_right]
      simp only [hplace]
      exact h
  | cons b rest ih =>
      have hplace (j : Nat) : (∃ i, isOld i ∧ m.place (b :: rest) i = some j) ↔
          ∃ i, (∃ i₀, isOld i₀ ∧ m.moved b.1 b.2 i₀ = some i) ∧
            (m.act b.1 b.2).place rest i = some j := by
        simp only [place, Option.bind_eq_some_iff]
        constructor
        · rintro ⟨i₀, hold, i, hmoved, hrest⟩
          exact ⟨i, ⟨i₀, hold, hmoved⟩, hrest⟩
        · rintro ⟨i, ⟨i₀, hold, hmoved⟩, hrest⟩
          exact ⟨i₀, hold, i, hmoved, hrest⟩
      simp only [hplace]
      refine ih (h.act hheeds.1 hbegun ?_ ?_) hheeds.2 ?_ ?_
      · intro hopen value ttl hb
        refine hcalls value ttl (List.mem_append_left _ ?_)
        rw [hopen, hb]
        exact List.mem_singleton_self _
      · intro hopen value hb
        refine hwrites b.2 (List.mem_append_left _ ?_) value hb
        rw [hopen]
        exact List.mem_singleton_self _
      · exact fun value ttl hmem => hcalls value ttl (List.mem_append_right _ hmem)
      · exact fun a hmem => hwrites a (List.mem_append_right _ hmem)

theorem workJob_asleep {i : Nat} {r : Renewal} (hjob : m.jobs[i]? = some (.renewal r))
    (hasleep : r.phase ≠ .awake) : m.workJob now i = m := by
  simp only [workJob, hjob]
  cases hphase : r.phase with
  | awake => exact absurd hphase hasleep
  | asleep t => rfl

/-- What a listing shows for a key is the value that the store has there. -/
theorem value_of_mem_scan {s : Store} {scope : Scope} {p : Pair} (h : p ∈ s.scan scope) :
    s.value? p.key = some p.value := by
  have hrow {row : String × Entry} (hmem : row ∈ s.entries.rows) :
      s.value? (Store.toPair row).key = some (Store.toPair row).value := by
    rw [Store.value?, Store.toPair, Table.get?_eq_some_iff.mpr hmem]
    rfl
  obtain ⟨key, wholePrefix⟩ := scope
  cases wholePrefix with
  | true =>
      rw [Store.scan_eq_filter] at h
      obtain ⟨row, hmem, rfl⟩ := List.mem_map.mp h
      exact hrow (List.mem_filter.mp hmem).1
  | false =>
      simp only [Store.scan, Bool.false_eq_true, if_false] at h
      cases hentry : s.entries.get? key with
      | none =>
          rw [hentry] at h
          cases h
      | some e =>
          rw [hentry] at h
          obtain rfl := List.mem_singleton.mp h
          exact hrow (Table.get?_eq_some_iff.mp hentry)

/-- Whatever kind of stop it was, the renewals of the key that stand are told to stop from
then on. -/
theorem Stops.isStopped (hstops : m.Stops now key a) {i j : Nat} {r : Renewal}
    (hr : (m.act now a).jobs[j]? = some (.renewal r)) (hkey : r.key = key)
    (hmoved : m.moved now a i = some j) : (m.act now a).isStopped r = true := by
  cases hstops with
  | delete hopen =>
      rw [act_delete hopen] at hr ⊢
      obtain ⟨_, _, _, _, hcancelled, -⟩ := getElem?_cancelled hr
      rw [Memory.isStopped, hcancelled hkey, Bool.or_true]
  | close => rw [Memory.isStopped, closed_act, decide_eq_true rfl, Bool.or_true, Bool.true_or]
  | replace value ttl hok =>
      rcases keepAlive_cases m now key value ttl with ⟨_, _, hcall, -⟩ | ⟨_, -, hcall⟩
      · rw [hcall] at hok
        cases hok
      · simp only [act, hcall, renewing] at hr
        have hj := ((moved_of_stays rfl).mp hmoved).2
        rw [List.getElem?_append_left (by rwa [List.length_map])] at hr
        obtain ⟨_, _, _, _, hcancelled, -⟩ := getElem?_cancelled hr
        rw [Memory.isStopped, hcancelled hkey, Bool.or_true]

/-- What a stop leaves of the value of its key: nothing after a deletion, the new one after
a newer registration, and what was there after a close. -/
theorem Stops.value (hstops : m.Stops now key a) {value : String}
    (hvalue : (m.act now a).store.value? key = some value) :
    (∃ ttl, a = .keepAlive key value ttl) ∨ a = .close ∧ m.store.value? key = some value := by
  cases hstops with
  | delete hopen =>
      rw [act_delete hopen, Store.value?_remove] at hvalue
      cases hvalue
  | close =>
      rcases value_act m now .close key with hsame | ⟨-, hnone⟩ | ⟨_, _, hother, _⟩ |
        ⟨_, _, ha, _⟩
      · exact .inr ⟨rfl, hsame ▸ hvalue⟩
      · rw [hnone] at hvalue
        cases hvalue
      · exact hother.elim
      · cases ha
  | replace value ttl hok =>
      rcases keepAlive_cases m now key value ttl with ⟨_, _, hcall, -⟩ | ⟨_, -, hcall⟩
      · rw [hcall] at hok
        cases hok
      · simp only [act, hcall, renewing, Store.value?_put] at hvalue
        obtain rfl := Option.some.inj hvalue
        exact .inl ⟨ttl, rfl⟩

/-- After a stop, with no renewal of the key awake. Old are the renewals that were there. -/
theorem Stops.confined (hstops : m.Stops now key a) (hsleeps : m.Sleeps key)
    (hcalls : ∀ value ttl, a = .keepAlive key value ttl → begun value ttl)
    (hwrites : ∀ value ttl, a = .keepAlive key value ttl → written value)
    (hkept : a = .close → ∀ value, m.store.value? key = some value → written value) :
    Confined key (fun j => ∃ i, m.moved now a i = some j) begun written (m.act now a) where
  old := by
    rintro j r hr hkey ⟨i, hmoved⟩
    refine ⟨hstops.isStopped hr hkey hmoved, fun hawake => ?_⟩
    rcases renewal_moved hr with ⟨_, r₀, hr₀, -, hbecomes⟩ | ⟨⟨-, -, hasleep, -⟩, -⟩
    · rcases hbecomes.awake hawake with hbefore | ⟨_, rfl, -⟩
      · exact hsleeps r₀ (List.mem_of_getElem? hr₀) (hbecomes.key ▸ hkey) hbefore
      · cases hstops
    · exact hasleep hawake
  new := by
    intro j r hr hkey hnot
    rcases renewal_moved hr with ⟨i, _, _, hmoved, -⟩ | ⟨⟨-, ha, -, -⟩, -⟩
    · exact absurd ⟨i, hmoved⟩ hnot
    · rw [hkey] at ha
      exact hcalls r.value r.ttl ha
  value := by
    intro value hvalue
    rcases hstops.value hvalue with ⟨ttl, ha⟩ | ⟨ha, hbefore⟩
    · exact hwrites value ttl ha
    · exact hkept ha value hbefore

end

/-- After a stop of a key, as long as no renewal of it was awake and renewals heed
their stop: a renewal that was there at the stop, wherever it stands later, has no work that
changes the store; any other one was begun since, by a call that the backend took; a value of
the key was written since by a caller, or was there at the close; and a key that was deleted
and not written since is in no listing. -/
theorem stays_stopped {m : Memory} {now : Instant} {key : String} {a : Action}
    (hstops : m.Stops now key a) (hsleeps : m.Sleeps key) {later : List (Instant × Action)}
    (hheeds : (m.act now a).Heeds later) :
    let since := m.accepted ((now, a) :: later)
    let m' := (m.act now a).run later
    (∀ i j r, m.place ((now, a) :: later) i = some j → m'.jobs[j]? = some (.renewal r) →
      r.key = key → ∀ t, (m'.act t (.work j)).store = m'.store) ∧
    (∀ j r, m'.jobs[j]? = some (.renewal r) → r.key = key →
      (∀ i, m.place ((now, a) :: later) i ≠ some j) → .keepAlive key r.value r.ttl ∈ since) ∧
    (∀ value, m'.store.value? key = some value →
      (∃ b ∈ since, b.writes key value) ∨ a = .close ∧ m.store.value? key = some value) ∧
    (a = .delete key → (∀ b ∈ since, ∀ value, ¬ b.writes key value) →
      ∀ t scope listing, (m'.get t scope).1 = .ok listing → ∀ p ∈ listing.pairs, p.key ≠ key) := by
  intro since m'
  have hmem (hopen : m.closed = false) : a ∈ since := by
    refine List.mem_append_left _ ?_
    rw [hopen]
    exact List.mem_singleton_self a
  have hopen_of {value : String} {ttl : Span} (ha : a = .keepAlive key value ttl) :
      m.closed = false := by
    subst ha
    cases hstops with
    | replace value ttl hok =>
        rcases keepAlive_cases m now key value ttl with ⟨_, _, hcall, -⟩ | ⟨_, hopen, -⟩
        · rw [hcall] at hok
          cases hok
        · exact hopen
  have hconfined : Confined key
      (fun j => ∃ i, (∃ i₀, m.moved now a i₀ = some i) ∧ (m.act now a).place later i = some j)
      (fun value ttl => .keepAlive key value ttl ∈ since)
      (fun value => (∃ b ∈ since, b.writes key value) ∨
        a = .close ∧ m.store.value? key = some value) m' := by
    refine Confined.run ?_ hheeds ?_ ?_ ?_
    · refine hstops.confined hsleeps ?_ ?_ ?_
      · intro value ttl ha
        exact ha ▸ hmem (hopen_of ha)
      · intro value ttl ha
        exact .inl ⟨a, hmem (hopen_of ha), by rw [ha]; exact ⟨rfl, rfl⟩⟩
      · exact fun ha value hvalue => .inr ⟨ha, hvalue⟩
    · exact fun value ttl hbegun => .inl ⟨_, hbegun, rfl, rfl⟩
    · exact fun value ttl hlater => List.mem_append_right _ hlater
    · exact fun b hlater value hb => .inl ⟨b, List.mem_append_right _ hlater, hb⟩
  refine ⟨?_, ?_, hconfined.value, ?_⟩
  · intro i j r hplace hjob hkey t
    obtain ⟨next, hmoved, hlater⟩ := Option.bind_eq_some_iff.mp hplace
    obtain ⟨-, hasleep⟩ := hconfined.old j r hjob hkey ⟨next, ⟨i, hmoved⟩, hlater⟩
    exact congrArg Memory.store (workJob_asleep hjob hasleep)
  · intro j r hjob hkey hnot
    refine hconfined.new j r hjob hkey ?_
    rintro ⟨next, ⟨i, hmoved⟩, hlater⟩
    exact hnot i (Option.bind_eq_some_iff.mpr ⟨next, hmoved, hlater⟩)
  · rintro rfl hunwritten t scope listing hget p hp hkey
    cases hclosed : m'.closed with
    | true =>
        simp only [get, hclosed, if_true] at hget
        cases hget
    | false =>
        simp only [get, hclosed, Bool.false_eq_true, if_false, Except.ok.injEq] at hget
        subst hget
        have hlisted := value_of_mem_scan hp
        rw [hkey, Store.expire_eq_applyAll] at hlisted
        have hexpired := Store.value?_applyAll m'.store (m'.store.expiries t) key
        rcases hexpired with hsame | ⟨-, hnone⟩ | ⟨_, _, hput, -⟩
        · rw [hsame] at hlisted
          rcases hconfined.value p.value hlisted with ⟨b, hb, hwrites⟩ | ⟨ha, -⟩
          · exact hunwritten b hb p.value hwrites
          · cases ha
        · rw [hnone] at hlisted
          cases hlisted
        · exact absurd hput Store.put_not_mem_expiries

def sampleTtl : Span := .ofMillis 30

def sampleTimer : Instant := ⟨10 * nanosPerMilli⟩

def sampleMemory : Memory := (create 8).run [(⟨0⟩, .keepAlive "k" "v" sampleTtl)]

/-- A renewal that is told to stop when its key is deleted, in time. -/
theorem stays_stopped_deleted :
    let later := [(sampleTimer, .stop 0), (sampleTimer, .sweep)]
    let m' := (sampleMemory.act sampleTimer (.delete "k")).run later
    sampleMemory.Stops sampleTimer "k" (.delete "k") ∧ sampleMemory.Sleeps "k" ∧
      (sampleMemory.act sampleTimer (.delete "k")).Heeds later ∧ m'.closed = false ∧
      ∀ t scope listing, (m'.get t scope).1 = .ok listing → ∀ p ∈ listing.pairs, p.key ≠ "k" := by
  intro later m'
  have hstops : sampleMemory.Stops sampleTimer "k" (.delete "k") := .delete rfl
  have hsleeps : sampleMemory.Sleeps "k" := by
    intro r hr _
    obtain rfl := MemoryJob.renewal.inj (List.mem_singleton.mp hr)
    exact nofun
  have hheeds : (sampleMemory.act sampleTimer (.delete "k")).Heeds later := ⟨rfl, rfl, trivial⟩
  refine ⟨hstops, hsleeps, hheeds, rfl, ?_⟩
  refine (stays_stopped hstops hsleeps hheeds).2.2.2 rfl ?_
  intro b hb value hwrites
  have hsince : sampleMemory.accepted ((sampleTimer, .delete "k") :: later) =
      [.delete "k", .stop 0, .sweep] := rfl
  rw [hsince] at hb
  simp only [List.mem_cons, List.not_mem_nil, or_false] at hb
  rcases hb with rfl | rfl | rfl <;> exact hwrites

/-- Woken before the stop, or after it although told to stop, a renewal brings back a
deleted key or a replaced value, and writes to a closed backend. -/
theorem renews_after_stop :
    let woken := sampleMemory.act sampleTimer (.wake 0)
    let deleted := woken.act sampleTimer (.delete "k")
    let heedless := sampleMemory.run [(sampleTimer, .delete "k"), (sampleTimer, .wake 0)]
    let replaced := woken.act sampleTimer (.keepAlive "k" "w" sampleTtl)
    let closed := woken.run [(sampleTimer, .set "k" "w" .zero), (sampleTimer, .close)]
    deleted.store.value? "k" = none ∧
      (deleted.act sampleTimer (.work 0)).store.value? "k" = some "v" ∧
      heedless.store.value? "k" = none ∧
      (heedless.act sampleTimer (.work 0)).store.value? "k" = some "v" ∧
      replaced.store.value? "k" = some "w" ∧
      (replaced.act sampleTimer (.work 0)).store.value? "k" = some "v" ∧
      closed.closed = true ∧ closed.store.value? "k" = some "w" ∧
      (closed.act sampleTimer (.work 0)).store.value? "k" = some "v" := by
  decide +kernel

end Rollcall.Memory
