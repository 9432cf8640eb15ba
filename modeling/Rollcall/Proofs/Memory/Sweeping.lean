import Rollcall.Proofs.Memory.Lapsing

/-!
Runs that differ in their sweeps alone. The two backends then have the same jobs and the
same live entries, and may differ in what is overdue and not yet taken. Whatever treats an
overdue entry as gone cannot tell them apart; an increment reads it (`sweep_shows`). Main
statement: `sweeps_unobservable`.
-/

namespace Rollcall

namespace Memory

/-- Two backends that differ at most in versions, channels, history and what is overdue. -/
structure Alike (now : Instant) (m m' : Memory) : Prop where
  closed : m'.closed = m.closed
  jobs : m'.jobs = m.jobs
  live : ∀ key, m'.store.live? now key = m.store.live? now key

/-- What a caller sees of a call, versions aside. -/
inductive Observation where
  | listing (pairs : Except Failure (List (String × String)))
  | count (n : Except Failure Int)

def observe (m : Memory) (now : Instant) : Action → Option Observation
  | .get scope =>
      some (.listing ((m.get now scope).1.map
        (fun listing => listing.pairs.map (fun p => (p.key, p.value)))))
  | .increment key => some (.count (m.increment key).1)
  | _ => none

def observations : Memory → List (Instant × Action) → List Observation
  | _, [] => []
  | m, a :: rest => (m.observe a.1 a.2).toList ++ (m.act a.1 a.2).observations rest

def meetsFresh (m : Memory) (now : Instant) : Action → Bool
  | .increment key => !(m.store.overdue now).contains key
  | _ => true

def MeetsFresh : Memory → List (Instant × Action) → Prop
  | _, [] => True
  | m, a :: rest => m.meetsFresh a.1 a.2 = true ∧ (m.act a.1 a.2).MeetsFresh rest

def isSweep (a : Instant × Action) : Bool := a.2 = .sweep

def InOrder (actions : List (Instant × Action)) : Prop :=
  actions.Pairwise (fun earlier later => earlier.1 ≤ later.1)

instance (actions : List (Instant × Action)) : Decidable (InOrder actions) :=
  inferInstanceAs (Decidable (List.Pairwise _ _))

section

variable {m m' : Memory} {now later : Instant} {a : Action} {key : String} {s s' : Store}
  {closed : Bool} {jobs : List MemoryJob}

theorem Alike.refl (now : Instant) (m : Memory) : Alike now m m := ⟨rfl, rfl, fun _ => rfl⟩

theorem Alike.symm (h : Alike now m m') : Alike now m' m :=
  ⟨h.closed.symm, h.jobs.symm, fun key => (h.live key).symm⟩

/-- Alike at one instant, two backends are alike at every later one, since nothing comes to
life by waiting. -/
theorem Alike.mono (h : Alike now m m') (hle : now ≤ later) : Alike later m m' :=
  ⟨h.closed, h.jobs, fun key => Store.live?_later (h.live key) hle⟩

theorem Alike.sweep (h : Alike later m m') (hle : now ≤ later) :
    Alike later (m.act now .sweep) m' where
  closed := h.closed
  jobs := h.jobs
  live := fun key =>
    (h.live key).trans (Store.live?_later (Store.live?_expire m.store now key) hle).symm

/-- An increment that meets no overdue entry finds that of its key in time, or none. -/
theorem not_overdue_of_meetsFresh (h : m.meetsFresh now (.increment key) = true) :
    key ∉ m.store.overdue now := by
  intro hmem
  simp [meetsFresh, hmem] at h

/-- Where its entry is not overdue, what an increment reads is a function of what is live. -/
theorem counter_eq_of_fresh (h : key ∉ s.overdue now) : counter s key =
    match s.live? now key with
    | none => .ok 0
    | some p =>
        match Decimal.readInt64 p.1 with
        | .ok n => .ok n
        | .error fault =>
            .error (.backend "incr" ("counter " ++ key ++ " is not an integer: " ++ fault.message))
    := by
  unfold counter Store.live?
  cases hentry : s.entries.get? key with
  | none => rfl
  | some e =>
      have hlate : e.isOverdue now = false :=
        Bool.eq_false_iff.mpr (fun hlate => h (Store.mem_overdue.mpr ⟨e, hentry, hlate⟩))
      have hlive : (some e).bind (Entry.live? now) = some (e.value, e.deadline) :=
        if_neg (Bool.eq_false_iff.mp hlate)
      exact hlive ▸ rfl

/-- A write expires first, so what one store still holds of the dead and the other no longer
does cannot matter to it. -/
theorem Alike.set (h : ∀ key, s'.live? now key = s.live? now key) (key value : String)
    (ttl : Span) :
    Alike now ((⟨s, closed, jobs⟩ : Memory).set now key value ttl).2
      ((⟨s', closed, jobs⟩ : Memory).set now key value ttl).2 := by
  cases closed with
  | true => exact ⟨rfl, rfl, h⟩
  | false =>
      simp only [Memory.set, Bool.false_eq_true, if_false]
      cases deadline? now ttl with
      | error failure =>
          refine ⟨rfl, rfl, fun other => ?_⟩
          simp only [Store.live?_expire, h]
      | ok deadline =>
          refine ⟨rfl, rfl, fun other => ?_⟩
          simp only [Store.live?_put, Store.live?_expire, h]

/-- An increment does not expire, and here the side condition is needed in both stores: they
count on from the same number, and answer alike. -/
theorem Alike.increment (h : ∀ key, s'.live? now key = s.live? now key)
    (hfresh : key ∉ s.overdue now) (hfresh' : key ∉ s'.overdue now) :
    ((⟨s', closed, jobs⟩ : Memory).increment key).1 =
        ((⟨s, closed, jobs⟩ : Memory).increment key).1 ∧
      Alike now ((⟨s, closed, jobs⟩ : Memory).increment key).2
        ((⟨s', closed, jobs⟩ : Memory).increment key).2 := by
  have hcounter : counter s' key = counter s key := by
    rw [counter_eq_of_fresh hfresh, counter_eq_of_fresh hfresh', h]
  cases closed with
  | true => exact ⟨rfl, rfl, rfl, h⟩
  | false =>
      simp only [Memory.increment, Bool.false_eq_true, if_false, hcounter]
      cases counter s key with
      | error e => exact ⟨rfl, rfl, rfl, h⟩
      | ok n =>
          dsimp only
          split
          · refine ⟨rfl, rfl, rfl, fun other => ?_⟩
            simp only [Store.live?_put, h]
          · exact ⟨rfl, rfl, rfl, h⟩

/-- The work of a job on stores that are alike: a renewal puts its value or extends it,
which is the same to what is live, and a sweep takes only the dead. -/
theorem Alike.work (h : ∀ key, s'.live? now key = s.live? now key) (index : Nat) :
    Alike now ((⟨s, closed, jobs⟩ : Memory).workJob now index)
      ((⟨s', closed, jobs⟩ : Memory).workJob now index) := by
  simp only [workJob]
  cases jobs[index]? with
  | none => exact ⟨rfl, rfl, h⟩
  | some job =>
      cases job with
      | sweeper w =>
          dsimp only
          split
          · refine ⟨rfl, rfl, fun key => ?_⟩
            simp only [sweepOnce, withoutJob, Store.live?_expire, h]
          · exact ⟨rfl, rfl, h⟩
      | renewal r =>
          cases hphase : r.phase with
          | asleep t =>
              simp only [hphase]
              exact ⟨rfl, rfl, h⟩
          | awake =>
              simp only [hphase, renewOnce]
              cases deadline? now r.ttl with
              | error failure => exact ⟨rfl, rfl, h⟩
              | ok deadline =>
                  refine ⟨rfl, rfl, fun key => ?_⟩
                  simp only [withoutJob, Store.live?_renew, h]

/-- An action that both take leaves them alike, whatever it is, as long as an increment
meets no overdue entry in either. -/
theorem Alike.act (h : Alike now m m') (hfresh : m.meetsFresh now a = true)
    (hfresh' : m'.meetsFresh now a = true) : Alike now (m.act now a) (m'.act now a) := by
  obtain ⟨s, _, _⟩ := m
  obtain ⟨s', closed, jobs⟩ := m'
  obtain ⟨rfl, rfl, hlive⟩ := h
  have hexpire (key : String) : (s'.expire now).live? now key = (s.expire now).live? now key := by
    rw [Store.live?_expire, Store.live?_expire, hlive]
  cases a with
  | set key value ttl => exact .set hlive key value ttl
  | get scope =>
      simp only [Memory.act, get]
      split
      · exact ⟨rfl, rfl, hlive⟩
      · exact ⟨rfl, rfl, hexpire⟩
  | delete key =>
      simp only [Memory.act, delete]
      split
      · exact ⟨rfl, rfl, hlive⟩
      · refine ⟨rfl, rfl, fun other => ?_⟩
        simp only [Store.live?_remove, hlive]
  | increment key =>
      exact (Alike.increment hlive (not_overdue_of_meetsFresh hfresh)
        (not_overdue_of_meetsFresh hfresh')).2
  | watch scope version =>
      simp only [Memory.act, watch]
      split
      · exact ⟨rfl, rfl, hlive⟩
      · exact ⟨rfl, rfl, hexpire⟩
  | keepAlive key value ttl =>
      simp only [Memory.act, keepAlive, Memory.set]
      cases closed with
      | true => exact ⟨rfl, rfl, hlive⟩
      | false =>
          cases deadline? now ttl with
          | error failure => exact ⟨rfl, rfl, hexpire⟩
          | ok deadline =>
              refine ⟨rfl, rfl, fun other => ?_⟩
              simp only [Bool.false_eq_true, if_false, Store.live?_put, hexpire]
  | close =>
      simp only [Memory.act, close]
      split
      · exact ⟨rfl, rfl, hlive⟩
      · exact ⟨rfl, rfl, hlive⟩
  | receive id => exact ⟨rfl, rfl, hlive⟩
  | drain id => exact ⟨rfl, rfl, hlive⟩
  | dropWatch id => exact ⟨rfl, rfl, hlive⟩
  | sweep => exact ⟨rfl, rfl, hexpire⟩
  | addSweeper interval =>
      simp only [Memory.act, addSweeper]
      split
      · exact ⟨rfl, rfl, hlive⟩
      · exact ⟨rfl, rfl, hlive⟩
  | compact revision => exact ⟨rfl, rfl, hlive⟩
  | refreshAll => exact ⟨rfl, rfl, hlive⟩
  | wake index =>
      simp only [Memory.act, wakeJob]
      split
      · split
        · exact ⟨rfl, rfl, hlive⟩
        · exact ⟨rfl, rfl, hlive⟩
      · exact ⟨rfl, rfl, hlive⟩
  | work index => exact .work hlive index
  | stop index =>
      simp only [Memory.act, stopJob]
      split
      · split
        · exact ⟨rfl, rfl, hlive⟩
        · split
          · exact ⟨rfl, rfl, hlive⟩
          · exact ⟨rfl, rfl, hlive⟩
      · split
        · exact ⟨rfl, rfl, hlive⟩
        · exact ⟨rfl, rfl, hlive⟩
      · exact ⟨rfl, rfl, hlive⟩

/-- What a caller is answered is the same on backends that are alike, versions aside. A
query expires first, so it lists what is live. -/
theorem Alike.observe_eq (h : Alike now m m') (hfresh : m.meetsFresh now a = true)
    (hfresh' : m'.meetsFresh now a = true) : m'.observe now a = m.observe now a := by
  obtain ⟨s, _, _⟩ := m
  obtain ⟨s', closed, jobs⟩ := m'
  obtain ⟨rfl, rfl, hlive⟩ := h
  cases a with
  | get scope =>
      simp only [observe, get]
      cases closed with
      | true => rfl
      | false =>
          have hlisted := Store.listed_eq_of_live hlive scope
          exact congrArg (fun pairs => some (Observation.listing (.ok pairs))) hlisted
  | increment key =>
      have hcounts : ((⟨s', closed, jobs⟩ : Memory).increment key).1 =
          ((⟨s, closed, jobs⟩ : Memory).increment key).1 :=
        (Alike.increment hlive (not_overdue_of_meetsFresh hfresh)
          (not_overdue_of_meetsFresh hfresh')).1
      exact congrArg (fun n => some (Observation.count n)) hcounts
  | _ => rfl

/-- Two runs that are one when their sweeps are left out. -/
inductive Swept : List (Instant × Action) → List (Instant × Action) → Prop where
  | nil : Swept [] []
  | left {xs ys : List (Instant × Action)} (now : Instant) (rest : Swept xs ys) :
      Swept ((now, .sweep) :: xs) ys
  | right {xs ys : List (Instant × Action)} (now : Instant) (rest : Swept xs ys) :
      Swept xs ((now, .sweep) :: ys)
  | both {xs ys : List (Instant × Action)} (a : Instant × Action) (rest : Swept xs ys) :
      Swept (a :: xs) (a :: ys)

theorem Swept.rights {xs ys sweeps : List (Instant × Action)} (h : Swept xs ys)
    (hsweeps : ∀ a ∈ sweeps, isSweep a = true) : Swept xs (sweeps ++ ys) := by
  induction sweeps with
  | nil => exact h
  | cons a rest ih =>
      obtain ⟨now, a⟩ := a
      obtain rfl : a = .sweep := of_decide_eq_true (hsweeps _ List.mem_cons_self)
      exact .right now (ih (fun b hb => hsweeps b (List.mem_cons_of_mem _ hb)))

/-- Two runs that are equal when their sweeps are left out are so related, by induction on
one of them and, within it, on the sweeps that the other begins with. -/
theorem swept_of_filter {xs ys : List (Instant × Action)}
    (h : xs.filter (fun a => !isSweep a) = ys.filter (fun a => !isSweep a)) : Swept xs ys := by
  induction xs generalizing ys with
  | nil =>
      have hsweeps : ∀ a ∈ ys, isSweep a = true := by
        intro a ha
        simpa using List.filter_eq_nil_iff.mp h.symm a ha
      simpa using Swept.nil.rights hsweeps
  | cons a rest ih =>
      cases hsweep : isSweep a with
      | true =>
          obtain ⟨now, a⟩ := a
          obtain rfl : a = .sweep := of_decide_eq_true hsweep
          exact .left now (ih h)
      | false =>
          rw [List.filter_cons_of_pos (by rw [hsweep]; rfl)] at h
          obtain ⟨sweeps, tail, rfl, hsweeps, -, htail⟩ := List.filter_eq_cons_iff.mp h.symm
          refine (Swept.both a (ih htail.symm)).rights ?_
          intro b hb
          simpa using hsweeps b hb

/-- The instant up to which one of the two has swept is not later than what both do
next. -/
theorem Swept.observations_eq {xs ys : List (Instant × Action)} (hswept : Swept xs ys)
    {start : Instant} (h : Alike start m m') (hnext : ∀ a ∈ xs, a ∈ ys → start ≤ a.1)
    (hxs : InOrder xs) (hys : InOrder ys) (hfresh : m.MeetsFresh xs)
    (hfresh' : m'.MeetsFresh ys) : m'.observations ys = m.observations xs := by
  induction hswept generalizing m m' start with
  | nil => rfl
  | left now _ ih =>
      obtain ⟨hfirst, hrest⟩ := List.pairwise_cons.mp hxs
      have hlater : Alike ⟨max start.nanos now.nanos⟩ _ _ := h.mono (Nat.le_max_left _ _)
      refine ih (hlater.sweep (Nat.le_max_right _ _)) (fun a ha ha' => ?_) hrest hys hfresh.2 hfresh'
      exact Nat.max_le.mpr ⟨hnext a (List.mem_cons_of_mem _ ha) ha', hfirst a ha⟩
  | right now _ ih =>
      obtain ⟨hfirst, hrest⟩ := List.pairwise_cons.mp hys
      have hlater : Alike ⟨max start.nanos now.nanos⟩ _ _ := h.mono (Nat.le_max_left _ _)
      refine ih (hlater.symm.sweep (Nat.le_max_right _ _)).symm (fun a ha ha' => ?_) hxs hrest hfresh
        hfresh'.2
      exact Nat.max_le.mpr ⟨hnext a ha (List.mem_cons_of_mem _ ha'), hfirst a ha'⟩
  | both a _ ih =>
      obtain ⟨hfirst, hrest⟩ := List.pairwise_cons.mp hxs
      have hnow := h.mono (hnext a List.mem_cons_self List.mem_cons_self)
      rw [observations, observations, hnow.observe_eq hfresh.1 hfresh'.1,
        ih (hnow.act hfresh.1 hfresh'.1) (fun b hb _ => hfirst b hb) hrest
          (List.pairwise_cons.mp hys).2 hfresh.2 hfresh'.2]

end

/-- Sweeps cannot be seen. Two runs of one backend that differ in their sweeps alone, at
any instants, give the same listings and counts, versions aside, as long as no increment
meets an entry that is overdue. -/
theorem sweeps_unobservable {m : Memory} {xs ys : List (Instant × Action)} (hxs : InOrder xs)
    (hys : InOrder ys)
    (hsame : xs.filter (fun a => !isSweep a) = ys.filter (fun a => !isSweep a))
    (hfresh : m.MeetsFresh xs) (hfresh' : m.MeetsFresh ys) :
    m.observations ys = m.observations xs :=
  (swept_of_filter hsame).observations_eq (Alike.refl ⟨0⟩ m) (fun _ _ _ => Nat.zero_le _) hxs hys
    hfresh hfresh'

def sampleShort : List (Instant × Action) :=
  [(⟨0⟩, .set "c" "5" (.ofMillis 10)), (⟨5⟩, .increment "n")]

def sampleLate : Instant := ⟨20 * nanosPerMilli⟩

/-- An entry lapses before the listing and is swept in one of two runs only, after a counter
has been counted on and before it is read. -/
theorem sweeps_unobservable_lapsed :
    let kept := sampleShort ++ [(sampleLate, .get ⟨"", true⟩)]
    let swept := sampleShort ++ [(sampleLate, .sweep), (sampleLate, .get ⟨"", true⟩)]
    (create 8).observations kept = (create 8).observations swept ∧
      (create 8).observations swept =
        [.count (.ok 1), .listing (.ok [("n", "1")])] := by
  intro kept swept
  refine ⟨?_, by rfl⟩
  refine sweeps_unobservable (by decide) (by decide) (by decide) ?_ ?_
  · exact ⟨rfl, rfl, rfl, rfl, trivial⟩
  · exact ⟨rfl, rfl, rfl, trivial⟩

/-- An increment goes on from an entry that is overdue, and from zero once it is swept. -/
theorem sweep_shows :
    let expired : List (Instant × Action) := [(⟨0⟩, .set "c" "5" (.ofMillis 10))]
    (create 8).observations (expired ++ [(sampleLate, .increment "c")]) = [.count (.ok 6)] ∧
      (create 8).observations (expired ++ [(sampleLate, .sweep), (sampleLate, .increment "c")]) =
        [.count (.ok 1)] := by
  refine ⟨by rfl, by rfl⟩

end Memory

end Rollcall
