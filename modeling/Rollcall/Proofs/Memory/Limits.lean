import Rollcall.Config
import Rollcall.Proofs.Memory.Lasting
import Rollcall.Proofs.Memory.Watching

/-!
Numbers at their limits. Counters and the seconds of the clock are kept in 64 signed
bits, and nothing looks ahead to where they end: an increment of the greatest number
crashes, and so does a write whose time to live leads beyond the clock
(`limits_crash`). Short of that an increment is one more, and a deadline is one time to
live after the instant of the write. The revision only counts the changes that were
made. Main statements: `Timed.run` and `sound_within_limits`.
-/

namespace Rollcall

theorem Instant.seconds_after_ofSeconds (t : Instant) (n : Nat) :
    (t.after (.ofSeconds n)).seconds = t.seconds + n :=
  Nat.add_mul_div_right _ _ (by decide)

/-- Settings are valid with one positive time to live as with another. -/
theorem Config.validate_ttlSecs (c : Config) (n : Nat) :
    { c with ttlSecs := n + 1 }.validate = { c with ttlSecs := 1 }.validate := rfl

namespace Store

variable {s : Store} {key : String} {e : Entry} {d : Instant}

def Update.sets (key : String) (d : Instant) : Update → Prop
  | .put k _ deadline | .extend k deadline => k = key ∧ deadline = some d
  | _ => False

theorem Update.sets.touches {u : Update} (h : u.sets key d) : u.touches key := by
  cases u with
  | put k value deadline => exact h.1
  | extend k deadline => exact h.1
  | _ => exact h.elim

theorem deadline_apply {u : Update} (h : (s.apply u).entries.get? key = some e)
    (hd : e.deadline = some d) :
    u.sets key d ∨ ∃ e₀, s.entries.get? key = some e₀ ∧ e₀.deadline = some d := by
  by_cases htouches : u.touches key
  · cases u with
    | put k value deadline =>
        obtain rfl : k = key := htouches
        rw [apply, get?_put, if_pos rfl] at h
        obtain rfl := Option.some.inj h
        exact .inl ⟨rfl, hd⟩
    | remove k =>
        obtain rfl : k = key := htouches
        rw [apply, get?_remove, if_pos rfl] at h
        cases h
    | extend k deadline =>
        obtain rfl : k = key := htouches
        simp only [apply, extend] at h
        cases hentry : s.entries.get? k with
        | none => simp only [hentry, reduceCtorEq] at h
        | some e₀ =>
            simp only [hentry, Table.get?_insert, if_true, Option.some.injEq] at h
            subst h
            exact .inl ⟨rfl, hd⟩
    | _ => exact htouches.elim
  · rw [get?_apply_of_not_touches htouches] at h
    exact .inr ⟨e, h, hd⟩

/-- Every deadline in the store after some updates was there before them or was set by one
of them for that key; an expiry, a deletion or an increment sets none. -/
theorem deadline_applyAll {us : List Update} (h : (s.applyAll us).entries.get? key = some e)
    (hd : e.deadline = some d) :
    (∃ u ∈ us, u.sets key d) ∨ ∃ e₀, s.entries.get? key = some e₀ ∧ e₀.deadline = some d := by
  induction us generalizing s with
  | nil => exact .inr ⟨e, h, hd⟩
  | cons u rest ih =>
      rcases ih h with ⟨v, hv, hsets⟩ | ⟨e₁, he₁, hd₁⟩
      · exact .inl ⟨v, List.mem_cons_of_mem _ hv, hsets⟩
      · rcases deadline_apply he₁ hd₁ with hsets | hbefore
        · exact .inl ⟨u, List.mem_cons_self, hsets⟩
        · exact .inr hbefore

end Store

namespace Memory

/-- The clock has room for the deadline of a time to live that begins now. One of zero
needs none. -/
def Fits (now : Instant) (ttl : Span) : Prop :=
  ttl.isZero = true ∨ (now.after ttl).seconds < 0x8000000000000000

instance (now : Instant) (ttl : Span) : Decidable (Fits now ttl) :=
  inferInstanceAs (Decidable (_ ∨ _))

def deadlineOf (now : Instant) (ttl : Span) : Option Instant :=
  if ttl.isZero then none else some (now.after ttl)

section Calls

variable {m : Memory} {now : Instant} {key value : String} {ttl : Span}

/-- The deadline is computed or the call crashes, and `Fits` says which. The rest of the
module speaks of `Fits` and `deadlineOf` alone. -/
theorem deadline?_eq (now : Instant) (ttl : Span) :
    deadline? now ttl = if Fits now ttl then .ok (deadlineOf now ttl) else .error .crash := by
  by_cases hzero : ttl.isZero = true
  · rw [deadline?, if_pos hzero, if_pos (.inl hzero), deadlineOf, if_pos hzero]
  · rw [deadline?, if_neg hzero, deadlineOf, if_neg hzero, Instant.after?]
    by_cases hclock : (now.after ttl).seconds < 0x8000000000000000
    · rw [if_pos hclock, if_pos (.inr hclock)]
    · rw [if_neg hclock, if_neg (fun hfits => hfits.elim hzero hclock)]

/-- A deadline that could be computed is the instant one time to live later, and the clock
can hold it. -/
theorem deadline?_some {d : Instant} (h : deadline? now ttl = .ok (some d)) :
    d = now.after ttl ∧ d.seconds < 0x8000000000000000 := by
  rw [deadline?_eq, deadlineOf] at h
  split at h
  · rename_i hfits
    split at h
    · cases h
    · rename_i hpositive
      obtain rfl := Option.some.inj (Except.ok.inj h)
      exact ⟨rfl, hfits.resolve_left hpositive⟩
  · cases h

theorem deadline?_positive {deadline : Option Instant} (h : deadline? now ttl = .ok deadline)
    (hpositive : ttl.isZero = false) : deadline = some (now.after ttl) := by
  rw [deadline?_eq, deadlineOf, hpositive] at h
  split at h
  · exact (Except.ok.inj h).symm
  · cases h

theorem deadline?_error {failure : Failure} (h : deadline? now ttl = .error failure) :
    failure = .crash := by
  rw [deadline?_eq] at h
  split at h
  · cases h
  · exact (Except.error.inj h).symm

/-- A positive number of seconds fits if the clock can count them on. -/
theorem fits_ofSeconds (now : Instant) (n : Nat) :
    Fits now (.ofSeconds (n + 1)) ↔ now.seconds + (n + 1) < 0x8000000000000000 := by
  have hpositive : (Span.ofSeconds (n + 1)).isZero = false :=
    decide_eq_false (Nat.mul_ne_zero (Nat.succ_ne_zero n) (by decide))
  rw [Fits, hpositive, Instant.seconds_after_ofSeconds]
  exact or_iff_right Bool.false_ne_true

/-- What comes of a call that writes for a time to live: refused on a closed backend, done
if the clock has room for the deadline, and otherwise a crash after the expiry. -/
def Settles (m : Memory) (now : Instant) (ttl : Span) (call : Except Failure Unit × Memory)
    (written : Memory) : Prop :=
  m.closed = true ∧ call = (.error (.error .closed), m) ∨
  m.closed = false ∧
    (Fits now ttl ∧ call = (.ok (), written) ∨
      ¬ Fits now ttl ∧ call = (.error .crash, m.act now .sweep))

/-- A write of a value with a time to live, on an open backend or a closed one. -/
theorem settles_set (m : Memory) (now : Instant) (key value : String) (ttl : Span) :
    m.Settles now ttl (m.set now key value ttl)
      { m with store := (m.store.expire now).put key value (deadlineOf now ttl) } := by
  cases hclosed : m.closed with
  | true => exact .inl ⟨hclosed, by rw [set, if_pos hclosed]⟩
  | false =>
      refine .inr ⟨hclosed, ?_⟩
      simp only [set, hclosed, Bool.false_eq_true, if_false, deadline?_eq]
      by_cases hfits : Fits now ttl
      · exact .inl ⟨hfits, by rw [if_pos hfits]⟩
      · refine .inr ⟨hfits, ?_⟩
        rw [if_neg hfits, act, sweep, ← hclosed]

/-- A registration settles as a write does. Where it is done, the renewal of the key begins
with the same deadline. -/
theorem settles_keepAlive (m : Memory) (now : Instant) (key value : String) (ttl : Span) :
    m.Settles now ttl (m.keepAlive now key value ttl)
      (m.renewing now key value ttl (deadlineOf now ttl)) := by
  rw [keepAlive]
  rcases m.settles_set now key value ttl with
    ⟨hclosed, hset⟩ | ⟨hopen, ⟨hfits, hset⟩ | ⟨hbeyond, hset⟩⟩
  · exact .inl ⟨hclosed, by rw [hset]⟩
  · exact .inr ⟨hopen, .inl ⟨hfits, by rw [hset]; rfl⟩⟩
  · exact .inr ⟨hopen, .inr ⟨hbeyond, by rw [hset]⟩⟩

/-- A renewal that is awake moves the deadline on to one time to live from now, or ends
where the clock has no room for that. -/
theorem workJob_cases {i : Nat} {r : Renewal} (hjob : m.jobs[i]? = some (.renewal r))
    (hawake : r.phase = .awake) :
    Fits now r.ttl ∧
        (∃ version, (m.act now (.work i)).store.entries.get? r.key =
          some ⟨r.value, version, deadlineOf now r.ttl⟩) ∧
        .renewal { r with phase := .asleep (nextWake now r.ttl) } ∈ (m.act now (.work i)).jobs ∨
      ¬ Fits now r.ttl ∧ m.act now (.work i) = m.withoutJob i := by
  have hdeadline := deadline?_eq now r.ttl
  by_cases hfits : Fits now r.ttl
  · rw [if_pos hfits] at hdeadline
    exact .inl ⟨hfits, get?_workJob hjob hawake hdeadline⟩
  · rw [if_neg hfits] at hdeadline
    refine .inr ⟨hfits, ?_⟩
    simp only [act, workJob, hjob, hawake, renewOnce, hdeadline]

theorem counter_put {n : Int} (hlow : -0x8000000000000000 ≤ n) (hhigh : n < 0x8000000000000000)
    (s : Store) (key : String) :
    counter (s.put key (Decimal.showInt n) none) key = .ok n := by
  have hread : Decimal.readInt64 (Decimal.showInt n) = .ok n :=
    Decimal.readInt64_showInt hlow hhigh
  simp only [counter, Store.get?_put, if_true, hread]

end Calls

section Deadlines

variable {m : Memory} {now : Instant} {a : Action} {key : String} {d : Instant}
  {done : List (Instant × Action)}

def Action.asks (key : String) (ttl : Span) : Action → Prop
  | .set k _ t | .keepAlive k _ t => k = key ∧ t = ttl
  | _ => False

/-- A deadline is set by a call, or by a renewal, for its time to live from now on. -/
theorem sets_mem_updates {u : Store.Update} (hu : u ∈ m.updates now a) (hsets : u.sets key d) :
    ∃ ttl, deadline? now ttl = .ok (some d) ∧
      (a.asks key ttl ∨ ∃ i r, a = .work i ∧ .renewal r ∈ m.jobs ∧ r.key = key ∧ r.ttl = ttl) := by
  cases origin hu with
  | written _ ha hclock hput =>
      subst hput
      obtain ⟨rfl, rfl⟩ := hsets
      rcases ha with rfl | rfl <;> exact ⟨_, hclock, .inl ⟨rfl, rfl⟩⟩
  | @renewed i r deadline ha hjob _ hclock hrenewal =>
      have hset : r.key = key ∧ deadline = some d := by
        rw [hrenewal] at hsets
        rcases m.store.renewal_cases r.key r.value deadline with hextend | hput
        · rw [hextend] at hsets
          exact hsets
        · rw [hput] at hsets
          exact hsets
      obtain ⟨rfl, rfl⟩ := hset
      exact ⟨r.ttl, hclock, .inr ⟨i, r, ha, List.mem_of_getElem? hjob, rfl, rfl⟩⟩
  | counted _ _ _ hput =>
      subst hput
      cases hsets.2
  | expired _ hremove | deleted _ _ hremove =>
      subst hremove
      exact hsets.elim
  | aside haside => exact absurd hsets.touches (haside key)

/-- A deadline within the clock, one time to live after a call for the key or after a
renewal of one. -/
def Due (done : List (Instant × Action)) (key : String) (d : Instant) : Prop :=
  d.seconds < 0x8000000000000000 ∧ ∃ now a ttl, (now, a) ∈ done ∧ d = now.after ttl ∧
    (a.asks key ttl ∨ ∃ i called value, a = .work i ∧ (called, .keepAlive key value ttl) ∈ done)

/-- A deadline that is due by some run is due by every run that has all its calls. -/
theorem Due.mono {later : List (Instant × Action)} (h : Due done key d) (hsub : done ⊆ later) :
    Due later key d := by
  obtain ⟨hclock, now, a, ttl, hmem, hd, hasked⟩ := h
  refine ⟨hclock, now, a, ttl, hsub hmem, hd, ?_⟩
  exact hasked.imp_right fun ⟨i, called, value, ha, hcall⟩ => ⟨i, called, value, ha, hsub hcall⟩

/-- Renewals go on from calls of the run, and deadlines are due by it. -/
structure Timed (m : Memory) (done : List (Instant × Action)) : Prop where
  renewals : ∀ r, .renewal r ∈ m.jobs → ∃ called, (called, .keepAlive r.key r.value r.ttl) ∈ done
  deadlines : ∀ key e d, m.store.entries.get? key = some e → e.deadline = some d → Due done key d

namespace Timed

/-- A backend on which nothing has been done has no entry and no job. -/
theorem create (limit : Nat) : (create limit).Timed [] where
  renewals := nofun
  deadlines := nofun

/-- The step of the invariant: each deadline that an action sets is due by the run with that
action, and each renewal that it leaves goes on from a call. -/
theorem act (h : m.Timed done) (now : Instant) (a : Action) :
    (m.act now a).Timed (done ++ [(now, a)]) where
  renewals := by
    intro r hr
    rcases renewal_origin hr with ⟨r₀, hr₀, hbecomes⟩ | ⟨-, ha, -⟩
    · obtain ⟨called, hcall⟩ := h.renewals r₀ hr₀
      rw [hbecomes.key, hbecomes.value, hbecomes.ttl]
      exact ⟨called, List.mem_append_left _ hcall⟩
    · rw [ha]
      exact ⟨now, List.mem_append_right _ (List.mem_singleton_self _)⟩
  deadlines := by
    intro key e d he hd
    rw [store_act] at he
    rcases Store.deadline_applyAll he hd with ⟨u, hu, hsets⟩ | ⟨e₀, he₀, hd₀⟩
    · obtain ⟨ttl, hdeadline, hasked⟩ := sets_mem_updates hu hsets
      obtain ⟨hafter, hclock⟩ := deadline?_some hdeadline
      refine ⟨hclock, now, a, ttl, List.mem_append_right _ (List.mem_singleton_self _), hafter, ?_⟩
      -- What a renewal keeps of its call is enough to find that call in the run.
      rcases hasked with hasks | ⟨i, r, ha, hr, rfl, rfl⟩
      · exact .inl hasks
      · obtain ⟨called, hcall⟩ := h.renewals r hr
        exact .inr ⟨i, called, r.value, ha, List.mem_append_left _ hcall⟩
    · exact (h.deadlines key e₀ d he₀ hd₀).mono (List.subset_append_left _ _)

/-- Any run keeps a backend timed, its own calls added to those before. -/
theorem run (h : m.Timed done) (actions : List (Instant × Action)) :
    (m.run actions).Timed (done ++ actions) := by
  induction actions generalizing m done with
  | nil => rwa [List.append_nil]
  | cons a rest ih =>
      have hrest := ih (h.act a.1 a.2)
      rwa [List.append_assoc] at hrest

end Timed

end Deadlines

/-- Numbers are right within their limits, and at them a call crashes. After any run the
revision counts the changes that were made, and every deadline is due. An increment
answers one more than what is stored and leaves it stored, or else leaves everything as
it is: at the greatest number it crashes. A write and a registration set the deadline of
their time to live, or crash, having swept, if the clock has no room for it; and a
renewal then ends. A time to live from valid settings may be as long, since any that is
positive is valid. -/
theorem sound_within_limits (limit : Nat) (before : List (Instant × Action)) :
    let m := (create limit).run before
    m.store.revision = (changesOf ((create limit).log before)).length ∧
    (∀ key e d, m.store.entries.get? key = some e → e.deadline = some d → Due before key d) ∧
    (∀ key,
      m.closed = true ∧ m.increment key = (.error (.error .closed), m) ∨
      m.closed = false ∧
        ((∃ e, counter m.store key = .error e ∧ m.increment key = (.error (.error e), m)) ∨
          counter m.store key = .ok 0x7fffffffffffffff ∧ m.increment key = (.error .crash, m) ∨
          ∃ n counted, counter m.store key = .ok n ∧
            -0x8000000000000000 ≤ n ∧ n + 1 < 0x8000000000000000 ∧
            m.increment key = (.ok (n + 1), counted) ∧ counter counted.store key = .ok (n + 1))) ∧
    (∀ now key value ttl,
      m.Settles now ttl (m.set now key value ttl)
          { m with store := (m.store.expire now).put key value (deadlineOf now ttl) } ∧
        m.Settles now ttl (m.keepAlive now key value ttl)
          (m.renewing now key value ttl (deadlineOf now ttl))) ∧
    (∀ now i r, m.jobs[i]? = some (.renewal r) → r.phase = .awake →
      (∃ called, (called, .keepAlive r.key r.value r.ttl) ∈ before) ∧
        (Fits now r.ttl ∧ (∃ version, (m.act now (.work i)).store.entries.get? r.key =
            some ⟨r.value, version, deadlineOf now r.ttl⟩) ∨
          ¬ Fits now r.ttl ∧ m.act now (.work i) = m.withoutJob i)) ∧
    ∀ now (c : Config) n,
      { c with ttlSecs := n + 1 }.validate = { c with ttlSecs := 1 }.validate ∧
        (Fits now { c with ttlSecs := n + 1 }.ttl ↔ now.seconds + (n + 1) < 0x8000000000000000) := by
  intro m
  have htimed : m.Timed before := (Timed.create limit).run before
  refine ⟨(coherent_run limit before).revision_eq, htimed.deadlines, fun key => ?_,
    fun now key value ttl => ⟨m.settles_set .., m.settles_keepAlive ..⟩,
    fun now i r hjob hawake => ?_, fun now c n => ⟨c.validate_ttlSecs n, fits_ofSeconds now n⟩⟩
  · refine (m.increment_cases key).imp_right fun ⟨hopen, hcases⟩ => ⟨hopen, ?_⟩
    refine hcases.imp_right fun hcases => hcases.imp_right ?_
    rintro ⟨n, hcount, hlow, hnext, hcall⟩
    exact ⟨n, _, hcount, hlow, hnext, hcall, counter_put (by omega) hnext _ _⟩
  · refine ⟨htimed.renewals r (List.mem_of_getElem? hjob), ?_⟩
    exact (workJob_cases hjob hawake).imp_left fun ⟨hfits, hrenewed, _⟩ => ⟨hfits, hrenewed⟩

def sampleTimed : List (Instant × Action) := [
  (⟨0⟩, .set "n" "41" .zero), (⟨0⟩, .keepAlive "k" "v" (.ofMillis 30)),
  (⟨10 * nanosPerMilli⟩, .wake 0)]

/-- A counter is counted on, and a renewal that is awake moves its deadline on to forty
milliseconds; thirty milliseconds before the clock ends it would end too. -/
theorem sound_within_limits_renewed :
    let m := (create 8).run sampleTimed
    let r : Renewal := ⟨"k", "v", .ofMillis 30, .awake, false⟩
    let last : Instant := ⟨0x8000000000000000 * nanosPerSecond - 30 * nanosPerMilli⟩
    (m.increment "n").1 = .ok 42 ∧
      m.store.entries.get? "k" = some ⟨"v", 2, some ⟨30 * nanosPerMilli⟩⟩ ∧
      Due sampleTimed "k" ⟨30 * nanosPerMilli⟩ ∧
      m.jobs[0]? = some (.renewal r) ∧ r.phase = .awake ∧
      (∃ version, (m.act ⟨10 * nanosPerMilli⟩ (.work 0)).store.entries.get? "k" =
        some ⟨"v", version, some ⟨40 * nanosPerMilli⟩⟩) ∧
      m.act last (.work 0) = m.withoutJob 0 := by
  intro m r last
  obtain ⟨-, hdue, -, -, hrenewals, -⟩ := sound_within_limits 8 sampleTimed
  have hmoves := (hrenewals ⟨10 * nanosPerMilli⟩ 0 r rfl rfl).2
  have hlater : deadlineOf ⟨10 * nanosPerMilli⟩ r.ttl = some ⟨40 * nanosPerMilli⟩ := by decide
  rw [hlater] at hmoves
  have hends := (hrenewals last 0 r rfl rfl).2
  refine ⟨rfl, rfl, hdue "k" _ _ rfl rfl, rfl, rfl, ?_, ?_⟩
  · rcases hmoves with ⟨-, hmoved⟩ | ⟨hbeyond, -⟩
    · exact hmoved
    · exact absurd (by decide) hbeyond
  · rcases hends with ⟨hfits, -⟩ | ⟨-, hended⟩
    · exact absurd hfits (by decide)
    · exact hended

/-- At the greatest number an increment crashes, and so does a write for a time to live
that is valid in settings and leads beyond the clock. -/
theorem limits_crash :
    let m := (create 8).run [(⟨0⟩, .set "n" "9223372036854775807" .zero)]
    let c : Config := { Config.default with ttlSecs := 0xffffffffffffffff }
    (m.increment "n").1 = .error .crash ∧ c.validate = Config.default.validate ∧
      (m.set ⟨0⟩ "k" "v" c.ttl).1 = .error .crash ∧
      (m.keepAlive ⟨0⟩ "k" "v" c.ttl).1 = .error .crash :=
  ⟨rfl, rfl, rfl, rfl⟩

end Memory

end Rollcall
