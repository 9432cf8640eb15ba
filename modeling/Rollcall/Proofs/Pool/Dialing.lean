import Mathlib.Data.List.Range
import Rollcall.Pool

/-!
The attempts of one get. It takes its steps at the turns of a schedule, each with an
instant and with what chance adds to a delay, and its attempts end as the connector, which
nobody else uses meanwhile, has it: any sequence of outcomes may come (`outcome_following`).
A log keeps the attempts and the rests between them. Main statement: `dial_settles`, with
`round`, what one attempt leads to.
-/

namespace Rollcall

namespace Dialing

open Getting (Shared)

variable {σ γ : Type}

section Outcomes

variable (c : Connector σ γ) (target : String) (state : σ)

/-- What the connector depends on after `k` attempts. -/
def stateAt : Nat → σ
  | 0 => state
  | k + 1 => (c.connect target (stateAt k)).2

def outcome (k : Nat) : Except Error γ := (c.connect target (stateAt c target state k)).1

end Outcomes

def following (o : Nat → Except Error γ) : Connector Nat γ where
  validate _ := .ok ()
  connect _ k := (o k, k + 1)

theorem outcome_following (o : Nat → Except Error γ) (target : String) :
    outcome (following o) target 0 = o := by
  have hstate (k : Nat) : stateAt (following o) target 0 k = k := by
    induction k with
    | zero => rfl
    | succ k ih => rw [stateAt, ih]; rfl
  funext k
  rw [outcome, hstate]
  rfl

def Transient (outcome : Except Error γ) : Prop := ∃ e, outcome = .error e ∧ e.isFatal = false

/-- What a get shows to the outside. -/
inductive Act (γ : Type) where
  | attempt (now : Instant) (outcome : Except Error γ)
  | rest (since wakeAt : Instant)

def Act.outcome? : Act γ → Option (Except Error γ)
  | .attempt _ outcome => some outcome
  | .rest .. => none

def shown (now : Instant) : Getting γ → Getting γ → Option (Act γ)
  | .dialing _, .connecting _ outcome => some (.attempt now outcome)
  | .connecting .., .resting _ wakeAt => some (.rest now wakeAt)
  | _, _ => none

/-- A get, at its stage unless it has crashed, and what it has shown. -/
structure Dial (σ γ : Type) where
  stage? : Option (Getting γ)
  shared : Shared σ γ
  acts : List (Act γ)

/-- An instant, and what chance adds to a delay that begins there. -/
abbrev Turn := Instant × Float

def Dial.step (c : Connector σ γ) (b : Backoff) (target : String) (turn : Turn) (d : Dial σ γ) :
    Dial σ γ :=
  match d.stage? with
  | none => d
  | some g =>
      match g.step c b turn.2 target turn.1 d.shared with
      | none => { d with stage? := none }
      | some (g', shared) => ⟨some g', shared, d.acts ++ (shown turn.1 g g').toList⟩

/-- The get after its first `i` turns, from its first attempt on. -/
def after (c : Connector σ γ) (b : Backoff) (target : String) (turns : Nat → Turn)
    (s : Shared σ γ) : Nat → Dial σ γ
  | 0 => ⟨some (.dialing 0), s, []⟩
  | i + 1 => (after c b target turns s i).step c b target (turns i)

/-- Time does not go back, and goes on for ever. -/
structure Clock (turns : Nat → Turn) : Prop where
  mono : ∀ i j, i ≤ j → (turns i).1 ≤ (turns j).1
  unbounded : ∀ t : Instant, ∃ i, t ≤ (turns i).1

/-- So many attempts that failed for the time being, each followed by one rest with the
delay for the failures before it. The next attempt is to be made at `ready` or later. -/
inductive Rounds (b : Backoff) (turns : Nat → Turn) (o : Nat → Except Error γ) :
    Nat → Instant → List (Act γ) → Prop where
  | start : Rounds b turns o 0 ⟨0⟩ []
  | more {k : Nat} {ready : Instant} {acts : List (Act γ)} (h : Rounds b turns o k ready acts)
      {i m : Nat} (hready : ready ≤ (turns i).1) (htransient : Transient (o k)) (hlater : i < m)
      {delay : Span} (hdelay : b.delay? k (turns m).2 = some delay) :
      Rounds b turns o (k + 1) ((turns m).1.after delay).wake
        (acts ++ [.attempt (turns i).1 (o k),
          .rest (turns m).1 ((turns m).1.after delay).wake])

section

variable {c : Connector σ γ} {b : Backoff} {target : String} {turns : Nat → Turn}
  {s : Shared σ γ} {o : Nat → Except Error γ} {k : Nat} {ready : Instant} {acts : List (Act γ)}

/-- Each attempt before the next one has failed with an error that another attempt may mend. -/
theorem Rounds.transient (h : Rounds b turns o k ready acts) : ∀ j < k, Transient (o j) := by
  induction h with
  | start => exact fun j hj => absurd hj (Nat.not_lt_zero j)
  | more h hready htransient hlater hdelay ih =>
      intro j hj
      rcases Nat.lt_succ_iff_lt_or_eq.mp hj with hlt | rfl
      · exact ih j hlt
      · exact htransient

theorem Rounds.outcomes (h : Rounds b turns o k ready acts) :
    acts.filterMap Act.outcome? = (List.range k).map o := by
  induction h with
  | start => rfl
  | more h hready htransient hlater hdelay ih =>
      rw [List.filterMap_append, ih, List.range_succ, List.map_append]
      rfl

end

/-- How a get is over with attempt `k`: it answers what came of it, as that was the last
attempt or no other could mend it, or it crashes for want of a delay. -/
def Over (b : Backoff) (turns : Nat → Turn) (k : Nat) (outcome : Except Error γ)
    (stage? : Option (Getting γ)) : Prop :=
  stage? = some (.finished outcome) ∧ (¬ Transient outcome ∨ k + 1 = b.attempts) ∨
    stage? = none ∧ Transient outcome ∧ k + 1 < b.attempts ∧ ∃ m, b.delay? k (turns m).2 = none

section

variable {c : Connector σ γ} {b : Backoff} {target : String} {turns : Nat → Turn}
  {s shared : Shared σ γ} {pool : Pool γ} {i k : Nat} {acts : List (Act γ)}

/-- An attempt takes one turn, shows its outcome, and moves the connector on by one call. -/
theorem after_dialing {state : σ}
    (h : after c b target turns s i =
      ⟨some (.dialing k), ⟨pool, stateAt c target state k⟩, acts⟩) :
    after c b target turns s (i + 1) =
      ⟨some (.connecting k (outcome c target state k)), ⟨pool, stateAt c target state (k + 1)⟩,
        acts ++ [.attempt (turns i).1 (outcome c target state k)]⟩ := by
  rw [after, h]
  rfl

theorem after_connecting {outcome : Except Error γ} (hk : k < b.attempts)
    (h : after c b target turns s i = ⟨some (.connecting k outcome), shared, acts⟩) :
    (∃ stage? pool, Over b turns k outcome stage? ∧
      after c b target turns s (i + 1) = ⟨stage?, ⟨pool, shared.state⟩, acts⟩) ∨
      Transient outcome ∧ k + 1 < b.attempts ∧
      ∃ delay, b.delay? k (turns i).2 = some delay ∧
        after c b target turns s (i + 1) =
          ⟨some (.resting (k + 1) ((turns i).1.after delay).wake), shared,
            acts ++ [.rest (turns i).1 ((turns i).1.after delay).wake]⟩ := by
  rw [after, h]
  cases outcome with
  | ok connection =>
      have hsettled : ¬ Transient (.ok connection : Except Error γ) := by
        rintro ⟨e, he, -⟩
        cases he
      exact .inl ⟨_, ⟨shared.pool.connections.insert target connection⟩, .inl ⟨rfl, .inl hsettled⟩,
        by simp [Dial.step, Getting.step, shown]⟩
  | error e =>
      cases hfatal : e.isFatal with
      | true =>
          have hsettled : ¬ Transient (.error e : Except Error γ) := by
            rintro ⟨other, hother, hmends⟩
            rw [← Except.error.inj hother, hfatal] at hmends
            cases hmends
          exact .inl ⟨_, shared.pool, .inl ⟨rfl, .inl hsettled⟩,
            by simp [Dial.step, Getting.step, Getting.afterFailure, hfatal, shown]⟩
      | false =>
          have htransient : Transient (.error e : Except Error γ) := ⟨e, rfl, hfatal⟩
          by_cases hlast : b.attempts ≤ k + 1
          · exact .inl ⟨_, shared.pool, .inl ⟨rfl, .inr (Nat.le_antisymm hk hlast)⟩,
              by simp [Dial.step, Getting.step, Getting.afterFailure, hlast, shown]⟩
          · have hmore : k + 1 < b.attempts := Nat.not_le.mp hlast
            cases hdelay : b.delay? k (turns i).2 with
            | none =>
                exact .inl ⟨_, shared.pool, .inr ⟨rfl, htransient, hmore, i, hdelay⟩,
                  by simp [Dial.step, Getting.step, Getting.afterFailure, hfatal, hlast, hdelay]⟩
            | some delay =>
                exact .inr ⟨htransient, hmore, delay, rfl,
                  by simp [Dial.step, Getting.step, Getting.afterFailure, hfatal, hlast, hdelay,
                    shown]⟩

/-- A rest that is due ends with the next attempt, and shows nothing. -/
theorem after_due {wakeAt : Instant} (hdue : wakeAt ≤ (turns i).1)
    (h : after c b target turns s i = ⟨some (.resting k wakeAt), shared, acts⟩) :
    after c b target turns s (i + 1) = ⟨some (.dialing k), shared, acts⟩ := by
  have hawake : ¬ (turns i).1 < wakeAt := Nat.not_lt.mpr hdue
  rw [after, h]
  simp [Dial.step, Getting.step, hawake, shown]

theorem after_resting (hclock : Clock turns) {wakeAt : Instant}
    (h : after c b target turns s i = ⟨some (.resting k wakeAt), shared, acts⟩) :
    ∃ j, wakeAt ≤ (turns j).1 ∧
      after c b target turns s j = ⟨some (.dialing k), shared, acts⟩ := by
  obtain ⟨late, hlate⟩ := hclock.unbounded wakeAt
  -- on the number of turns that may still be too early
  obtain ⟨n, hn⟩ : ∃ n, late ≤ i + n := ⟨late, Nat.le_add_left _ _⟩
  induction n generalizing i with
  | zero =>
      have hdue : wakeAt ≤ (turns i).1 := Nat.le_trans hlate (hclock.mono late i hn)
      exact ⟨i + 1, Nat.le_trans hdue (hclock.mono i (i + 1) (Nat.le_succ i)), after_due hdue h⟩
  | succ n ih =>
      by_cases hdue : wakeAt ≤ (turns i).1
      · exact ⟨i + 1, Nat.le_trans hdue (hclock.mono i (i + 1) (Nat.le_succ i)), after_due hdue h⟩
      · have hearly : (turns i).1 < wakeAt := Nat.not_le.mp hdue
        refine ih (i := i + 1) ?_ (by omega)
        rw [after, h]
        simp [Dial.step, Getting.step, hearly, shown]

/-- One attempt: it is the last, or after a rest the next one is made. -/
theorem round (hclock : Clock turns) {state : σ} (hk : k < b.attempts)
    (h : after c b target turns s i =
      ⟨some (.dialing k), ⟨pool, stateAt c target state k⟩, acts⟩) :
    let o := outcome c target state
    (∃ j stage? pool, Over b turns k (o k) stage? ∧ after c b target turns s j =
      ⟨stage?, ⟨pool, stateAt c target state (k + 1)⟩, acts ++ [.attempt (turns i).1 (o k)]⟩) ∨
    Transient (o k) ∧ k + 1 < b.attempts ∧
      ∃ m delay j, i < m ∧ b.delay? k (turns m).2 = some delay ∧
      ((turns m).1.after delay).wake ≤ (turns j).1 ∧ after c b target turns s j =
        ⟨some (.dialing (k + 1)), ⟨pool, stateAt c target state (k + 1)⟩,
          acts ++ [.attempt (turns i).1 (o k),
            .rest (turns m).1 ((turns m).1.after delay).wake]⟩ := by
  intro o
  rcases after_connecting hk (after_dialing h) with
    ⟨stage?, pool, hover, hafter⟩ | ⟨htransient, hmore, delay, hdelay, hafter⟩
  · exact .inl ⟨i + 2, stage?, pool, hover, hafter⟩
  · obtain ⟨j, hdue, hnext⟩ := after_resting hclock hafter
    rw [List.append_assoc] at hnext
    exact .inr ⟨htransient, hmore, i + 1, delay, j, Nat.lt_succ_self i, hdelay, hdue, hnext⟩

theorem after_over {outcome : Except Error γ}
    (h : Over b turns k outcome (after c b target turns s i).stage?) (n : Nat) :
    after c b target turns s (i + n) = after c b target turns s i := by
  have hstep (turn : Turn) :
      (after c b target turns s i).step c b target turn = after c b target turns s i := by
    generalize after c b target turns s i = d at h ⊢
    obtain ⟨stage?, shared, acts⟩ := d
    rcases h with ⟨hstage, -⟩ | ⟨hstage, -⟩ <;> cases hstage
    · simp [Dial.step, Getting.step, shown]
    · rfl
  induction n with
  | zero => rfl
  | succ n ih => rw [← Nat.add_assoc, after, ih, hstep]

/-- Attempts come to an end, for each raises the number of failures. -/
theorem settles_from (hclock : Clock turns) {state : σ} {ready : Instant} (hk : k < b.attempts)
    (hrounds : Rounds b turns (outcome c target state) k ready acts) (hready : ready ≤ (turns i).1)
    (h : after c b target turns s i =
      ⟨some (.dialing k), ⟨pool, stateAt c target state k⟩, acts⟩) :
    let o := outcome c target state
    ∃ i j ready now rounds stage? pool, j < b.attempts ∧ Rounds b turns o j ready rounds ∧
      ready ≤ now ∧ Over b turns j (o j) stage? ∧ after c b target turns s i =
        ⟨stage?, ⟨pool, stateAt c target state (j + 1)⟩, rounds ++ [.attempt now (o j)]⟩ := by
  intro o
  obtain ⟨left, hleft⟩ : ∃ left, b.attempts ≤ k + left := ⟨b.attempts, Nat.le_add_left _ _⟩
  induction left generalizing k i ready acts pool with
  | zero => omega
  | succ left ih =>
      rcases round hclock hk h with ⟨j, stage?, pool, hover, hafter⟩ |
        ⟨htransient, hmore, m, delay, j, hlater, hdelay, hdue, hafter⟩
      · exact ⟨j, k, ready, (turns i).1, acts, stage?, pool, hk, hrounds, hready, hover, hafter⟩
      · exact ih hmore (.more hrounds hready htransient hlater hdelay) hdue hafter (by omega)

end

/-- A get ends. With `n` attempts at most, at least one, it makes attempts until one
succeeds, fails for good or is the `n`-th, and answers what came of that. Each attempt
before was followed by one rest, with the delay for the failures before it, and by no other
attempt until that was over; the last attempt is followed by none. There is one exception:
a get that needs a delay which cannot be computed crashes. -/
theorem dial_settles (c : Connector σ γ) (b : Backoff) (target : String) (s : Shared σ γ)
    {turns : Nat → Turn} (hclock : Clock turns) :
    let o := outcome c target s.state
    let dial := after c b target turns s
    ∃ i j ready now rounds, j < b.attempts ∧
      Rounds b turns o j ready rounds ∧ ready ≤ now ∧ (∀ k < j, Transient (o k)) ∧
      Over b turns j (o j) (dial i).stage? ∧
      (dial i).shared.state = stateAt c target s.state (j + 1) ∧
      (dial i).acts = rounds ++ [.attempt now (o j)] ∧
      (dial i).acts.filterMap Act.outcome? = (List.range (j + 1)).map o ∧
      ∀ later ≥ i, dial later = dial i := by
  intro o dial
  have hattempts : 0 < b.attempts := Nat.le_max_right _ _
  have hstart : dial 0 = ⟨some (.dialing 0), ⟨s.pool, stateAt c target s.state 0⟩, []⟩ := rfl
  obtain ⟨i, j, ready, now, rounds, stage?, pool, hj, hrounds, hready, hover, hafter⟩ :=
    settles_from hclock hattempts .start (Nat.zero_le _) hstart
  have hdial : dial i = _ := hafter
  have hstage : Over b turns j (o j) (dial i).stage? := by
    rw [hdial]
    exact hover
  refine ⟨i, j, ready, now, rounds, hj, hrounds, hready, hrounds.transient, hstage,
    congrArg (fun d => d.shared.state) hdial, congrArg Dial.acts hdial, ?_, ?_⟩
  · rw [hdial, List.filterMap_append, hrounds.outcomes, List.range_succ, List.map_append]
    rfl
  · intro later hlater
    obtain ⟨n, rfl⟩ := Nat.exists_eq_add_of_le hlater
    exact after_over hstage n

/-- A turn each second, without chance. -/
def seconds (i : Nat) : Turn := (⟨i * nanosPerSecond⟩, 0.0)

theorem clock_seconds : Clock seconds where
  mono _ _ hle := Nat.mul_le_mul_right nanosPerSecond hle
  unbounded t := ⟨t.nanos, Nat.le_mul_of_pos_right t.nanos (by decide)⟩

def sampleOutcome (k : Nat) : Except Error Nat :=
  if k = 0 then .error (.connect "t" "down") else .ok k

def samplePolicy : Backoff := .create 3 (.ofSeconds 2) (.ofSeconds 10)

/-- A get with this policy, after its first `i` turns. -/
def sampleDial (b : Backoff) (i : Nat) : Dial Nat Nat :=
  after (following sampleOutcome) b "t" seconds ⟨.empty, 0⟩ i

theorem transient_first : Transient (sampleOutcome 0) := ⟨.connect "t" "down", rfl, rfl⟩

/-- The get rests for the first delay and ends with the second connection. -/
theorem dial_settles_second :
    ∃ i, (sampleDial samplePolicy i).stage? = some (.finished (.ok 1)) ∧
      (sampleDial samplePolicy i).acts.filterMap Act.outcome? =
        [.error (.connect "t" "down"), .ok 1] := by
  have hdelay : samplePolicy.delay? 0 0.0 = some (.ofSeconds 2) := by decide +kernel
  have hsecond : ¬ Transient (sampleOutcome 1) := by
    rintro ⟨e, he, -⟩
    cases he
  obtain ⟨i, j, ready, now, rounds, -, -, -, hbefore, hover, -, -, houtcomes, -⟩ :=
    dial_settles (following sampleOutcome) samplePolicy "t" ⟨.empty, 0⟩ clock_seconds
  rw [outcome_following] at hbefore hover houtcomes
  have hle : j ≤ 1 := Nat.not_lt.mp (fun hlt => hsecond (hbefore 1 hlt))
  rcases Nat.le_one_iff_eq_zero_or_eq_one.mp hle with rfl | rfl
  · rcases hover with ⟨-, hsettled | hlast⟩ | ⟨-, -, -, m, hnone⟩
    · exact absurd transient_first hsettled
    · cases hlast
    · cases hdelay.symm.trans hnone
  · rcases hover with ⟨hstage, -⟩ | ⟨-, htransient, -⟩
    · exact ⟨i, hstage, houtcomes⟩
    · exact absurd htransient hsecond

/-- With a jitter that is no number there is no first delay: the get crashes after one
attempt, although the next of its three would succeed. -/
theorem dial_crashes :
    let b := samplePolicy.withJitter (0.0 / 0.0)
    b.attempts = 3 ∧ Transient (sampleOutcome 0) ∧ sampleOutcome 1 = .ok 1 ∧
      ∀ i, (sampleDial b (2 + i)).stage? = none ∧
        (sampleDial b (2 + i)).acts.filterMap Act.outcome? = [sampleOutcome 0] := by
  intro b
  have hdelay : b.delay? 0 0.0 = none := by decide +kernel
  have hattempt : sampleDial b 1 =
      ⟨some (.connecting 0 (sampleOutcome 0)), ⟨.empty, 1⟩,
        [.attempt (seconds 0).1 (sampleOutcome 0)]⟩ := rfl
  refine ⟨rfl, transient_first, rfl, fun i => ?_⟩
  rcases after_connecting (by decide) hattempt with
    ⟨stage?, pool, hover, hafter⟩ | ⟨-, -, delay, hsome, -⟩
  · have hcrashed : sampleDial b 2 = _ := hafter
    have hended : Over b seconds 0 (sampleOutcome 0) (sampleDial b 2).stage? := by
      rw [hcrashed]
      exact hover
    have hstays : sampleDial b (2 + i) = sampleDial b 2 := after_over hended i
    rcases hover with ⟨-, hsettled | hlast⟩ | ⟨rfl, -⟩
    · exact absurd transient_first hsettled
    · cases hlast
    · rw [hstays, hcrashed]
      exact ⟨rfl, rfl⟩
  · cases hdelay.symm.trans hsome

end Dialing

end Rollcall
