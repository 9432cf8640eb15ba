import Rollcall.Config
import Rollcall.Seconds

/-!
Delays between attempts: they grow by a factor with each failure up to a limit,
and may be spread at random by a share of their length. Delays are computed as
seconds in double arithmetic; one that is no span of time ends the process.
-/

namespace Rollcall

structure Backoff where
  maxAttempts : Nat
  base : Span
  limit : Span
  multiplier : Float
  jitter : Float

namespace Backoff

def create (maxAttempts : Nat) (base limit : Span) : Backoff :=
  ⟨maxAttempts, base, limit, 2.0, 0.0⟩

/-- A factor never makes delays shorter. -/
def withMultiplier (b : Backoff) (multiplier : Float) : Backoff :=
  { b with multiplier := if 1.0 ≤ multiplier then multiplier else 1.0 }

/-- The share lies between nothing and all; what is no number stays none. -/
def withJitter (b : Backoff) (jitter : Float) : Backoff :=
  { b with jitter := if jitter < 0.0 then 0.0 else if 1.0 < jitter then 1.0 else jitter }

def ofPool (c : PoolConfig) : Backoff :=
  ((create c.maxAttempts (.ofMillis c.baseDelayMs) (.ofMillis c.maxDelayMs)).withMultiplier
    c.multiplier).withJitter c.jitter

/-- `r * m ^ n` by repeated squaring. -/
def timesPower (r m : Float) (n : Nat) : Float :=
  let r := if n % 2 = 1 then r * m else r
  if 2 ≤ n then timesPower r (m * m) (n / 2) else r
termination_by n
decreasing_by omega

def power (m : Float) (n : Nat) : Float := timesPower 1.0 m n

/-- The lesser of two doubles, the other one if the first is no number. -/
def lesser (x y : Float) : Float := if x ≤ y then x else y

/-- From the 64th failure on the delay grows no further. -/
def growthLimit : Nat := 64

/-- The delay after `failures` earlier failures, before it is spread. -/
def baseDelay? (b : Backoff) (failures : Nat) : Option Span :=
  let seconds := b.base.toSeconds * power b.multiplier (min failures growthLimit)
  Span.ofSeconds? (lesser seconds b.limit.toSeconds)

def isSpread (b : Backoff) : Bool := b.jitter != 0.0

/-- The delay with a spread drawn from the interval between minus and plus the
jitter; nothing can be drawn if that is no number. -/
def delay? (b : Backoff) (failures : Nat) (spread : Float) : Option Span :=
  match b.baseDelay? failures with
  | none => none
  | some base =>
      if !b.isSpread then Span.ofSeconds? base.toSeconds
      else if b.jitter.isNaN then none
      else
        let seconds := base.toSeconds * (1.0 + spread)
        Span.ofSeconds? (if 0.0 ≤ seconds then seconds else 0.0)

/-- At least one attempt is made. -/
def attempts (b : Backoff) : Nat := max b.maxAttempts 1

end Backoff

end Rollcall
