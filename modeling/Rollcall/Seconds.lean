import Rollcall.Time

/-!
Spans as seconds in double arithmetic. Going back, the exact value of the double
is rounded to the nearest nanosecond, a half to the even one.
-/

namespace Rollcall

/-- `n / d` rounded to the nearest integer, a half to the even one. -/
def roundHalfEven (n d : Nat) : Nat :=
  let q := n / d
  let twice := 2 * (n % d)
  if twice < d then q
  else if d < twice then q + 1
  else q + q % 2

/-- A nonnegative finite double is `significand * 2 ^ exponent`. -/
def Float.parts (x : Float) : Nat × Int :=
  let bits : Nat := x.toBits.toNat % 0x8000000000000000
  let fraction : Nat := bits % 0x10000000000000
  let biased : Nat := bits / 0x10000000000000
  if biased = 0 then (fraction, -1074) else (0x10000000000000 + fraction, (biased : Int) - 1075)

namespace Span

def toSeconds (s : Span) : Float :=
  Float.ofNat s.seconds + Float.ofNat s.subsecNanos / 1e9

/-- Negative values, values from `2 ^ 64` seconds up and what is no number are no
spans. -/
def ofSeconds? (x : Float) : Option Span :=
  if 0.0 ≤ x ∧ x < 18446744073709551616.0 then
    let (m, e) := Float.parts x
    some ⟨roundHalfEven (m * Nat.pow 2 e.toNat * nanosPerSecond) (Nat.pow 2 (-e).toNat)⟩
  else none

/-- Whole seconds, rounded up in double arithmetic, at least one; 64 signed bits
hold them. -/
def leaseSeconds (s : Span) : Int :=
  max 1 s.toSeconds.ceil.toInt64.toInt

end Span

end Rollcall
