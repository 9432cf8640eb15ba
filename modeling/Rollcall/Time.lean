/-!
Spans of time and instants, counted in nanoseconds. A clock instant holds its
seconds in 64 signed bits, so adding a span to it can leave its range; timers
wake on whole milliseconds.
-/

namespace Rollcall

def nanosPerSecond : Nat := 1000000000
def nanosPerMilli : Nat := 1000000

structure Span where
  nanos : Nat
deriving DecidableEq, Repr

namespace Span

def zero : Span := ⟨0⟩
def ofSeconds (n : Nat) : Span := ⟨n * nanosPerSecond⟩
def ofMillis (n : Nat) : Span := ⟨n * nanosPerMilli⟩

def isZero (s : Span) : Bool := s.nanos = 0
def seconds (s : Span) : Nat := s.nanos / nanosPerSecond
def subsecNanos (s : Span) : Nat := s.nanos % nanosPerSecond
def millis (s : Span) : Nat := s.nanos / nanosPerMilli

/-- Whole milliseconds as a 64-bit word keeps them. -/
def millisWord (s : Span) : Nat := s.millis % 0x10000000000000000

end Span

structure Instant where
  nanos : Nat
deriving DecidableEq, Repr

namespace Instant

instance : LT Instant := ⟨fun a b => a.nanos < b.nanos⟩
instance : LE Instant := ⟨fun a b => a.nanos ≤ b.nanos⟩
instance : DecidableLT Instant := fun a b => inferInstanceAs (Decidable (a.nanos < b.nanos))
instance : DecidableLE Instant := fun a b => inferInstanceAs (Decidable (a.nanos ≤ b.nanos))

def seconds (t : Instant) : Nat := t.nanos / nanosPerSecond

/-- The clock has run for an hour when a process starts to use it. -/
def start : Instant := ⟨3600 * nanosPerSecond⟩

def after (t : Instant) (s : Span) : Instant := ⟨t.nanos + s.nanos⟩

/-- The instant `s` after `t`, if its seconds still fit 64 signed bits. -/
def after? (t : Instant) (s : Span) : Option Instant :=
  if (t.after s).seconds < 0x8000000000000000 then some (t.after s) else none

/-- Timers wake on whole milliseconds, never early. -/
def wake (t : Instant) : Instant :=
  ⟨(t.nanos + (nanosPerMilli - 1)) / nanosPerMilli * nanosPerMilli⟩

end Instant

/-- Renewals are never closer together than this. -/
def minRenewalInterval : Span := .ofMillis 10

/-- A third of the time to live, rounded down to the nanosecond, but no less
than the floor. -/
def renewalInterval (ttl : Span) : Span :=
  ⟨max (ttl.nanos / 3) minRenewalInterval.nanos⟩

end Rollcall
