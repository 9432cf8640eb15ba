import Rollcall.Backend
import Rollcall.Decimal.Integer
import Rollcall.Store

/-!
The backend in memory: a store, with jobs that renew registrations and sweep
overdue entries. Jobs stand in the order in which they set their timers; those
that are ready take one turn each, in that order.
-/

namespace Rollcall

/-- A renewal job sleeps until its timer; awake, it has still to renew. -/
inductive Phase where
  | asleep (wakeAt : Instant)
  | awake
deriving DecidableEq, Repr

structure Renewal where
  key : String
  value : String
  ttl : Span
  phase : Phase
  cancelled : Bool
deriving DecidableEq, Repr

structure Sweeper where
  interval : Span
  next : Instant
deriving DecidableEq, Repr

inductive MemoryJob where
  | renewal (r : Renewal)
  | sweeper (w : Sweeper)
deriving DecidableEq, Repr

def Phase.isDue (now : Instant) : Phase → Bool
  | .asleep t => t ≤ now
  | .awake => true

def Phase.wakeAt? : Phase → Option Instant
  | .asleep t => some t
  | .awake => none

/-- Told to stop, a job ends in its sleep; one whose timer is due as well renews all
the same. -/
def Renewal.wake? (now : Instant) (stopped : Bool) (r : Renewal) : Option Renewal :=
  if stopped && !r.phase.isDue now then none else some { r with phase := .awake }

/-- The next tick after `now`; ticks stay whole intervals apart. -/
def Sweeper.nextAfter (w : Sweeper) (now : Instant) : Instant :=
  ⟨w.next.nanos + w.interval.nanos * ((now.nanos - w.next.nanos) / w.interval.nanos + 1)⟩

def MemoryJob.wakeAt? : MemoryJob → Option Instant
  | .renewal r => r.phase.wakeAt?
  | .sweeper w => some w.next.wake

structure Memory where
  store : Store
  closed : Bool
  jobs : List MemoryJob
deriving DecidableEq

namespace Memory

def create (historyLimit : Nat) : Memory := ⟨.create historyLimit, false, []⟩

/-- No deadline for a zero time to live; none at all if it lies beyond the clock. -/
def deadline? (now : Instant) (ttl : Span) : Except Failure (Option Instant) :=
  if ttl.isZero then .ok none
  else
    match now.after? ttl with
    | some d => .ok (some d)
    | none => .error .crash

def set (now : Instant) (key value : String) (ttl : Span) (m : Memory) :
    Except Failure Unit × Memory :=
  if m.closed then (.error (.error .closed), m)
  else
    let store := m.store.expire now
    match deadline? now ttl with
    | .error f => (.error f, { m with store })
    | .ok deadline => (.ok (), { m with store := store.put key value deadline })

def get (now : Instant) (scope : Scope) (m : Memory) : Except Failure Listing × Memory :=
  if m.closed then (.error (.error .closed), m)
  else
    let store := m.store.expire now
    (.ok ⟨store.scan scope, store.revision⟩, { m with store })

def cancelRenewal (key : String) : MemoryJob → MemoryJob
  | .renewal r => .renewal (if r.key = key then { r with cancelled := true } else r)
  | .sweeper w => .sweeper w

def delete (key : String) (m : Memory) : Except Failure Unit × Memory :=
  if m.closed then (.error (.error .closed), m)
  else
    (.ok (), { m with store := m.store.remove key, jobs := m.jobs.map (cancelRenewal key) })

/-- The number under a key, zero if there is none. -/
def counter (s : Store) (key : String) : Except Error Int :=
  match s.entries.get? key with
  | none => .ok 0
  | some e =>
      match Decimal.readInt64 e.value with
      | .ok n => .ok n
      | .error fault =>
          .error (.backend "incr" ("counter " ++ key ++ " is not an integer: " ++ fault.message))

/-- Counters are 64-bit; one more than the greatest is no number. -/
def increment (key : String) (m : Memory) : Except Failure Int × Memory :=
  if m.closed then (.error (.error .closed), m)
  else
    match counter m.store key with
    | .error e => (.error (.error e), m)
    | .ok n =>
        if n + 1 < 0x8000000000000000 then
          (.ok (n + 1), { m with store := m.store.put key (Decimal.showInt (n + 1)) none })
        else (.error .crash, m)

def watch (now : Instant) (scope : Scope) (version : Int) (m : Memory) :
    Except Failure Nat × Memory :=
  if m.closed then (.error (.error .closed), m)
  else
    let (id, store) := (m.store.expire now).watch scope version
    (.ok id, { m with store })

def nextWake (now : Instant) (ttl : Span) : Instant :=
  (now.after (renewalInterval ttl)).wake

/-- A new registration of a key stops the renewal of the one before. -/
def keepAlive (now : Instant) (key value : String) (ttl : Span) (m : Memory) :
    Except Failure Unit × Memory :=
  match m.set now key value ttl with
  | (.error f, m) => (.error f, m)
  | (.ok (), m) =>
      let renewal := ⟨key, value, ttl, .asleep (nextWake now ttl), false⟩
      (.ok (), { m with jobs := m.jobs.map (cancelRenewal key) ++ [.renewal renewal] })

/-- Closing stops every job and every watch; the entries stay as they are. -/
def close (m : Memory) : Memory :=
  if m.closed then m
  else
    { m with
      closed := true
      store := { m.store with channels := m.store.channels.closeAll } }

def receive (id : Nat) (m : Memory) : Received × Memory :=
  let (found, channels) := m.store.channels.receive id
  (found, { m with store := { m.store with channels } })

def dropWatch (id : Nat) (m : Memory) : Memory :=
  { m with store := { m.store with channels := m.store.channels.drop id } }

def drain (id : Nat) (m : Memory) : Option (List Event × Bool) × Memory :=
  let (found, channels) := m.store.channels.drain id
  (found, { m with store := { m.store with channels } })

def sweep (now : Instant) (m : Memory) : Nat × Memory :=
  ((m.store.overdue now).length, { m with store := m.store.expire now })

/-- A sweeper that never rests between sweeps does not run. -/
def addSweeper (now : Instant) (interval : Span) (m : Memory) : Memory :=
  if interval.isZero then m else { m with jobs := m.jobs ++ [.sweeper ⟨interval, now⟩] }

def refreshAll (m : Memory) : Memory :=
  { m with store := { m.store with channels := m.store.channels.broadcast .refresh } }

/-- Renews once and sleeps again. A deadline beyond the clock ends the job. -/
def renewOnce (now : Instant) (r : Renewal) (m : Memory) : Memory :=
  match deadline? now r.ttl with
  | .error _ => m
  | .ok deadline =>
      { m with
        store := m.store.renew r.key r.value deadline
        jobs := m.jobs ++ [.renewal { r with phase := .asleep (nextWake now r.ttl) }] }

def sweepOnce (now : Instant) (w : Sweeper) (m : Memory) : Memory :=
  { m with
    store := m.store.expire now
    jobs := m.jobs ++ [.sweeper { w with next := w.nextAfter now }] }

/-- A job whose timer is due or that is told to stop has something to do. -/
def isReady (m : Memory) (now : Instant) : MemoryJob → Bool
  | .renewal r => m.closed || r.cancelled || r.phase.isDue now
  | .sweeper w => m.closed || w.next ≤ now

/-- One turn of a job that has been taken off the list. -/
def runJob (now : Instant) (m : Memory) : MemoryJob → Memory
  | .renewal r =>
      match r.wake? now (m.closed || r.cancelled) with
      | none => m
      | some r => m.renewOnce now r
  | .sweeper w => if m.closed then m else m.sweepOnce now w

/-- Every job that is ready takes one turn. -/
def turn (now : Instant) (m : Memory) : Memory :=
  (m.jobs.filter (m.isReady now)).foldl (runJob now)
    { m with jobs := m.jobs.filter (fun job => !m.isReady now job) }

def wakeTimes (m : Memory) : List Instant := m.jobs.filterMap MemoryJob.wakeAt?

/-- The backend whose calls are made at the instant `now`. -/
def backend (now : Instant) : Backend Memory where
  kind := "memory"
  set key value ttl := .of (set now key value ttl)
  get scope := .of (get now scope)
  delete key := .of (delete key)
  increment key := .of (increment key)
  watch scope version := .of (watch now scope version)
  keepAlive key value ttl := .of (keepAlive now key value ttl)
  close := close
  receive := receive
  dropWatch := dropWatch

end Memory

end Rollcall
