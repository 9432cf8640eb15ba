import Rollcall.Pool

/-!
Trials of a pool with a connector that follows a script. Each attempt to connect
has a serial number and takes the next outcome of the script; without one it
succeeds. Time is virtual and passes only while gets rest.
-/

namespace Rollcall.Pool

structure Connection where
  target : String
  serial : Nat
deriving DecidableEq, Repr

/-- The outcomes still to come: a failure, or success. -/
structure Script where
  outcomes : List (Option Error)
  serial : Nat
deriving DecidableEq, Repr

def Script.connect (target : String) (s : Script) : Except Error Connection × Script :=
  let serial := s.serial + 1
  match s.outcomes with
  | some e :: rest => (.error e, ⟨rest, serial⟩)
  | none :: rest => (.ok ⟨target, serial⟩, ⟨rest, serial⟩)
  | [] => (.ok ⟨target, serial⟩, ⟨[], serial⟩)

/-- Empty targets and those with a space are malformed. -/
def Script.validate (target : String) : Except Error Unit :=
  if target = "" ∨ ' ' ∈ target.toList then .error (.invalidTarget target "malformed")
  else .ok ()

def Script.connector : Connector Script Connection := ⟨Script.validate, Script.connect⟩

abbrev Get := Getting Connection

structure Trial where
  backoff : Backoff
  now : Instant
  shared : Getting.Shared Script Connection

namespace Trial

def start (backoff : Backoff) : Trial := ⟨backoff, .start, ⟨.empty, ⟨[], 0⟩⟩⟩

def pool (t : Trial) : Pool Connection := t.shared.pool

/-- Why a get has stopped for now. -/
inductive Stop where
  | turn
  | time (wakeAt : Instant)
  | finished

/-- Does the get stop here? Slow connectors take one turn to connect. -/
def stop? (slow : Bool) (now : Instant) : Get → Option Stop
  | .connecting .. => if slow then some .turn else none
  | .resting _ t => if now < t then some (.time t) else none
  | .finished _ => some .finished
  | _ => none

/-- Steps until the get stops, at least one. -/
def advance (slow : Bool) (target : String) :
    Nat → Get → Trial → Option (Stop × Get × Trial)
  | 0, _, _ => none
  | fuel + 1, g, t =>
      match g.step Script.connector t.backoff 0.0 target t.now t.shared with
      | none => none
      | some (g, shared) =>
          let t := { t with shared }
          match stop? slow t.now g with
          | some stop => some (stop, g, t)
          | none => advance slow target fuel g t

/-- A turn for each get, in order. -/
def round (slow : Bool) (target : String) (fuel : Nat) :
    List Get → Trial → Option (List Stop × List Get × Trial)
  | [], t => some ([], [], t)
  | g :: rest, t => do
      let (stop, g, t) ← advance slow target fuel g t
      let (stops, rest, t) ← round slow target fuel rest t
      return (stop :: stops, g :: rest, t)

def earlier : Option Instant → Stop → Option Instant
  | none, .time t => some t
  | some s, .time t => some (if t < s then t else s)
  | found, _ => found

def result? : Get → Option (Except Error Connection)
  | .finished r => some r
  | _ => none

/-- Rounds until every get is finished; when all the others rest, time passes to
the first that wakes. -/
def runAll (slow : Bool) (target : String) :
    Nat → List Get → Trial → Option (List (Except Error Connection) × Trial)
  | 0, _, _ => none
  | fuel + 1, gs, t => do
      let (stops, gs, t) ← round slow target (fuel + 1) gs t
      if stops.all (· matches .finished) then return (gs.filterMap result?, t)
      else if stops.any (· matches .turn) then runAll slow target fuel gs t
      else runAll slow target fuel gs { t with now := (stops.foldl earlier none).getD t.now }

/-- Runs `count` gets side by side on a script of their own. A get takes at most
five steps for each attempt. -/
def get (count : Nat) (slow : Bool) (target : String) (outcomes : List (Option Error))
    (t : Trial) : Option (List (Except Error Connection) × Trial) := do
  let shared := { t.shared with state := { t.shared.state with outcomes } }
  let fuel := 5 * (outcomes.length + 2) * (count + 1)
  runAll slow target fuel (List.replicate count .looking) { t with shared }

def close (t : Trial) : List Connection × Trial :=
  let (given, pool) := t.pool.close
  (given, { t with shared := { t.shared with pool } })

/-- How many connections have been attempted. -/
def dials (t : Trial) : Nat := t.shared.state.serial

end Trial

end Rollcall.Pool
