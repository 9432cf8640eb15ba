import Rollcall.Session.Basic

/-!
Background work and the passage of time. Between the steps of its users a session
settles: every job and follower runs until it waits for time or for an event.
Time passes from timer to timer, and the session settles at each. Who sleeps goes
on first when the sleep ends: the timers due at that instant come after the next
steps.
-/

namespace Rollcall.Session

/-- Steps that a follower may take in one turn. -/
def turnLimit : Nat := 100000

/-- Rounds in which a session has to come to rest. -/
def roundLimit : Nat := 100000

def runProvider (id : Nat) (s : Session) : Session :=
  let site := s.site id
  if site.anyReady s.now then s.setSite id (site.turn s.now) else s

def runFollower (id : Nat) (s : Session) : Session :=
  match s.followers.get? id with
  | none => s
  | some slot =>
      match s.caches.get? slot.cache with
      | none => s
      | some cache =>
          let (follower, s) := s.onCache slot.cache cache (fun b listener c =>
            slot.follower.run b listener s.now cache.retry slot.cancelled turnLimit c)
          { s with followers := s.followers.insert id { slot with follower } }

def followerReady (s : Session) (slot : FollowerSlot) : Bool :=
  match slot.follower with
  | .ended => false
  | .following watch =>
      slot.cancelled ||
        match s.caches.get? slot.cache with
        | some cache => Follower.ready ((s.backend cache.provider).receive watch s).1
        | none => false
  | .retrying t => slot.cancelled || t ≤ s.now

def isIdle (s : Session) : Bool :=
  s.providers.keys.all (fun id => !(s.site id).anyReady s.now)
    && s.followers.values.all (fun slot => !s.followerReady slot)

/-- One turn for everything that runs in the background. -/
def round (s : Session) : Session :=
  let s := s.providers.keys.foldl (fun s id => s.runProvider id) s
  s.followers.keys.foldl (fun s id => s.runFollower id) s

def settleWithin : Nat → Session → Session
  | 0, s => s
  | rounds + 1, s => if s.isIdle then s else settleWithin rounds s.round

def settle (s : Session) : Session := settleWithin roundLimit s

def followerWake (slot : FollowerSlot) : Option Instant :=
  match slot.follower with
  | .retrying t => some t
  | _ => none

def wakeTimes (s : Session) : List Instant :=
  s.providers.keys.flatMap (fun id => (s.site id).wakeTimes)
    ++ s.followers.values.filterMap followerWake

def earliest : List Instant → Option Instant
  | [] => none
  | t :: rest =>
      match earliest rest with
      | none => some t
      | some s => some (if s < t then s else t)

/-- The next timer that is due before `target`. -/
def nextWake (s : Session) (target : Instant) : Option Instant :=
  earliest (s.wakeTimes.filter (fun t => s.now < t ∧ t < target))

def sleepUntil : Nat → Instant → Session → Session
  | 0, target, s => { s with now := target }
  | timers + 1, target, s =>
      match s.nextWake target with
      | none => { s with now := target }
      | some t => sleepUntil timers target (settle { s with now := t })

/-- Timers stand on whole milliseconds, so there is at most one instant to wake at
for each that passes. -/
def sleep (millis : Nat) (s : Session) : Session :=
  let s := s.settle
  sleepUntil millis (s.now.after (.ofMillis millis)) s

end Rollcall.Session
