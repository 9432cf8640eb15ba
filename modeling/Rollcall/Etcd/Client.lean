import Rollcall.Backend
import Rollcall.Etcd.Server
import Rollcall.Seconds

/-!
The backend on an etcd server. Registrations are bound to leases, and a keeper
renews each lease in steps of one request; a lease that is lost is replaced by
writing the value again. A forwarder turns the responses of a watch stream into
events, and opens the stream again from where it was when it breaks.
-/

namespace Rollcall.Etcd

inductive KeeperPhase where
  | asleep (wakeAt : Instant)
  | opening
  | asking
  | reading
  | granting
  | writing (lease : Int)
  | revoking
deriving DecidableEq, Repr

/-- The keeper of one registration; `session` says that its lease has an open
renewal stream. -/
structure Keeper where
  key : String
  value : String
  ttl : Span
  lease : Option Int
  session : Bool
  phase : KeeperPhase
  cancelled : Bool
deriving DecidableEq, Repr

inductive ForwarderPhase where
  | following (stream : Nat)
  | waiting (wakeAt : Instant)
deriving DecidableEq, Repr

/-- A stream that breaks is opened again at `nextRevision`. -/
structure Forwarder where
  channel : Nat
  scope : Scope
  nextRevision : Int
  phase : ForwarderPhase
deriving DecidableEq, Repr

inductive Job where
  | keeper (k : Keeper)
  | forwarder (f : Forwarder)
deriving DecidableEq, Repr

structure Client where
  closed : Bool
  jobs : List Job
  channels : Channels
deriving DecidableEq

def Client.create : Client := ⟨false, [], .none⟩

/-- A client and the server that it talks to. -/
structure Link where
  server : Server
  client : Client
deriving DecidableEq

namespace Link

abbrev Answer (α : Type) := Except Failure α × Link

def failed (text : String) : Failure := .error (.backend "etcd" text)

/-- Makes a request; the text of a failure becomes an error of the backend. -/
def ask {α : Type} (request : Server → Except String α × Server) (l : Link) : Answer α :=
  match request l.server with
  | (.ok a, server) => (.ok a, { l with server })
  | (.error text, server) => (.error (failed text), { l with server })

/-- Refuses every call once the client is closed. -/
def whenOpen {α : Type} (call : Link → Answer α) (l : Link) : Answer α :=
  if l.client.closed then (.error (.error .closed), l) else call l

def map {α β : Type} (f : α → β) (answer : Answer α) : Answer β :=
  (answer.1.map f, answer.2)

def andThen {α β : Type} (answer : Answer α) (next : α → Link → Answer β) : Answer β :=
  match answer with
  | (.ok a, l) => next a l
  | (.error f, l) => (.error f, l)

/-- Writes a value, under a new lease unless its time to live is zero. -/
def putLeased (key value : String) (ttl : Span) (l : Link) : Answer (Option Int) :=
  if ttl.isZero then map (fun _ => none) (l.ask (Server.requestPut key value 0))
  else
    andThen (l.ask (Server.requestLease ttl.leaseSeconds)) (fun lease l =>
      map (fun _ => some lease) (l.ask (Server.requestPut key value lease)))

def set (key value : String) (ttl : Span) : Link → Answer Unit :=
  whenOpen (fun l => map (fun _ => ()) (l.putLeased key value ttl))

/-- A key must be text; a value that is none counts as empty. -/
def toPair? (kv : KeyValue) : Option Pair :=
  (Text.ofUtf8? kv.key).map (fun key => ⟨key, (Text.ofUtf8? kv.value).getD "", kv.modRevision⟩)

def get (scope : Scope) : Link → Answer Listing :=
  whenOpen (fun l =>
    map (fun response => ⟨response.kvs.filterMap toPair?, response.revision.getD 0⟩)
      (l.ask (Server.requestGet scope.key scope.wholePrefix)))

def cancelKeeper (key : String) : Job → Job
  | .keeper k => .keeper (if k.key = key then { k with cancelled := true } else k)
  | .forwarder f => .forwarder f

def cancelKeepers (key : String) (l : Link) : Link :=
  { l with client := { l.client with jobs := l.client.jobs.map (cancelKeeper key) } }

def addJob (job : Job) (l : Link) : Link :=
  { l with client := { l.client with jobs := l.client.jobs ++ [job] } }

def delete (key : String) : Link → Answer Unit :=
  whenOpen (fun l => (l.cancelKeepers key).ask (Server.requestDelete key))

def incrementAttempts : Nat := 64

/-- The present count, and the guard under which it may be raised. -/
def readCounter (key : String) (l : Link) : Answer (Int × Guard) :=
  andThen (l.ask (Server.requestGet key false)) (fun response l =>
    match response.kvs with
    | [] => (.ok (0, .version key 0), l)
    | kv :: _ =>
        match (Text.ofUtf8? kv.value).bind (fun text => (Decimal.readInt64 text).toOption) with
        | some n => (.ok (n, .modRevision key kv.modRevision), l)
        | none =>
            (.error (.error (.backend "incr" ("counter " ++ key ++ " is not an integer"))), l))

/-- Writes the raised count if the guard still holds. -/
def raiseCounter (key : String) (found : Int × Guard) (l : Link) : Answer (Option Int) :=
  if found.1 + 1 < 0x8000000000000000 then
    map (fun succeeded => if succeeded then some (found.1 + 1) else none)
      (l.ask (Server.requestTxn [found.2] [(key, Decimal.showInt (found.1 + 1))]))
  else (.error .crash, l)

def incrementWithin (key : String) : Nat → Link → Answer Int
  | 0, l =>
      (.error (.error (.backend "incr" ("counter " ++ key ++ " contended after " ++
        Decimal.showNat incrementAttempts ++ " attempts"))), l)
  | attempts + 1, l =>
      andThen (l.readCounter key) (fun found l =>
        andThen (l.raiseCounter key found) (fun raised l =>
          match raised with
          | some n => (.ok n, l)
          | none => incrementWithin key attempts l))

def increment (key : String) : Link → Answer Int :=
  whenOpen (incrementWithin key incrementAttempts)

def watch (scope : Scope) (version : Int) : Link → Answer Nat :=
  whenOpen (fun l =>
    if version + 1 < 0x8000000000000000 then
      match Server.requestWatch scope.key (version + 1) scope.wholePrefix l.server with
      | (.error text, server) => (.error (.error (.watch scope.key text)), { l with server })
      | (.ok stream, server) =>
          let (channel, channels) := l.client.channels.add scope []
          let client := { l.client with channels }
          (.ok channel,
            addJob (.forwarder ⟨channel, scope, version + 1, .following stream⟩)
              ⟨server, client⟩)
    else (.error .crash, l))

def asleep (now : Instant) (ttl : Span) : KeeperPhase :=
  .asleep (now.after (renewalInterval ttl)).wake

/-- The keeper of a new registration takes over from the one before. -/
def install (now : Instant) (key value : String) (ttl : Span) (lease : Option Int) (l : Link) :
    Link :=
  addJob (.keeper ⟨key, value, ttl, lease, false, asleep now ttl, false⟩) (l.cancelKeepers key)

def keepAlive (now : Instant) (key value : String) (ttl : Span) : Link → Answer Unit :=
  whenOpen (fun l =>
    andThen (l.putLeased key value ttl) (fun lease l =>
      (.ok (), l.install now key value ttl lease)))

def close (l : Link) : Link := { l with client := { l.client with closed := true } }

def receive (id : Nat) (l : Link) : Received × Link :=
  let (found, channels) := l.client.channels.receive id
  (found, { l with client := { l.client with channels } })

def drain (id : Nat) (l : Link) : Option (List Event × Bool) × Link :=
  let (found, channels) := l.client.channels.drain id
  (found, { l with client := { l.client with channels } })

def dropWatch (id : Nat) (l : Link) : Link :=
  { l with client := { l.client with channels := l.client.channels.drop id } }

end Link

/-- What a step of a job leaves of it. -/
inductive Progress (α : Type) where
  | again (job : α)
  | rest (job : α)
  | finished

namespace Keeper

def isDue (k : Keeper) (now : Instant) : Bool :=
  match k.phase with
  | .asleep t => t ≤ now
  | _ => true

/-- Awake, a keeper with a lease is about to ask for it. -/
def awake (k : Keeper) : Keeper := { k with phase := if k.session then .asking else .opening }

def wake (k : Keeper) (now : Instant) : Keeper :=
  match k.phase with
  | .asleep t => if t ≤ now && k.lease.isSome then k.awake else k
  | _ => k

def sleep (k : Keeper) (now : Instant) : Progress Keeper :=
  .again { k with phase := Link.asleep now k.ttl }

/-- The lease was not renewed: write the value again under a new one. -/
def startOver (k : Keeper) : Progress Keeper :=
  .again { k with session := false, phase := .granting }

/-- One step, with at most one request. Told to stop, a keeper notices when it
sleeps, and then gives its lease back. -/
def step (k : Keeper) (now : Instant) (closed : Bool) (s : Server) : Progress Keeper × Server :=
  match k.phase, k.lease with
  | .asleep t, lease =>
      if closed || k.cancelled then
        (if lease.isSome then .again { k with phase := .revoking } else .finished, s)
      else if now < t then (.rest k, s)
      else if lease.isNone then (k.sleep now, s)
      else (.again k.awake, s)
  | .opening, some lease =>
      match Server.requestKeeper lease s with
      | (.ok (), s) => (.again { k with session := true, phase := .asking }, s)
      | (.error _, s) => (k.startOver, s)
  | .asking, some lease =>
      match Server.requestRenewal lease s with
      | (.ok (), s) => (.again { k with phase := .reading }, s)
      | (.error _, s) => (k.startOver, s)
  | .reading, some lease =>
      match Server.requestRenewed lease s with
      | (.ok (some ttl), s) => (if 0 < ttl then k.sleep now else k.startOver, s)
      | (_, s) => (k.startOver, s)
  | .granting, _ =>
      match Server.requestLease k.ttl.leaseSeconds s with
      | (.ok lease, s) => (.again { k with phase := .writing lease }, s)
      | (.error _, s) => (k.sleep now, s)
  | .writing lease, _ =>
      match Server.requestPut k.key k.value lease s with
      | (.ok (), s) => ({ k with lease := some lease }.sleep now, s)
      | (.error _, s) => (k.sleep now, s)
  | .revoking, some lease => (.finished, (Server.requestRevoke lease s).2)
  | _, none => (.finished, s)

end Keeper

namespace Forwarder

def retryInterval : Span := .ofSeconds 1

/-- How far a response was forwarded. -/
inductive Forwarded where
  | all
  | reopen
  | receiverGone
  | crash
deriving DecidableEq, Repr

def sendOne (f : Forwarder) (cs : Channels) (e : Event) : Option Channels :=
  if cs.isHeld f.channel then some (cs.sendTo f.channel e) else none

/-- Sends the events of a response; the next revision follows the last one. -/
def sendEvents (f : Forwarder) (cs : Channels) :
    List WatchEvent → Forwarded × Forwarder × Channels
  | [] => (.all, f, cs)
  | e :: rest =>
      match e.kv.bind Link.toPair? with
      | none => f.sendEvents cs rest
      | some pair =>
          if pair.version + 1 < 0x8000000000000000 then
            let f := { f with nextRevision := pair.version + 1 }
            let kind := if e.isPut then .update else .delete
            match f.sendOne cs (.change ⟨kind, pair⟩) with
            | some cs => f.sendEvents cs rest
            | none => (.receiverGone, f, cs)
          else (.crash, f, cs)

/-- What was compacted away cannot be sent: the receiver has to load again, and
the stream goes on from the compaction. -/
def forward (f : Forwarder) (cs : Channels) (r : WatchResponse) :
    Forwarded × Forwarder × Channels :=
  if 0 < r.compactRevision ∨ r.canceled then
    let f := if 0 < r.compactRevision then { f with nextRevision := r.compactRevision } else f
    match f.sendOne cs .refresh with
    | some cs => (.reopen, f, cs)
    | none => (.receiverGone, f, cs)
  else f.sendEvents cs r.events

def wait (f : Forwarder) (now : Instant) : Progress Forwarder :=
  .again { f with phase := .waiting (now.after retryInterval).wake }

/-- One step: at most one message or one request. -/
def step (f : Forwarder) (now : Instant) (closed : Bool) (s : Server) (cs : Channels) :
    Progress Forwarder × Server × Channels :=
  match f.phase with
  | .following stream =>
      if closed then (.finished, s.release stream, cs.close f.channel)
      else
        match s.nextMessage stream with
        | (none, s) => (.rest f, s, cs)
        | (some (.response r), s) =>
            match f.forward cs r with
            | (.all, f, cs) => (.again f, s, cs)
            | (.reopen, f, cs) => (f.wait now, s.release stream, cs)
            | (.receiverGone, f, cs) | (.crash, f, cs) =>
                (.finished, s.release stream, cs.close f.channel)
        | (some _, s) => (f.wait now, s.release stream, cs)
  | .waiting t =>
      if closed then (.finished, s, cs.close f.channel)
      else if now < t then (.rest f, s, cs)
      else
        match Server.requestWatch f.scope.key f.nextRevision f.scope.wholePrefix s with
        | (.ok stream, s) => (.again { f with phase := .following stream }, s, cs)
        | (.error _, s) => (f.wait now, s, cs)

def isReady (f : Forwarder) (now : Instant) (s : Server) : Bool :=
  match f.phase with
  | .following stream => ((s.streams.get? stream).map (fun t => !t.messages.isEmpty)).getD false
  | .waiting t => t ≤ now

end Forwarder

namespace Link

def stepJob (now : Instant) (job : Job) (l : Link) : Progress Job × Link :=
  let lift {α : Type} (wrap : α → Job) : Progress α → Progress Job
    | .again a => .again (wrap a)
    | .rest a => .rest (wrap a)
    | .finished => .finished
  match job with
  | .keeper k =>
      let (progress, server) := k.step now l.client.closed l.server
      (lift .keeper progress, { l with server })
  | .forwarder f =>
      let (progress, server, channels) := f.step now l.client.closed l.server l.client.channels
      (lift .forwarder progress, ⟨server, { l.client with channels }⟩)

/-- Steps of a job until it rests, at most `fuel` of them. -/
def runJob (now : Instant) : Nat → Job → Link → Link
  | 0, job, l => l.addJob job
  | fuel + 1, job, l =>
      match l.stepJob now job with
      | (.again job, l) => runJob now fuel job l
      | (.rest job, l) => l.addJob job
      | (.finished, l) => l

/-- A timer that is due wakes a job, also one that is told to stop at that instant: a keeper
then asks for its lease once more. -/
def wakeJob (now : Instant) : Job → Job
  | .keeper k => .keeper (k.wake now)
  | .forwarder f => .forwarder f

def isReady (now : Instant) (l : Link) : Job → Bool
  | .keeper k => l.client.closed || k.cancelled || k.isDue now
  | .forwarder f => l.client.closed || f.isReady now l.server

/-- More steps than any job takes before it rests. -/
def turnFuel (l : Link) : Nat :=
  16 + 2 * l.server.streams.values.foldl (fun n t => n + t.messages.length) 0

/-- Every job that is ready takes one turn. -/
def turn (now : Instant) (l : Link) : Link :=
  let ready := l.client.jobs.filter (l.isReady now)
  let others := l.client.jobs.filter (fun job => !l.isReady now job)
  let fuel := l.turnFuel
  ready.foldl (fun l job => runJob now fuel (wakeJob now job) l)
    { l with client := { l.client with jobs := others } }

def anyReady (now : Instant) (l : Link) : Bool := l.client.jobs.any (l.isReady now)

def wakeTimes (l : Link) : List Instant :=
  l.client.jobs.filterMap (fun job =>
    match job with
    | .keeper k => match k.phase with
        | .asleep t => some t
        | _ => none
    | .forwarder f => match f.phase with
        | .waiting t => some t
        | .following _ => none)

/-- The backend whose calls are made at the instant `now`. -/
def backend (now : Instant) : Backend Link where
  kind := "etcd"
  set key value ttl := .of (set key value ttl)
  get scope := .of (get scope)
  delete key := .of (delete key)
  increment key := .of (increment key)
  watch scope version := .of (watch scope version)
  keepAlive key value ttl := .of (keepAlive now key value ttl)
  close := close
  receive := receive
  dropWatch := dropWatch

end Link

/-- A new client of a server, if the server lets it connect. -/
def connect (endpoints : List String) (s : Server) : Except Error Client × Server :=
  match Server.connect endpoints s with
  | (.ok (), s) => (.ok .create, s)
  | (.error text, s) => (.error (.backend "connect" ("Failed to connect to etcd: " ++ text)), s)

end Rollcall.Etcd
