import Rollcall.Decimal.Integer
import Rollcall.Table
import Rollcall.Text.Utf8

/-!
An etcd server as its clients see it: a store with revisions, leases that bind
keys, and watch streams. Nothing happens by itself: leases do not run out and
changes make no watch messages. Every request is logged; failures, lost headers,
ended lease streams and rival counter writes can be arranged beforehand.
-/

namespace Rollcall.Etcd

structure Record where
  value : Bytes
  modRevision : Int
  version : Int
  /-- Zero stands for none. -/
  lease : Int
deriving DecidableEq, Repr

/-- What a transaction compares with a number; both are zero for a missing key. -/
inductive Guard where
  | modRevision (key : String) (value : Int)
  | version (key : String) (value : Int)
deriving DecidableEq, Repr

def Guard.key : Guard → String
  | .modRevision key _ | .version key _ => key

inductive Request where
  | connect (endpoints : List String)
  | put (key value : String) (lease : Int)
  | get (key : String) (wholePrefix : Bool)
  | delete (key : String)
  | txn (guards : List Guard) (puts : List (String × String))
  | leaseGrant (ttl : Int)
  | leaseRevoke (lease : Int)
  | leaseKeepAlive (lease : Int)
  | keeperKeepAlive (lease : Int)
  | leaseStreamMessage (lease : Int)
  | watch (key : String) (startRevision : Int) (wholePrefix : Bool)
deriving DecidableEq, Repr

def Request.method : Request → String
  | .connect _ => "connect"
  | .put .. => "put"
  | .get .. => "get"
  | .delete _ => "delete"
  | .txn .. => "txn"
  | .leaseGrant _ => "lease_grant"
  | .leaseRevoke _ => "lease_revoke"
  | .leaseKeepAlive _ => "lease_keep_alive"
  | .keeperKeepAlive _ => "keeper.keep_alive"
  | .leaseStreamMessage _ => "lease_stream.message"
  | .watch .. => "watch"

structure KeyValue where
  key : Bytes
  value : Bytes
  modRevision : Int
deriving DecidableEq, Repr

/-- An event of a watch response; it may come without a key and value. -/
structure WatchEvent where
  isPut : Bool
  kv : Option KeyValue
deriving DecidableEq, Repr

structure WatchResponse where
  compactRevision : Int
  canceled : Bool
  events : List WatchEvent
deriving DecidableEq, Repr

inductive Message where
  | response (r : WatchResponse)
  | failure (text : String)
  | ended
deriving DecidableEq, Repr

structure Stream where
  messages : List Message
  held : Bool
deriving DecidableEq, Repr

structure Server where
  revision : Int
  records : Table Bytes Record
  leases : Table Int Int
  nextLease : Int
  streams : Table Nat Stream
  log : List Request
  failures : Table String (List String)
  contended : Nat
  headerless : Nat
  endedLeaseStreams : Nat
deriving DecidableEq

namespace Server

def empty : Server := ⟨0, ∅, ∅, 1, ∅, [], ∅, 0, 0, 0⟩

/-! The store. -/

def put (s : Server) (key value : Bytes) (lease : Int) : Server :=
  let revision := s.revision + 1
  let version := ((s.records.get? key).map Record.version).getD 0 + 1
  { s with revision, records := s.records.insert key ⟨value, revision, version, lease⟩ }

def delete (s : Server) (key : Bytes) : Server :=
  if s.records.contains key then
    { s with revision := s.revision + 1, records := s.records.erase key }
  else s

/-- Ends a lease; the keys bound to it go with it, in one revision. -/
def dropLease (s : Server) (lease : Int) : Option Server :=
  if s.leases.contains lease then
    let bound := s.records.filter (fun _ r => r.lease = lease)
    some { s with
      leases := s.leases.erase lease
      records := s.records.filter (fun _ r => r.lease ≠ lease)
      revision := if bound.isEmpty then s.revision else s.revision + 1 }
  else none

def record? (s : Server) (key : String) : Option Record := s.records.get? (Text.utf8 key)

def holds (s : Server) : Guard → Bool
  | .modRevision key value => ((s.record? key).map Record.modRevision).getD 0 = value
  | .version key value => ((s.record? key).map Record.version).getD 0 = value

/-- Another client counts the key up. -/
def rivalIncrement (s : Server) (key : String) : Server :=
  let key := Text.utf8 key
  let text := ((s.records.get? key).bind (fun r => Text.ofUtf8? r.value)).getD "0"
  let count := (Decimal.readInt64 text).toOption.getD 0
  s.put key (Text.utf8 (Decimal.showInt (count + 1))) 0

/-! Requests. -/

/-- The text of the failure arranged for the request, if any; the request is
logged in either case. -/
def note (s : Server) (r : Request) : Option String × Server :=
  let s := { s with log := s.log ++ [r] }
  match s.failures.getD r.method [] with
  | [] => (none, s)
  | text :: rest => (some text, { s with failures := s.failures.insert r.method rest })

def request {α : Type} (r : Request) (answer : Server → Except String α × Server)
    (s : Server) : Except String α × Server :=
  match s.note r with
  | (some text, s) => (.error text, s)
  | (none, s) => answer s

def connect (endpoints : List String) : Server → Except String Unit × Server :=
  request (.connect endpoints) (fun s =>
    if endpoints.isEmpty then (.error "invalid arguments: empty endpoints", s) else (.ok (), s))

def requestPut (key value : String) (lease : Int) : Server → Except String Unit × Server :=
  request (.put key value lease) (fun s => (.ok (), s.put (Text.utf8 key) (Text.utf8 value) lease))

structure GetResponse where
  /-- Missing if the answer has no header. -/
  revision : Option Int
  kvs : List KeyValue
deriving DecidableEq, Repr

def covered (s : Server) (key : String) (wholePrefix : Bool) : List KeyValue :=
  let key := Text.utf8 key
  (s.records.rows.filter (fun row =>
    if wholePrefix then key.isPrefixOf row.1 else row.1 = key)).map
      (fun row => ⟨row.1, row.2.value, row.2.modRevision⟩)

def requestGet (key : String) (wholePrefix : Bool) :
    Server → Except String GetResponse × Server :=
  request (.get key wholePrefix) (fun s =>
    let kvs := s.covered key wholePrefix
    if 0 < s.headerless then (.ok ⟨none, kvs⟩, { s with headerless := s.headerless - 1 })
    else (.ok ⟨some s.revision, kvs⟩, s))

def requestDelete (key : String) : Server → Except String Unit × Server :=
  request (.delete key) (fun s => (.ok (), s.delete (Text.utf8 key)))

/-- All puts if every guard holds, none otherwise. -/
def commit (s : Server) (guards : List Guard) (puts : List (String × String)) : Bool × Server :=
  if guards.all s.holds then
    (true, puts.foldl (fun s p => s.put (Text.utf8 p.1) (Text.utf8 p.2) 0) s)
  else (false, s)

def contend (s : Server) (guards : List Guard) : Server :=
  match s.contended, guards with
  | n + 1, g :: _ => { s.rivalIncrement g.key with contended := n }
  | _, _ => s

def requestTxn (guards : List Guard) (puts : List (String × String)) :
    Server → Except String Bool × Server :=
  request (.txn guards puts) (fun s =>
    let (succeeded, s) := (s.contend guards).commit guards puts
    (.ok succeeded, s))

def requestLease (ttl : Int) : Server → Except String Int × Server :=
  request (.leaseGrant ttl) (fun s =>
    (.ok s.nextLease,
      { s with leases := s.leases.insert s.nextLease ttl, nextLease := s.nextLease + 1 }))

def requestRevoke (lease : Int) : Server → Except String Unit × Server :=
  request (.leaseRevoke lease) (fun s =>
    match s.dropLease lease with
    | some s => (.ok (), s)
    | none => (.error "requested lease not found", s))

def requestKeeper (lease : Int) : Server → Except String Unit × Server :=
  request (.leaseKeepAlive lease) (fun s =>
    if s.leases.contains lease then (.ok (), s)
    else (.error "lease keep alive error: lease not found", s))

def requestRenewal (lease : Int) : Server → Except String Unit × Server :=
  request (.keeperKeepAlive lease) (fun s => (.ok (), s))

/-- The time to live that a renewal left, or nothing at the stream's end. -/
def requestRenewed (lease : Int) : Server → Except String (Option Int) × Server :=
  request (.leaseStreamMessage lease) (fun s =>
    if 0 < s.endedLeaseStreams then
      (.ok none, { s with endedLeaseStreams := s.endedLeaseStreams - 1 })
    else (.ok (some (s.leases.getD lease 0)), s))

def requestWatch (key : String) (startRevision : Int) (wholePrefix : Bool) :
    Server → Except String Nat × Server :=
  request (.watch key startRevision wholePrefix) (fun s =>
    (.ok s.streams.size, { s with streams := s.streams.insert s.streams.size ⟨[], true⟩ }))

/-! Watch streams. -/

def isHeld (s : Server) (stream : Nat) : Bool :=
  ((s.streams.get? stream).map Stream.held).getD false

def send (s : Server) (stream : Nat) (m : Message) : Bool × Server :=
  if s.isHeld stream then
    (true, { s with
      streams := s.streams.modify stream (fun t => { t with messages := t.messages ++ [m] }) })
  else (false, s)

def nextMessage (s : Server) (stream : Nat) : Option Message × Server :=
  match s.streams.get? stream with
  | some ⟨m :: rest, _⟩ =>
      (some m, { s with streams := s.streams.modify stream (fun t => { t with messages := rest }) })
  | _ => (none, s)

def release (s : Server) (stream : Nat) : Server :=
  { s with streams := s.streams.modify stream (fun _ => ⟨[], false⟩) }

/-! Arrangements. -/

def failNext (s : Server) (method text : String) (times : Nat) : Server :=
  { s with
    failures := s.failures.insert method (s.failures.getD method [] ++ List.replicate times text) }

/-- Revocations that stand together have no order of their own; they are listed
by lease. -/
def inLeaseOrder (log : List Request) : List Request :=
  log.foldr (fun r rest =>
    match r with
    | .leaseRevoke lease => place lease r rest
    | _ => r :: rest) []
where
  place (lease : Int) (r : Request) : List Request → List Request
    | .leaseRevoke lease' :: rest =>
        if lease' < lease then .leaseRevoke lease' :: place lease r rest
        else r :: .leaseRevoke lease' :: rest
    | rest => r :: rest

def takeLog (s : Server) : List Request × Server :=
  (inLeaseOrder s.log, { s with log := [] })

end Server

end Rollcall.Etcd
