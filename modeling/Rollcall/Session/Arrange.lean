import Rollcall.Session.Call

/-!
What is arranged behind the backs of the users: answers of a scripted backend,
and what happens on the etcd server.
-/

namespace Rollcall.Session

inductive ScriptedAction where
  | put (key value : String)
  | putNode (p : Publication)
  | remove (key : String)
  | send (e : Event)
  | dropWatchers
  | fail (method : Scripted.Method) (times : Nat) (e : Error)
  | takeLog
deriving Repr

inductive EtcdAction where
  | takeLog
  | inspect
  | put (key value : Bytes) (lease : Int)
  | delete (key : Bytes)
  | dropLease (lease : Int)
  | fail (method : String) (times : Nat) (text : String)
  | contend (times : Nat)
  | loseHeaders (times : Nat)
  | endLeaseStreams (times : Nat)
  | streamsHeld
  | send (stream : Nat) (m : Etcd.Message)
deriving Repr

def arrangeScripted (s : Scripted) : ScriptedAction → Reply × Scripted
  | .put key value => (.done, s.put key value)
  | .putNode p => (.done, s.put p.key p.node.encode)
  | .remove key => (.done, s.remove key)
  | .send e =>
      let (count, s) := s.send e
      (.number count, s)
  | .dropWatchers => (.done, s.dropWatchers)
  | .fail method times e => (.done, s.failNext method times e)
  | .takeLog =>
      let (log, s) := s.takeLog
      (.calls log, s)

def onScripted (action : ScriptedAction) (s : Session) : Reply × Session :=
  match s.providers.get? home with
  | some (.scripted b) =>
      let (reply, b) := arrangeScripted b action
      (reply, { s with providers := s.providers.insert home (.scripted b) })
  | _ => (.nothing, s)

def arrangeEtcd (s : Etcd.Server) : EtcdAction → Reply × Etcd.Server
  | .takeLog =>
      let (log, s) := s.takeLog
      (.requests log, s)
  | .inspect => (.server s, s)
  | .put key value lease => (.done, s.put key value lease)
  | .delete key => (.done, s.delete key)
  | .dropLease lease =>
      match s.dropLease lease with
      | some s => (.flag true, s)
      | none => (.flag false, s)
  | .fail method times text => (.done, s.failNext method text times)
  | .contend times => (.done, { s with contended := times })
  | .loseHeaders times => (.done, { s with headerless := times })
  | .endLeaseStreams times => (.done, { s with endedLeaseStreams := times })
  | .streamsHeld => (.flags (s.streams.values.map Etcd.Stream.held), s)
  | .send stream m =>
      let (held, s) := s.send stream m
      (.flag held, s)

def onServer (action : EtcdAction) (s : Session) : Reply × Session :=
  let (reply, server) := arrangeEtcd s.server action
  (reply, { s with server })

end Rollcall.Session
