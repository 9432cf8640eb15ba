import Rollcall.Proofs.Etcd.Leases

/-!
Calls that keep one key alive, in any interleaving with each other and with their
keepers: every move is one request. A call that nothing interrupts is a call of the
client. Main statement: `call_uninterrupted`.
-/

namespace Rollcall.Etcd.Keeping

/-- How far a call has come. One that has returned is `kept`, and `ended` once its
keeper has. -/
inductive Stage where
  | granting
  | writing (lease : Option Int)
  | installing (lease : Option Int)
  | failed
  | kept (k : Keeper)
  | ended
deriving DecidableEq

structure Call where
  value : String
  ttl : Span
  stage : Stage
deriving DecidableEq

/-- What other clients ask of the server; they leave the key alone. -/
inductive Traffic where
  | put (key value : Bytes) (lease : Int)
  | delete (key : Bytes)
  | grant (ttl : Int)
  | fail (method text : String) (times : Nat)
  | endStreams (times : Nat)

inductive Move where
  | call (value : String) (ttl : Span)
  | advance (now : Instant) (i : Nat)
  /-- A keeper that is told to stop while its sleep ends may overlook it. -/
  | overlook (now : Instant) (i : Nat)
  | lose (lease : Int)
  | others (t : Traffic)

/-- The calls are in the order in which they were made. `owners` holds which call
each lease was granted to, `last` which call put the key last and under which lease. -/
structure World where
  server : Server
  calls : List Call
  owners : Table Int Nat
  last : Option (Nat × Int)
deriving DecidableEq

def Traffic.apply (key : Bytes) (s : Server) : Traffic → Server
  | .put other value lease => if other = key then s else s.put other value lease
  | .delete other => if other = key then s else s.delete other
  | .grant ttl => s.grant ttl
  | .fail method text times => s.failNext method text times
  | .endStreams times => { s with endedLeaseStreams := times }

def Stage.of : Option Keeper → Stage
  | some k => .kept k
  | none => .ended

def Stage.told (key : String) : Stage → Stage
  | .kept k => .kept (if k.key = key then { k with cancelled := true } else k)
  | stage => stage

def Call.told (key : String) (call : Call) : Call := { call with stage := call.stage.told key }

def writes? (k : Keeper) : Option Int :=
  match k.phase with
  | .writing lease => some lease
  | _ => none

namespace World

def start : World := ⟨.empty, [], ∅, none⟩

/-- A call goes on to a stage, after a request that may have put the key under a
lease; a put is seen by its revision, a grant by the lease that comes next. -/
def after (w : World) (i : Nat) (call : Call) (put : Option Int) (stage : Stage)
    (server : Server) : World where
  server := server
  calls := w.calls.set i { call with stage }
  owners :=
    if w.server.nextLease < server.nextLease then w.owners.insert w.server.nextLease i
    else w.owners
  last :=
    match put with
    | some lease => if w.server.revision < server.revision then some (i, lease) else w.last
    | none => w.last

def install (key : String) (w : World) (now : Instant) (i : Nat) (call : Call)
    (lease : Option Int) : World :=
  let k : Keeper := ⟨key, call.value, call.ttl, lease, false, Link.asleep now call.ttl, false⟩
  { w with calls := (w.calls.map (Call.told key)).set i { call with stage := .kept k } }

def proceed (key : String) (w : World) (now : Instant) (i : Nat) (call : Call) : World :=
  match call.stage with
  | .granting =>
      match Server.requestLease call.ttl.leaseSeconds w.server with
      | (.ok lease, server) => w.after i call none (.writing (some lease)) server
      | (.error _, server) => w.after i call none .failed server
  | .writing lease =>
      match Server.requestPut key call.value (lease.getD 0) w.server with
      | (.ok (), server) => w.after i call (some (lease.getD 0)) (.installing lease) server
      | (.error _, server) => w.after i call (some (lease.getD 0)) .failed server
  | .installing lease => w.install key now i call lease
  | .kept k =>
      let (progress, server) := k.step now false w.server
      w.after i call (writes? k) (.of (Keeper.left progress)) server
  | .failed | .ended => w

def overlook (w : World) (now : Instant) (i : Nat) (call : Call) : World :=
  match call.stage with
  | .kept k =>
      let (progress, server) := ({ k with cancelled := false } : Keeper).step now false w.server
      let next := (Keeper.left progress).map (fun k' => { k' with cancelled := k.cancelled })
      w.after i call (writes? k) (.of next) server
  | _ => w

def step (key : String) (w : World) : Move → World
  | .call value ttl =>
      let stage := if ttl.isZero then .writing none else .granting
      { w with calls := w.calls ++ [⟨value, ttl, stage⟩] }
  | .advance now i =>
      match w.calls[i]? with
      | some call => w.proceed key now i call
      | none => w
  | .overlook now i =>
      match w.calls[i]? with
      | some call => w.overlook now i call
      | none => w
  | .lose lease =>
      match w.server.dropLease lease with
      | some server => { w with server }
      | none => w
  | .others t => { w with server := t.apply (Text.utf8 key) w.server }

def run (key : String) (w : World) (moves : List Move) : World := moves.foldl (step key) w

def value? (w : World) (i : Nat) : Option String := w.calls[i]?.map Call.value

end World

def Call.job? (call : Call) : Option Job :=
  match call.stage with
  | .kept k => some (.keeper k)
  | _ => none

/-- The client whose calls they are, when nothing else of it is under way. -/
def World.link (w : World) : Link := ⟨w.server, ⟨false, w.calls.filterMap Call.job?, .none⟩⟩

/-- The keepers of the calls, once all are told to stop, are the jobs of a client that has
told them so. -/
theorem filterMap_told (key : String) (calls : List Call) :
    (calls.map (Call.told key)).filterMap Call.job? =
      (calls.filterMap Call.job?).map (Link.cancelKeeper key) := by
  induction calls with
  | nil => rfl
  | cons call rest ih =>
      obtain ⟨value, ttl, stage⟩ := call
      cases stage with
      | kept k => exact congrArg (Job.keeper _ :: ·) ih
      | granting | writing held | installing held | failed | ended => exact ih

theorem step_new {key : String} {w : World} {before : List Call} {call : Call}
    (hcalls : w.calls = before ++ [call]) (now : Instant) :
    w.step key (.advance now before.length) = w.proceed key now before.length call := by
  simp only [World.step, hcalls, List.getElem?_concat_length]

theorem set_new (before : List Call) (call changed : Call) :
    (before ++ [call]).set before.length changed = before ++ [changed] := by
  rw [List.set_append_right _ _ (Nat.le_refl _), Nat.sub_self]
  rfl

theorem told_new (key : String) (before : List Call) (call changed : Call) :
    ((before ++ [call]).map (Call.told key)).set before.length changed =
      before.map (Call.told key) ++ [changed] := by
  rw [List.map_append]
  have h := set_new (before.map (Call.told key)) (call.told key) changed
  rw [List.length_map] at h
  exact h

theorem link_new {w : World} {before : List Call} {call : Call}
    (hcalls : w.calls = before ++ [call]) (hjob : call.job? = none) :
    w.link = ⟨w.server, ⟨false, before.filterMap Call.job?, .none⟩⟩ := by
  simp only [World.link, hcalls, List.filterMap_append, List.filterMap_cons, hjob,
    List.filterMap_nil, List.append_nil]

theorem failed_new (key : String) {w : World} {before : List Call} {call : Call}
    (hcalls : w.calls = before ++ [call]) (hstage : call.stage = .failed) (now : Instant)
    (times : Nat) : w.run key (List.replicate times (.advance now before.length)) = w := by
  induction times with
  | zero => rfl
  | succ times ih =>
      have hidle : w.step key (.advance now before.length) = w := by
        rw [step_new hcalls]
        simp only [World.proceed, hstage]
      simp only [World.run, List.replicate, List.foldl, hidle] at ih ⊢
      exact ih

/-- The part of a call that puts its value and takes over. -/
def finishCall (now : Instant) (key value : String) (ttl : Span) (lease : Option Int) (l : Link) :
    Link.Answer Unit :=
  Link.andThen
    (Link.map (fun _ => lease) (l.ask (Server.requestPut key value (lease.getD 0))))
    (fun lease l => (.ok (), l.install now key value ttl lease))

/-- From its put on, two steps of the last call are what the client does with that part of
it: the same server and jobs, and it succeeds exactly if the call is then kept. -/
theorem finish_uninterrupted (key : String) {w : World} {before : List Call} {value : String}
    {ttl : Span} {lease : Option Int}
    (hcalls : w.calls = before ++ [⟨value, ttl, .writing lease⟩]) (now : Instant) :
    let w' := w.run key (List.replicate 2 (.advance now before.length))
    let answer := finishCall now key value ttl lease w.link
    answer.2 = w'.link ∧
      (answer.1 = .ok () ↔ ∃ k, w'.calls[before.length]? = some ⟨value, ttl, .kept k⟩) := by
  intro w' answer
  have hlink := link_new hcalls rfl
  have hw' : w' = (w.proceed key now before.length ⟨value, ttl, .writing lease⟩).run key
      [.advance now before.length] := by
    simp only [w', World.run, List.replicate, List.foldl, step_new hcalls]
  simp only [answer, finishCall, Link.ask, hlink, hw', World.proceed]
  rcases Server.requestPut key value (lease.getD 0) w.server with ⟨text | _, server⟩
  · have hfailed : (w.after before.length ⟨value, ttl, .writing lease⟩ (some (lease.getD 0))
        .failed server).calls = before ++ [⟨value, ttl, .failed⟩] := by
      simp only [World.after, hcalls, set_new]
    have hstill := failed_new key hfailed rfl now 1
    simp only [List.replicate] at hstill
    simp only [hstill, link_new hfailed rfl]
    refine ⟨rfl, ?_⟩
    simp [hfailed, Link.map, Link.andThen, Except.map]
  · have hput : (w.after before.length ⟨value, ttl, .writing lease⟩ (some (lease.getD 0))
        (.installing lease) server).calls = before ++ [⟨value, ttl, .installing lease⟩] := by
      simp only [World.after, hcalls, set_new]
    simp only [World.run, List.foldl, step_new hput, World.proceed, World.install, hput, told_new]
    refine ⟨?_, ?_⟩
    · simp only [World.link, List.filterMap_append, filterMap_told]
      rfl
    · simp [Link.map, Link.andThen, Except.map]

/-- A call that nothing interrupts is a call of the client: its steps, taken one after the
other, lead to the server and the jobs that the client's own function leads to, and it has
returned exactly if that succeeds. -/
theorem call_uninterrupted (key : String) (w : World) (now : Instant) (value : String)
    (ttl : Span) :
    let moves := List.replicate (if ttl.isZero then 2 else 3) (.advance now w.calls.length)
    let w' := w.run key (.call value ttl :: moves)
    let answer := Link.keepAlive now key value ttl w.link
    answer.2 = w'.link ∧
      (answer.1 = .ok () ↔ ∃ k, w'.calls[w.calls.length]? = some ⟨value, ttl, .kept k⟩) := by
  let w₁ := w.step key (.call value ttl)
  cases hzero : ttl.isZero with
  | true =>
      have hcalls : w₁.calls = w.calls ++ [⟨value, ttl, .writing none⟩] := by
        simp only [w₁, World.step, hzero, if_true]
      have hfinish := finish_uninterrupted key hcalls now
      have hlink : w₁.link = w.link := link_new hcalls rfl
      have hanswer : Link.keepAlive now key value ttl w.link =
          finishCall now key value ttl none w.link := by
        simp only [Link.keepAlive, Link.whenOpen, Link.putLeased, hzero]
        rfl
      rw [hlink] at hfinish
      simp only [hanswer]
      exact hfinish
  | false =>
      have hcalls : w₁.calls = w.calls ++ [⟨value, ttl, .granting⟩] := by
        simp only [w₁, World.step, hzero]
        rfl
      have hlink : w₁.link = w.link := link_new hcalls rfl
      have hrun : w.run key (.call value ttl :: List.replicate 3 (.advance now w.calls.length)) =
          (w₁.proceed key now w.calls.length ⟨value, ttl, .granting⟩).run key
            (List.replicate 2 (.advance now w.calls.length)) := by
        rw [← step_new hcalls]
        rfl
      have hanswer : Link.keepAlive now key value ttl w.link =
          Link.andThen (w.link.ask (Server.requestLease ttl.leaseSeconds))
            (fun lease l => finishCall now key value ttl (some lease) l) := by
        have hopen : w.link.client.closed = false := rfl
        simp only [Link.keepAlive, Link.whenOpen, Link.putLeased, hopen, hzero, Bool.false_eq_true,
          if_false]
        rcases w.link.ask (Server.requestLease ttl.leaseSeconds) with ⟨failure | lease, l⟩ <;> rfl
      simp only [hanswer, Bool.false_eq_true, if_false, hrun, World.proceed, Link.ask]
      have hserver : w.link.server = w₁.server := rfl
      rw [hserver]
      rcases Server.requestLease ttl.leaseSeconds w₁.server with ⟨text | lease, server⟩
      · have hfailed : (w₁.after w.calls.length ⟨value, ttl, .granting⟩ none .failed server).calls =
            w.calls ++ [⟨value, ttl, .failed⟩] := by
          simp only [World.after, hcalls, set_new]
        have hstill := failed_new key hfailed rfl now 2
        simp only [hstill, link_new hfailed rfl]
        refine ⟨rfl, ?_⟩
        simp [hfailed, Link.andThen]
      · have hgranted : (w₁.after w.calls.length ⟨value, ttl, .granting⟩ none
            (.writing (some lease)) server).calls =
              w.calls ++ [⟨value, ttl, .writing (some lease)⟩] := by
          simp only [World.after, hcalls, set_new]
        have hfinish := finish_uninterrupted key hgranted now
        rw [link_new hgranted rfl] at hfinish
        exact hfinish

end Rollcall.Etcd.Keeping
