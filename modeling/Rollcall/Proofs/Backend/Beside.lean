import Rollcall.Proofs.Backend.Asking
import Rollcall.Proofs.Etcd.Unbroken
import Rollcall.Proofs.Store.Backlog

/-!
The backend in memory and the one on etcd beside each other. Callers ask both for the same,
one request after the other; meanwhile the server brings what it has done on its watch
streams in responses of any size, the forwarders take their steps, and the receivers take
what they find, all of it in any order. Nothing breaks a stream. Of one watch, what has been
sent and what is under way are what the changes so far are due. Main statements:
`Follows.start`, and `write`, `take`, `bring` and `forward` of `Sends` and `Brings`.
-/

namespace Rollcall

def Event.ahead (base : Int) : Event → Event
  | .change c => .change (c.ahead base)
  | .refresh => .refresh

namespace Etcd

/-- What a server has done once it has done something more, if it has, to a key. -/
def Source.follow (source : Source) (key : String) (before after : Server) : Source :=
  if after.revision = before.revision then source else source.write [after.deed key]

end Etcd

namespace Agreement

open Etcd

/-- A backend with what its callers have been answered and its receivers have taken. -/
structure Side (σ : Type) where
  state : σ
  replies : List (Except Failure Reply)
  taken : List (Nat × Event)

def listing? : Except Failure Reply → Option Listing
  | .ok (.listing l) => some l
  | _ => none

namespace Side

variable {σ : Type}

def listings (side : Side σ) : List Listing := side.replies.filterMap listing?

def takenFrom (side : Side σ) (id : Nat) : List Event :=
  (side.taken.filter (fun p => p.1 = id)).map Prod.snd

def ask (b : Backend σ) (a : Ask) (side : Side σ) : Side σ :=
  match a.call? b side.listings with
  | none => side
  | some call =>
      let (answer, state) := call.exec side.state
      { side with state, replies := side.replies ++ [answer] }

def receive (b : Backend σ) (id : Nat) (side : Side σ) : Side σ :=
  let (found, state) := b.receive id side.state
  { side with state, taken := side.taken ++ found.events.map (fun e => (id, e)) }

end Side

/-- `source` is what the server has done, `courses` how far it has brought that on each of
its streams. -/
structure World where
  memory : Side Memory
  etcd : Side Link
  source : Source
  courses : List Course

inductive Move where
  | ask (a : Ask)
  /-- A stream brings what it has not brought yet, up to a revision. -/
  | bring (id : Nat) (next : Int)
  /-- One step of a job of the client. -/
  | advance (id : Nat)
  | receiveInMemory (id : Nat)
  | receiveOnEtcd (id : Nat)
deriving DecidableEq

def Move.isAsk : Move → Bool
  | .ask _ => true
  | _ => false

def asks (moves : List (Instant × Move)) : Nat := moves.countP (fun m => m.2.isAsk)

namespace World

def server (w : World) : Server := w.etcd.state.server

/-- Two new backends; the revisions of the server are ahead. -/
def start (limit : Nat) (base : Int) : World where
  memory := ⟨.create limit, [], []⟩
  etcd := ⟨⟨{ Server.empty with revision := base }, .create⟩, [], []⟩
  source := ⟨[], base, 0⟩
  courses := []

/-- A new stream starts where the server is asked to start it. -/
def ask (w : World) (now : Instant) (a : Ask) : World :=
  let etcd := w.etcd.ask (Link.backend now) a
  { memory := w.memory.ask (Memory.backend now) a
    etcd
    source := w.source.follow a.key w.server etcd.state.server
    courses := w.courses ++ etcd.state.server.courses.drop w.courses.length }

def withLink (w : World) (l : Link) : World := { w with etcd := { w.etcd with state := l } }

def bring (w : World) (id : Nat) (next : Int) : World :=
  match w.courses[id]? with
  | none => w
  | some course =>
      if course.cursor ≤ next ∧ next ≤ w.source.revision + 1 then
        let message := .response (w.source.response course.scope course.cursor next)
        { w.withLink { w.etcd.state with server := (w.server.send id message).2 } with
          courses := w.courses.set id { course with cursor := next } }
      else w

def step (w : World) (now : Instant) : Move → World
  | .ask a => w.ask now a
  | .bring id next => w.bring id next
  | .advance id => w.withLink (w.etcd.state.advance now id)
  | .receiveInMemory id => { w with memory := w.memory.receive (Memory.backend now) id }
  | .receiveOnEtcd id => { w with etcd := w.etcd.receive (Link.backend now) id }

def run (w : World) (moves : List (Instant × Move)) : World :=
  moves.foldl (fun w m => w.step m.1 m.2) w

def sentInMemory (w : World) (id : Nat) : List Event :=
  w.memory.takenFrom id ++ w.memory.state.store.channels.waitingOn id

def sentOnEtcd (w : World) (id : Nat) : List Event :=
  w.etcd.takenFrom id ++ w.etcd.state.client.channels.waitingOn id

/-- A stream has brought all that the server has done, and its forwarder has taken it. -/
def Drained (w : World) (id : Nat) : Prop :=
  w.courses[id]?.map Course.cursor = some (w.source.revision + 1) ∧
    (w.server.streams.get? id).map Stream.messages = some []

/-- Nothing is asked for that the history in memory has lost. -/
def isKept (w : World) : Move → Bool
  | .ask a => a.isKept w.memory.state.store w.memory.listings
  | _ => true

def Kept : World → List (Instant × Move) → Prop
  | _, [] => True
  | w, m :: rest => w.isKept m.2 = true ∧ (w.step m.1 m.2).Kept rest

end World

structure InMemory where
  channel : Option Channel
  taken : List Event

structure OnEtcd where
  channel : Option Channel
  taken : List Event
  job : Option Job
  stream : Option Stream
  course : Option Course

def World.inMemory (w : World) (id : Nat) : InMemory where
  channel := w.memory.state.store.channels.find? id
  taken := w.memory.takenFrom id

def World.onEtcd (w : World) (id : Nat) : OnEtcd where
  channel := w.etcd.state.client.channels.find? id
  taken := w.etcd.takenFrom id
  job := w.etcd.state.client.jobs[id]?
  stream := w.server.streams.get? id
  course := w.courses[id]?

def sourceOf (base : Int) (made : List Change) : Source :=
  ⟨made.map (deedOf base), base + made.length, 0⟩

def due (made : List Change) (scope : Scope) (version : Int) : List Change :=
  made.filter (fun c => version < c.version && scope.covers c.pair.key)

/-- A watch in memory: all that is due has been sent. -/
def Sends (made : List Change) (id : Nat) (scope : Scope) (version : Int) (m : InMemory) : Prop :=
  ∃ waiting, m.channel = some ⟨id, scope, waiting, true⟩ ∧
    m.taken ++ waiting = (due made scope version).map Event.change

/-- A watch on etcd: what has been sent, with what is still on the stream, is what the stream
has brought. -/
structure Brings (base : Int) (made : List Change) (id : Nat) (scope : Scope) (version : Int)
    (e : OnEtcd) (waiting : List Event) (responses : List WatchResponse) (cursor next : Int) :
    Prop where
  channel : e.channel = some ⟨id, scope, waiting, true⟩
  job : e.job = some (.forwarder ⟨id, scope, next, .following id⟩)
  stream : e.stream = some ⟨responses.map Message.response, true⟩
  course : e.course = some ⟨scope, cursor⟩
  intact : ∀ r ∈ responses, r.compactRevision = 0 ∧ r.canceled = false
  first_le : version + base + 1 ≤ cursor
  le_last : cursor ≤ base + made.length + 1
  told : e.taken ++ (waiting ++
      (responses.flatMap (fun r => toldBy r.events)).map Event.change) =
    (span (version + base + 1) cursor ((sourceOf base made).told scope)).map Event.change

structure Follows (base : Int) (made : List Change) (id : Nat) (scope : Scope) (version : Int)
    (m : InMemory) (e : OnEtcd) : Prop where
  started : version ≤ made.length
  sends : Sends made id scope version m
  brings : ∃ waiting responses cursor next,
    Brings base made id scope version e waiting responses cursor next

section Changes

variable {base : Int} {made : List Change} {scope : Scope} {version : Int}

/-- A server that has made these changes tells a watch of the ones that concern it, with
their versions ahead by the base. -/
theorem told_sourceOf (base : Int) (made : List Change) (scope : Scope) :
    (sourceOf base made).told scope =
      (made.filter (fun c => scope.covers c.pair.key)).map (Change.ahead base) := by
  have hin : (fun d : Deed => d.isIn scope) ∘ deedOf base = fun c => scope.covers c.pair.key :=
    funext (fun c => isIn_deedOf base c scope)
  have htold : WatchEvent.change? ∘ Deed.event ∘ deedOf base = some ∘ Change.ahead base :=
    funext (change?_deedOf base)
  rw [Source.told, sourceOf, List.filter_map, hin, List.map_map, toldBy, List.filterMap_map, htold,
    ← List.filterMap_map, List.filterMap_some]

theorem ahead_version (base : Int) (c : Change) : (c.ahead base).version = c.version + base := by
  unfold Change.ahead
  cases c.kind <;> rfl

/-- The changes have ascending versions, so what a server tells is ordered as the
assumptions on its streams ask. -/
theorem ordered_told (h : Consecutive 0 made) (base : Int) (scope : Scope) :
    Ordered ((sourceOf base made).told scope) := by
  rw [told_sourceOf, Ordered, List.pairwise_map]
  apply (h.ascending.filter _).imp
  intro a b hab
  rw [ahead_version, ahead_version]
  left
  omega

theorem sourceOf_append (base : Int) (made : List Change) (c : Change) :
    sourceOf base (made ++ [c]) = (sourceOf base made).write [deedOf base c] := by
  simp only [sourceOf, Source.write, List.map_append, List.map_cons, List.map_nil,
    List.length_append, List.length_singleton, Source.mk.injEq, true_and, and_true]
  omega

/-- All that a stream brings from after the version up to the end is what is due. -/
theorem span_told (h : Consecutive 0 made) (base : Int) (scope : Scope) (version : Int) :
    span (version + base + 1) (base + made.length + 1) ((sourceOf base made).told scope) =
      (due made scope version).map (Change.ahead base) := by
  rw [told_sourceOf, span, List.filter_map, List.filter_filter, due]
  congr 1
  apply List.filter_congr
  intro c hc
  have hlast := (h.lt_version c hc).2
  rw [Bool.eq_iff_iff]
  simp only [Function.comp_apply, ahead_version, Bool.and_eq_true, decide_eq_true_eq]
  constructor
  · rintro ⟨⟨hfirst, -⟩, hcovers⟩
    exact ⟨by omega, hcovers⟩
  · rintro ⟨hfirst, hcovers⟩
    exact ⟨⟨by omega, by omega⟩, hcovers⟩

/-- A change that is made later is due too, if it concerns the watch. -/
theorem due_append {c : Change} (hversion : version < c.version) (scope : Scope) :
    due (made ++ [c]) scope version =
      due made scope version ++ [c].filter (fun c => scope.covers c.pair.key) := by
  rw [due, due, List.filter_append]
  congr 1
  apply List.filter_congr
  intro d hd
  rw [List.mem_singleton.mp hd, decide_eq_true hversion, Bool.true_and]

end Changes

section Follows

variable {base : Int} {made : List Change} {id : Nat} {scope : Scope} {version : Int}
  {m : InMemory} {e : OnEtcd}

theorem offer_eq (e : Event) (id : Nat) (scope : Scope) (waiting : List Event) :
    Channel.offer e ⟨id, scope, waiting, true⟩ =
      ⟨id, scope, waiting ++ [e].filter scope.wants, true⟩ := by
  unfold Channel.offer
  by_cases h : scope.wants e = true <;> simp [h]

theorem Sends.write (h : Sends made id scope version m) {c : Change}
    (hversion : version < c.version) :
    Sends (made ++ [c]) id scope version
      { m with channel := m.channel.map (Channel.offer (.change c)) } := by
  obtain ⟨waiting, hchannel, hsent⟩ := h
  refine ⟨waiting ++ [Event.change c].filter scope.wants, ?_, ?_⟩
  · rw [hchannel, Option.map_some, offer_eq]
  · have hwanted : [Event.change c].filter scope.wants =
        ([c].filter (fun c => scope.covers c.pair.key)).map Event.change :=
      List.filter_map (f := Event.change) (l := [c])
    rw [due_append hversion, List.map_append, ← hsent, hwanted, List.append_assoc]

/-- What the receiver takes was waiting, so it has been sent the same as before. -/
theorem Sends.take (h : Sends made id scope version m) {found rest : List Event} {c : Channel}
    (hc : m.channel = some c) (hfound : found ++ rest = c.waiting) :
    Sends made id scope version
      ⟨some { c with waiting := rest }, m.taken ++ found⟩ := by
  obtain ⟨waiting, hchannel, hsent⟩ := h
  obtain rfl := Option.some.inj (hc.symm.trans hchannel)
  exact ⟨rest, rfl, by rw [List.append_assoc, hfound, hsent]⟩

/-- A new watch follows on both sides: in memory it begins with the backlog, on etcd with a
stream that has yet to bring everything from the next revision on. -/
theorem Follows.start {s : Store} (h : s.Coherent made) (hfrom : s.compacted ≤ version)
    (hto : version ≤ s.revision) (base : Int) (id : Nat) (scope : Scope) :
    Follows base made id scope version
      ⟨some ⟨id, scope, s.backlog scope version, true⟩, []⟩
      ⟨some ⟨id, scope, [], true⟩, [],
        some (.forwarder ⟨id, scope, version + base + 1, .following id⟩), some ⟨[], true⟩,
        some ⟨scope, version + base + 1⟩⟩ := by
  have hlast := h.revision_eq
  refine ⟨by omega, ⟨_, rfl, ?_⟩, [], [], version + base + 1, version + base + 1, ?_⟩
  · rw [List.nil_append, Store.backlog_of_le h hfrom, due]
  · exact {
      channel := rfl
      job := rfl
      stream := rfl
      course := rfl
      intact := nofun
      first_le := Int.le_refl _
      le_last := by omega
      told := by rw [span_of_le (Int.le_refl _)]; rfl }

namespace Brings

variable {waiting : List Event} {responses : List WatchResponse} {cursor next : Int}

/-- Nothing has been told yet of a change that has just been made. -/
theorem write (h : Brings base made id scope version e waiting responses cursor next) {c : Change}
    (hc : c.version = made.length + 1) :
    Brings base (made ++ [c]) id scope version e waiting responses cursor next :=
  { h with
    le_last := by
      have := h.le_last
      rw [List.length_append]
      omega
    told := by
      have hrevision : ∀ d ∈ [deedOf base c], d.revision = (sourceOf base made).revision + 1 := by
        intro d hd
        rw [List.mem_singleton.mp hd, deedOf_revision, hc]
        simp only [sourceOf]
        omega
      rw [sourceOf_append, Source.span_told_write hrevision h.le_last]
      exact h.told }

theorem bring (h : Brings base made id scope version e waiting responses cursor next)
    (hordered : Ordered ((sourceOf base made).told scope)) {later : Int} (hfrom : cursor ≤ later)
    (hto : later ≤ base + made.length + 1) :
    let r := (sourceOf base made).response scope cursor later
    Brings base made id scope version
      { e with
        stream := e.stream.map (fun t => { t with messages := t.messages ++ [.response r] })
        course := some ⟨scope, later⟩ }
      waiting (responses ++ [r]) later next := by
  intro r
  refine { h with
    stream := ?_
    course := rfl
    intact := ?_
    first_le := ?_
    le_last := hto
    told := ?_ }
  · rw [h.stream, Option.map_some, List.map_append]
    rfl
  · intro r' hr'
    rcases List.mem_append.mp hr' with hold | hnew
    · exact h.intact r' hold
    · rw [List.mem_singleton.mp hnew]
      exact ⟨rfl, rfl⟩
  · exact Int.le_trans h.first_le hfrom
  · have hr : toldBy r.events = span cursor later ((sourceOf base made).told scope) :=
      Source.toldBy_response _ _ _ _
    rw [← hordered.span_append h.first_le hfrom, List.map_append, ← h.told, List.flatMap_append,
      List.flatMap_singleton, hr, List.map_append, List.append_assoc, List.append_assoc]

/-- A forwarder sends what the first response on its stream carries. -/
theorem forward {r : WatchResponse} {rest : List WatchResponse}
    (h : Brings base made id scope version e waiting (r :: rest) cursor next) (later : Int) :
    Brings base made id scope version
      { e with
        channel := some ⟨id, scope, waiting ++ (toldBy r.events).map Event.change, true⟩
        job := some (.forwarder ⟨id, scope, later, .following id⟩)
        stream := some ⟨rest.map Message.response, true⟩ }
      (waiting ++ (toldBy r.events).map Event.change) rest cursor later :=
  { h with
    channel := rfl
    job := rfl
    stream := rfl
    intact := fun r' hr' => h.intact r' (List.mem_cons_of_mem _ hr')
    told := by
      have htold := h.told
      rw [List.flatMap_cons, List.map_append] at htold
      rw [← htold, List.append_assoc] }

theorem take (h : Brings base made id scope version e waiting responses cursor next)
    {found rest : List Event} (hfound : found ++ rest = waiting) :
    Brings base made id scope version
      { e with channel := some ⟨id, scope, rest, true⟩, taken := e.taken ++ found }
      rest responses cursor next :=
  { h with
    channel := rfl
    told := by rw [← h.told, ← hfound, List.append_assoc, List.append_assoc] }

theorem fits (h : Brings base made id scope version e waiting responses cursor next)
    (hfits : base + made.length + 1 < 0x8000000000000000) {r : WatchResponse}
    (hr : r ∈ responses) : ∀ d ∈ toldBy r.events, d.version + 1 < 0x8000000000000000 := by
  intro d hd
  have hmem : Event.change d ∈ e.taken ++ (waiting ++
      (responses.flatMap (fun r => toldBy r.events)).map Event.change) :=
    List.mem_append_right _ (List.mem_append_right _
      (List.mem_map.mpr ⟨d, List.mem_flatMap.mpr ⟨r, hr, hd⟩, rfl⟩))
  rw [h.told] at hmem
  obtain ⟨d', hd', heq⟩ := List.mem_map.mp hmem
  obtain rfl := Event.change.inj heq
  have hlast := (mem_span.mp hd').2.2
  have := h.le_last
  omega

end Brings

end Follows

end Agreement

end Rollcall
