import Rollcall.Proofs.Etcd.Watching
import Rollcall.Proofs.Replacing

/-!
Jobs of a client that advance one step at a time, and what a step of a forwarder does
whose stream does not break: it takes one response off its stream, sends the changes of it
on its channel and leaves every other channel as it is. Main statement:
`Link.advance_response`.
-/

namespace Rollcall

/-- Channels that differ in one of them at most. -/
structure Channels.Beside (id : Nat) (cs cs' : Channels) : Prop where
  others : ∀ other, other ≠ id → cs'.find? other = cs.find? other
  nextId : cs'.nextId = cs.nextId
  numbered : cs.Numbered → cs'.Numbered

namespace Channels

variable {cs cs' cs'' : Channels} {id : Nat}

theorem Beside.refl (id : Nat) (cs : Channels) : Beside id cs cs :=
  ⟨fun _ _ => rfl, rfl, fun h => h⟩

/-- Channels that differ in the same one at most, step after step. -/
theorem Beside.trans (h : Beside id cs cs') (h' : Beside id cs' cs'') : Beside id cs cs'' :=
  ⟨fun other hne => (h'.others other hne).trans (h.others other hne), h'.nextId.trans h.nextId,
    fun hn => h'.numbered (h.numbered hn)⟩

theorem Beside.update {f : Channel → Channel} (hid : ∀ c, (f c).id = c.id)
    (hothers : ∀ c, c.id ≠ id → f c = c) : Beside id cs (cs.update f) where
  others := by
    intro other hne
    rw [find?_update cs f hid]
    cases hc : cs.find? other with
    | none => rfl
    | some c =>
        have hother : c.id ≠ id := fun heq => hne ((find?_id hc).symm.trans heq)
        rw [Option.map_some, hothers c hother]
  nextId := rfl
  numbered := fun hn => numbered_update hn hid

theorem beside_sendTo (cs : Channels) (id : Nat) (e : Event) : Beside id cs (cs.sendTo id e) := by
  refine Beside.update (fun c => ?_) (fun c hne => ?_)
  · split <;> rfl
  · simp [hne]

theorem beside_setWaiting (cs : Channels) (id : Nat) (waiting : List Event) :
    Beside id cs (cs.setWaiting id waiting) := by
  refine Beside.update (fun c => ?_) (fun c hne => if_neg hne)
  split <;> rfl

theorem beside_receive (cs : Channels) (id : Nat) : Beside id cs (cs.receive id).2 := by
  rcases receive_eq cs id with hsame | ⟨rest, hset⟩
  · rw [hsame]
    exact .refl id cs
  · rw [hset]
    exact beside_setWaiting cs id rest

end Channels

namespace Etcd

namespace Forwarder

theorem beside_sendEvents (f : Forwarder) (cs : Channels) (events : List WatchEvent) :
    cs.Beside f.channel (f.sendEvents cs events).2.2 := by
  induction events generalizing f cs with
  | nil => exact .refl _ _
  | cons e rest ih =>
      rw [sendEvents_cons]
      cases e.change? with
      | none => exact ih f cs
      | some c =>
          dsimp only
          split
          · unfold sendOne
            by_cases hheld : cs.isHeld f.channel = true
            · simp only [if_pos hheld]
              have hrest := ih { f with nextRevision := c.version + 1 }
                (cs.sendTo f.channel (.change c))
              exact (cs.beside_sendTo f.channel (.change c)).trans hrest
            · simp only [if_neg hheld]
              exact .refl _ _
          · exact .refl _ _

end Forwarder

namespace Link

/-- One step of a job, which stays in its place until it is finished. -/
def advance (now : Instant) (i : Nat) (l : Link) : Link :=
  match l.client.jobs[i]? with
  | none => l
  | some job =>
      match l.stepJob now job with
      | (.again job, l) | (.rest job, l) =>
          { l with client := { l.client with jobs := l.client.jobs.set i job } }
      | (.finished, l) =>
          { l with client := { l.client with jobs := l.client.jobs.eraseIdx i } }

section

variable {l : Link} {i stream : Nat} {f : Forwarder}

theorem advance_idle (hopen : l.client.closed = false)
    (hjob : l.client.jobs[i]? = some (.forwarder f)) (hphase : f.phase = .following stream)
    (hstream : l.server.streams.get? stream = some ⟨[], true⟩) (now : Instant) :
    l.advance now i = l := by
  have hstep : f.step now l.client.closed l.server l.client.channels =
      (.rest f, l.server, l.client.channels) := by
    simp only [Forwarder.step, hphase, hopen, Bool.false_eq_true, if_false,
      Watching.nextMessage_nil hstream]
  simp only [advance, hjob, stepJob, hstep, set_of_getElem? hjob]

/-- A response that breaks nothing is sent in full, if its revisions have room. -/
theorem advance_response (hopen : l.client.closed = false)
    (hjob : l.client.jobs[i]? = some (.forwarder f)) (hphase : f.phase = .following stream)
    {r : WatchResponse} {rest : List Message}
    (hstream : l.server.streams.get? stream = some ⟨.response r :: rest, true⟩)
    (hintact : r.compactRevision = 0 ∧ r.canceled = false) {c : Channel}
    (hc : l.client.channels.find? f.channel = some c) (hisOpen : c.isOpen = true)
    (hfits : ∀ d ∈ toldBy r.events, d.version + 1 < 0x8000000000000000) (now : Instant) :
    ∃ next cs,
      l.advance now i =
        ⟨{ l.server with
            streams := l.server.streams.modify stream (fun t => { t with messages := rest }) },
          { l.client with
            jobs := l.client.jobs.set i (.forwarder { f with nextRevision := next })
            channels := cs }⟩ ∧
      l.client.channels.Beside f.channel cs ∧
      cs.find? f.channel =
        some { c with waiting := c.waiting ++ (toldBy r.events).map Event.change } := by
  obtain ⟨result, f', cs, sent, hsend, -, hfound, hresult⟩ :=
    Forwarder.sendEvents_spec hc hisOpen r.events
  have hbeside := f.beside_sendEvents l.client.channels r.events
  rw [hsend] at hbeside
  have hforward : f.forward l.client.channels r = (result, f', cs) := by
    rw [Forwarder.forward, if_neg (by simp [hintact]), hsend]
  rcases hresult with ⟨rfl, rfl, rfl⟩ | ⟨-, -, d, hd, hend⟩
  · have hstep : f.step now l.client.closed l.server l.client.channels =
        (.again { f with nextRevision := nextAfter f.nextRevision (toldBy r.events) },
          { l.server with
            streams := l.server.streams.modify stream (fun t => { t with messages := rest }) },
          cs) := by
      simp only [Forwarder.step, hphase, hopen, Bool.false_eq_true, if_false, Server.nextMessage,
        hstream, hforward]
    refine ⟨nextAfter f.nextRevision (toldBy r.events), cs, ?_, hbeside, hfound⟩
    simp only [advance, hjob, stepJob, hstep]
  · have := hfits d hd
    omega

end

end Link

end Etcd

end Rollcall
