import Rollcall.Proofs.Etcd.Source
import Rollcall.Proofs.Table

/-!
Watches of a backend on etcd leave no silent gap. A forwarder follows a stream
that the server may break at any moment, and opens the next one at the revision
after the last change that it told; a compaction that has overtaken it costs a
refresh. The server's deeds, what the streams bring, failures of every kind and
the receiver interleave in any order. Main statement: `no_silent_gap`.
-/

namespace Rollcall.Etcd.Watching

/-- A forwarder with its surroundings. `cursor` is what the followed stream has
reached; `sent` is all that the receiver was sent, each with the revision up to
which the server had compacted then, and `taken` what the receiver took of it. -/
structure World where
  source : Source
  cursor : Int
  link : Link
  channel : Nat
  job : Option Forwarder
  sent : List (Event × Int)
  taken : List Event

namespace World

def waitingOn (w : World) (l : Link) : List Event :=
  ((l.client.channels.find? w.channel).map Channel.waiting).getD []

def bring (w : World) (stream : Nat) (m : Message) (reached : Int) : World :=
  { w with
    cursor := reached
    link := { w.link with server := (w.link.server.send stream m).2 } }

def left : Progress Job → Option Forwarder
  | .again (.forwarder f) | .rest (.forwarder f) => some f
  | _ => none

/-- One step of the forwarder. A stream that it opens starts at its next revision. -/
def advance (w : World) (now : Instant) (f : Forwarder) : World :=
  let (progress, link) := w.link.stepJob now (.forwarder f)
  let told := (w.waitingOn link).drop (w.waitingOn w.link).length
  { w with
    link
    job := left progress
    cursor := match f.phase with
      | .waiting _ => f.nextRevision
      | .following _ => w.cursor
    sent := w.sent ++ told.map (fun e => (e, w.source.compacted)) }

def receive (w : World) : World :=
  let (found, link) := w.link.receive w.channel
  { w with link, taken := w.taken ++ found.events }

/-- Whatever else happens to the client and its server: it leaves the client open,
the channel alone, and the followed stream too. -/
def Spares (w : World) (l : Link) : Prop :=
  l.client.closed = false ∧
    l.client.channels.find? w.channel = w.link.client.channels.find? w.channel ∧
    ∀ f stream, w.job = some f → f.phase = .following stream →
      l.server.streams.get? stream = w.link.server.streams.get? stream

end World

/-- A watch that a client has just opened on a server with any past. -/
structure Opened (scope : Scope) (version : Int) (w : World) : Prop where
  valid : w.source.Valid
  opens : ∃ before f, before.client.channels.Numbered ∧ w.job = some f ∧ w.channel = f.channel ∧
    Link.watch scope version before = (.ok f.channel, w.link.addJob (.forwarder f))
  reached : w.cursor = version + 1
  sent : w.sent = []
  taken : w.taken = []

inductive Step : World → World → Prop where
  /-- A new revision of the server changes any keys, each once. -/
  | write {w : World} (deeds : List Deed)
      (hrevision : ∀ d ∈ deeds, d.revision = w.source.revision + 1)
      (hkeys : deeds.Pairwise (fun a b => a.kv.key ≠ b.kv.key)) :
      Step w { w with source := w.source.write deeds }
  | compact {w : World} (revision : Int) (hfrom : w.source.compacted ≤ revision)
      (hto : revision ≤ w.source.revision) :
      Step w { w with source := { w.source with compacted := revision } }
  | bring {w : World} {f : Forwarder} {stream : Nat} {m : Message} {reached : Int}
      (hjob : w.job = some f) (hphase : f.phase = .following stream)
      (hm : Offer w.source f.scope w.cursor m reached) : Step w (w.bring stream m reached)
  | advance {w : World} (now : Instant) {f : Forwarder} (hjob : w.job = some f) :
      Step w (w.advance now f)
  | receive {w : World} : Step w w.receive
  | others {w : World} (l : Link) (h : w.Spares l) : Step w { w with link := l }

inductive Reachable (scope : Scope) (version : Int) : World → Prop where
  | opened {w : World} (h : Opened scope version w) : Reachable scope version w
  | step {w w' : World} (h : Reachable scope version w) (hstep : Step w w') :
      Reachable scope version w'

section Spec

variable {w : World} {c : Channel}

def World.told (w : World) : List Change := changesOf (w.sent.map Prod.fst)

/-- A change was told, or a refresh was sent when the compaction had passed it. -/
def Accounted (w : World) (c : Change) : Prop :=
  c ∈ w.told ∨ ∃ compacted, (.refresh, compacted) ∈ w.sent ∧ c.version < compacted

/-- Where a forwarder stands. What it has told lies before its next revision, and
nothing is left to tell between that and what its stream brings next. -/
structure Position (scope : Scope) (version : Int) (w : World) (f : Forwarder) : Prop where
  onChannel : f.channel = w.channel
  inScope : f.scope = scope
  started : version + 1 ≤ f.nextRevision
  reached : f.nextRevision = version + 1 ∨ f.nextRevision ≤ w.source.revision + 1
  told : w.told.Sublist (span (version + 1) f.nextRevision (w.source.told scope))
  accounted : ∀ c ∈ span (version + 1) f.nextRevision (w.source.told scope), Accounted w c
  stream : ∀ stream, f.phase = .following stream → ∃ messages start,
    w.link.server.streams.get? stream = some ⟨messages, true⟩ ∧ f.nextRevision ≤ start ∧
      (start = f.nextRevision ∨ start ≤ w.source.revision + 1) ∧
      span f.nextRevision start (w.source.told scope) = [] ∧
      Feeds w.source scope start messages w.cursor

structure Inv (scope : Scope) (version : Int) (w : World) : Prop where
  valid : w.source.Valid
  isOpen : w.link.client.closed = false
  channel : ∃ c, w.link.client.channels.find? w.channel = some c ∧
    w.taken ++ c.waiting = w.sent.map Prod.fst ∧ (w.job ≠ none → c.isOpen = true)
  told : w.told.Sublist (w.source.told scope)
  position : ∀ f, w.job = some f → Position scope version w f
  alive : w.job = none → ∃ c ∈ w.source.told scope, 0x8000000000000000 ≤ c.version + 1

end Spec

section Surroundings

variable {scope : Scope} {version : Int} {w : World}

/-- A span that has ended, or is empty, gains nothing from a later write. -/
theorem span_write (scope : Scope) {s : Source} {deeds : List Deed}
    (hrevision : ∀ d ∈ deeds, d.revision = s.revision + 1) {first last : Int}
    (hlast : last = first ∨ last ≤ s.revision + 1) :
    span first last ((s.write deeds).told scope) = span first last (s.told scope) := by
  rcases hlast with rfl | hdone
  · rw [span_of_le (Int.le_refl _), span_of_le (Int.le_refl _)]
  · exact Source.span_told_write hrevision hdone

/-- A write on the server comes after all that has been told, and the stream has yet to
bring it. -/
theorem Inv.write (h : Inv scope version w) {deeds : List Deed}
    (hrevision : ∀ d ∈ deeds, d.revision = w.source.revision + 1)
    (hkeys : deeds.Pairwise (fun a b => a.kv.key ≠ b.kv.key)) :
    Inv scope version { w with source := w.source.write deeds } where
  valid := h.valid.write hrevision hkeys
  isOpen := h.isOpen
  channel := h.channel
  told := by
    simp only [Source.told_write]
    exact h.told.trans (List.sublist_append_left _ _)
  position := by
    intro f hf
    have hp := h.position f hf
    have hspan := span_write scope hrevision hp.reached
    refine ⟨hp.onChannel, hp.inScope, hp.started, ?_, ?_, ?_, ?_⟩
    · have := hp.reached
      simp only [Source.write]
      omega
    · simp only [hspan]
      exact hp.told
    · simp only [hspan]
      exact hp.accounted
    · intro stream hphase
      obtain ⟨messages, start, hstream, hfrom, hdone, hquiet, hfeeds⟩ := hp.stream stream hphase
      refine ⟨messages, start, hstream, hfrom, ?_, ?_, hfeeds.write hrevision⟩
      · simp only [Source.write]
        omega
      · exact (span_write scope hrevision hdone).trans hquiet
  alive := by
    intro hnone
    obtain ⟨c, hc, hend⟩ := h.alive hnone
    refine ⟨c, ?_, hend⟩
    rw [Source.told_write]
    exact List.mem_append_left _ hc

/-- A compaction takes from the server what a stream that is opened later cannot bring any
more; what was sent stays accounted for. -/
theorem Inv.compact (h : Inv scope version w) {revision : Int}
    (hfrom : w.source.compacted ≤ revision) (hto : revision ≤ w.source.revision) :
    Inv scope version { w with source := { w.source with compacted := revision } } where
  valid := h.valid.compact hto
  isOpen := h.isOpen
  channel := h.channel
  told := h.told
  position := by
    intro f hf
    have hp := h.position f hf
    refine ⟨hp.onChannel, hp.inScope, hp.started, hp.reached, hp.told, hp.accounted, ?_⟩
    intro stream hphase
    obtain ⟨messages, start, hstream, hstart, hdone, hquiet, hfeeds⟩ := hp.stream stream hphase
    exact ⟨messages, start, hstream, hstart, hdone, hquiet, hfeeds.compact hfrom⟩
  alive := h.alive

theorem send_eq {s : Server} {stream : Nat} {messages : List Message}
    (h : s.streams.get? stream = some ⟨messages, true⟩) (m : Message) :
    (s.send stream m).2.streams.get? stream = some ⟨messages ++ [m], true⟩ := by
  have hheld : s.isHeld stream = true := by simp [Server.isHeld, h]
  simp only [Server.send, hheld, if_true, Table.get?_modify, h, Option.map_some]

/-- A message that the followed stream may bring carries on from what it has reached. -/
theorem Inv.bring (h : Inv scope version w) {f : Forwarder} {stream : Nat} {m : Message}
    {reached : Int} (hjob : w.job = some f) (hphase : f.phase = .following stream)
    (hm : Offer w.source f.scope w.cursor m reached) :
    Inv scope version (w.bring stream m reached) where
  valid := h.valid
  isOpen := h.isOpen
  channel := h.channel
  told := h.told
  position := by
    intro f' hf'
    obtain rfl : f = f' := Option.some.inj (hjob.symm.trans hf')
    have hp := h.position f hjob
    refine ⟨hp.onChannel, hp.inScope, hp.started, hp.reached, hp.told, hp.accounted, ?_⟩
    intro stream' hphase'
    obtain rfl : stream = stream' := by
      rw [hphase] at hphase'
      exact ForwarderPhase.following.inj hphase'
    obtain ⟨messages, start, hstream, hstart, hdone, hquiet, hfeeds⟩ := hp.stream stream hphase
    rw [hp.inScope] at hm
    exact ⟨messages ++ [m], start, send_eq hstream m, hstart, hdone, hquiet, hfeeds.offer hm⟩
  alive := h.alive

/-- The receiver takes from its channel, and nothing that was sent changes. -/
theorem Inv.receive (h : Inv scope version w) : Inv scope version w.receive := by
  obtain ⟨c, hc, htaken, hopen⟩ := h.channel
  obtain ⟨rest, hfound, hrest⟩ := Channels.receive_self hc
  refine ⟨h.valid, h.isOpen, ⟨_, hfound, ?_, hopen⟩, h.told, ?_, h.alive⟩
  · simp only [World.receive, Link.receive]
    rw [List.append_assoc, hrest, htaken]
  · intro f hf
    have hp := h.position f hf
    exact ⟨hp.onChannel, hp.inScope, hp.started, hp.reached, hp.told, hp.accounted, hp.stream⟩

/-- The rest of the client leaves the channel and the stream alone. -/
theorem Inv.others (h : Inv scope version w) {l : Link} (hl : w.Spares l) :
    Inv scope version { w with link := l } := by
  obtain ⟨hopen, hchannel, hstreams⟩ := hl
  refine ⟨h.valid, hopen, ?_, h.told, ?_, h.alive⟩
  · simp only [hchannel]
    exact h.channel
  · intro f hf
    have hp := h.position f hf
    refine ⟨hp.onChannel, hp.inScope, hp.started, hp.reached, hp.told, hp.accounted, ?_⟩
    intro stream hphase
    obtain ⟨messages, start, hstream, hrest⟩ := hp.stream stream hphase
    exact ⟨messages, start, (hstreams f stream hf hphase).trans hstream, hrest⟩

end Surroundings

section Advance

variable {scope : Scope} {version : Int} {w : World} {f : Forwarder} {now : Instant}

def standing : Progress Forwarder → Option Forwarder
  | .again f | .rest f => some f
  | .finished => none

theorem advance_eq (hopen : w.link.client.closed = false) {progress : Progress Forwarder}
    {server : Server} {cs : Channels} {c c' : Channel} {new : List Event}
    (hstep : f.step now false w.link.server w.link.client.channels = (progress, server, cs))
    (hc : w.link.client.channels.find? w.channel = some c)
    (hc' : cs.find? w.channel = some c') (hnew : c'.waiting = c.waiting ++ new) :
    w.advance now f =
      { w with
        link := ⟨server, { w.link.client with channels := cs }⟩
        job := standing progress
        cursor := match f.phase with
          | .waiting _ => f.nextRevision
          | .following _ => w.cursor
        sent := w.sent ++ new.map (fun e => (e, w.source.compacted)) } := by
  have htold : c'.waiting.drop c.waiting.length = new := by rw [hnew, List.drop_left]
  unfold World.advance Link.stepJob
  simp only [hopen, hstep, World.waitingOn, hc, hc', Option.map_some, Option.getD_some, htold]
  cases progress <;> rfl

theorem told_append {new : List Event} {compacted : Int} (sent : List (Event × Int)) :
    changesOf ((sent ++ new.map (fun e => (e, compacted))).map Prod.fst) =
      changesOf (sent.map Prod.fst) ++ changesOf new := by
  rw [List.map_append, List.map_map, changesOf_append]
  congr 2
  exact List.map_id' _

/-- What has to be shown of an advance: where the forwarder then stands, and that what it
has sent since is in order and accounted for. Each way of stepping is shown through this. -/
theorem Inv.advance_of (h : Inv scope version w) {progress : Progress Forwarder}
    {server : Server} {cs : Channels} {c c' : Channel} {new : List Event}
    (hstep : f.step now false w.link.server w.link.client.channels = (progress, server, cs))
    (hc : w.link.client.channels.find? w.channel = some c)
    (hc' : cs.find? w.channel = some c') (hnew : c'.waiting = c.waiting ++ new)
    (hopen : standing progress ≠ none → c'.isOpen = true)
    (htold : (w.told ++ changesOf new).Sublist (w.source.told scope))
    (hposition : ∀ f', standing progress = some f' →
      Position scope version (w.advance now f) f')
    (halive : standing progress = none →
      ∃ c ∈ w.source.told scope, 0x8000000000000000 ≤ c.version + 1) :
    Inv scope version (w.advance now f) := by
  have heq := advance_eq h.isOpen hstep hc hc' hnew
  obtain ⟨d, hd, htaken, _⟩ := h.channel
  obtain rfl : c = d := Option.some.inj (hc.symm.trans hd)
  refine ⟨?_, ?_, ⟨c', ?_, ?_, ?_⟩, ?_, ?_, ?_⟩
  · rw [heq]
    exact h.valid
  · rw [heq]
    exact h.isOpen
  · rw [heq]
    exact hc'
  · rw [heq]
    simp only [List.map_append, List.map_map, hnew, ← htaken, List.append_assoc]
    congr 2
    exact (List.map_id' _).symm
  · rw [heq]
    exact hopen
  · rw [heq]
    simp only [World.told, told_append]
    exact htold
  · intro f' hf'
    rw [heq] at hf'
    exact hposition f' hf'
  · rw [heq]
    exact halive

theorem Accounted.later {w' : World} {c : Change} (h : Accounted w c)
    {new : List (Event × Int)} (hsent : w'.sent = w.sent ++ new) : Accounted w' c := by
  rcases h with htold | ⟨compacted, hrefresh, hlt⟩
  · left
    rw [World.told, hsent, List.map_append, changesOf_append]
    exact List.mem_append_left _ htold
  · right
    refine ⟨compacted, ?_, hlt⟩
    rw [hsent]
    exact List.mem_append_left _ hrefresh

theorem nextMessage_nil {s : Server} {stream : Nat} {held : Bool}
    (h : s.streams.get? stream = some ⟨[], held⟩) : s.nextMessage stream = (none, s) := by
  simp only [Server.nextMessage, h]

theorem nextMessage_cons {s : Server} {stream : Nat} {held : Bool} {m : Message}
    {rest : List Message} (h : s.streams.get? stream = some ⟨m :: rest, held⟩) :
    ∃ s', s.nextMessage stream = (some m, s') ∧
      s'.streams.get? stream = some ⟨rest, held⟩ := by
  simp only [Server.nextMessage, h]
  refine ⟨_, rfl, ?_⟩
  simp only [Table.get?_modify, if_true, h, Option.map_some]

theorem Inv.idle (h : Inv scope version w) (hjob : w.job = some f) {stream : Nat}
    (hphase : f.phase = .following stream)
    (hstream : w.link.server.streams.get? stream = some ⟨[], true⟩) :
    Inv scope version (w.advance now f) := by
  obtain ⟨c, hc, htaken, hopen⟩ := h.channel
  have hstep : f.step now false w.link.server w.link.client.channels =
      (.rest f, w.link.server, w.link.client.channels) := by
    simp [Forwarder.step, hphase, nextMessage_nil hstream]
  have heq := advance_eq h.isOpen hstep hc hc (List.append_nil _).symm
  have hsame : w.advance now f = w := by
    rw [heq]
    simp [standing, hphase, ← hjob]
  rw [hsame]
  exact h

/-- What is sent of a response comes after all that was told before. -/
theorem Inv.sublist (h : Inv scope version w) (hjob : w.job = some f) {start next : Int}
    (hstart : f.nextRevision ≤ start)
    (hquiet : span f.nextRevision start (w.source.told scope) = []) (hnext : start ≤ next)
    {sent : List Change} (hsent : sent <+: span start next (w.source.told scope)) :
    (w.told ++ changesOf (sent.map Event.change)).Sublist (w.source.told scope) := by
  have hp := h.position f hjob
  have hordered := h.valid.told_ordered scope
  obtain ⟨hfrom, -, htold, -⟩ := hordered.span_nextAfter hstart hquiet hnext
  have hwhole := hordered.span_append hp.started hfrom
  rw [htold] at hwhole
  rw [changesOf_map_change]
  refine (hp.told.append hsent.sublist).trans ?_
  rw [hwhole]
  exact List.filter_sublist

/-- A forwarder that has told a response goes on after the last of its changes. -/
theorem Inv.tell (h : Inv scope version w) (hjob : w.job = some f) {stream : Nat}
    (hphase : f.phase = .following stream) {start next : Int} {rest : List Message}
    (hstart : f.nextRevision ≤ start)
    (hquiet : span f.nextRevision start (w.source.told scope) = []) (hnext : start ≤ next)
    (hdone : next ≤ w.source.revision + 1) (hfeeds : Feeds w.source scope next rest w.cursor)
    {server : Server} {cs : Channels} {c : Channel} {sent : List Change}
    (hsent : sent = span start next (w.source.told scope))
    (hstep : f.step now false w.link.server w.link.client.channels =
      (.again { f with nextRevision := nextAfter f.nextRevision sent }, server, cs))
    (hrest : server.streams.get? stream = some ⟨rest, true⟩)
    (hc : w.link.client.channels.find? w.channel = some c)
    (hcs : cs.find? w.channel = some { c with waiting := c.waiting ++ sent.map Event.change })
    (hopen : c.isOpen = true) : Inv scope version (w.advance now f) := by
  have hp := h.position f hjob
  have hordered := h.valid.told_ordered scope
  obtain ⟨hfrom, hto, htold, hleft⟩ := hordered.span_nextAfter hstart hquiet hnext
  have hwhole := hordered.span_append hp.started hfrom
  rw [htold, ← hsent] at hwhole
  have heq := advance_eq h.isOpen hstep hc hcs rfl
  have hprefix : sent <+: span start next (w.source.told scope) :=
    hsent ▸ List.prefix_refl sent
  have hsublist := h.sublist hjob hstart hquiet hnext hprefix
  refine h.advance_of hstep hc hcs rfl (fun _ => hopen) hsublist ?_ (fun hnone => by cases hnone)
  intro f' hf'
  obtain rfl := Option.some.inj hf'
  rw [heq]
  simp only [← hsent] at hfrom hto hleft
  have hstarted := hp.started
  refine ⟨hp.onChannel, hp.inScope, ?_, ?_, ?_, ?_, ?_⟩
  · simp only
    omega
  · right
    simp only
    omega
  · simp only [World.told, told_append, changesOf_map_change, ← hwhole]
    exact hp.told.append_right _
  · intro d hd
    simp only [← hwhole] at hd
    rcases List.mem_append.mp hd with hbefore | hnew
    · exact (hp.accounted d hbefore).later rfl
    · left
      simp only [World.told, told_append, changesOf_map_change]
      exact List.mem_append_right _ hnew
  · intro stream' hphase'
    obtain rfl : stream = stream' := by
      rw [hphase] at hphase'
      exact ForwarderPhase.following.inj hphase'
    refine ⟨rest, next, hrest, hto, .inr hdone, hleft, ?_⟩
    simp only [hphase]
    exact hfeeds

/-- A response with changes is told in full, or ends the forwarder half way. -/
theorem Inv.data (h : Inv scope version w) (hjob : w.job = some f) {stream : Nat}
    (hphase : f.phase = .following stream) {start next : Int} {rest : List Message}
    (hstream : w.link.server.streams.get? stream =
      some ⟨.response (w.source.response scope start next) :: rest, true⟩)
    (hstart : f.nextRevision ≤ start)
    (hquiet : span f.nextRevision start (w.source.told scope) = []) (hnext : start ≤ next)
    (hdone : next ≤ w.source.revision + 1)
    (hfeeds : Feeds w.source scope next rest w.cursor) :
    Inv scope version (w.advance now f) := by
  obtain ⟨c, hc, htaken, hopen⟩ := h.channel
  have hp := h.position f hjob
  have hisOpen : c.isOpen = true := hopen (by simp [hjob])
  obtain ⟨server, hmessage, hrest⟩ := nextMessage_cons hstream
  have hchannel : w.link.client.channels.find? f.channel = some c := by rw [hp.onChannel, hc]
  obtain ⟨result, f', cs, sent, hsend, hprefix, hcs, hresult⟩ :=
    Forwarder.sendEvents_spec hchannel hisOpen (w.source.response scope start next).events
  rw [Source.toldBy_response] at hprefix hresult
  rw [hp.onChannel] at hcs
  have hforward : f.forward w.link.client.channels (w.source.response scope start next) =
      (result, f', cs) := by
    rw [Forwarder.forward, if_neg (by simp [Source.response]), hsend]
  rcases hresult with ⟨rfl, hsent, rfl⟩ | ⟨rfl, hf', last, hlast, hend⟩
  · have hstep : f.step now false w.link.server w.link.client.channels =
        (.again { f with nextRevision := nextAfter f.nextRevision sent }, server, cs) := by
      simp [Forwarder.step, hphase, hmessage, hforward]
    exact h.tell hjob hphase hstart hquiet hnext hdone hfeeds hsent hstep hrest hc hcs hisOpen
  · have hstep : f.step now false w.link.server w.link.client.channels =
        (.finished, server.release stream, cs.close f'.channel) := by
      simp [Forwarder.step, hphase, hmessage, hforward]
    have hclosed : (cs.close f'.channel).find? w.channel =
        some { c with waiting := c.waiting ++ sent.map Event.change, isOpen := false } := by
      rw [Channels.close, Channels.find?_update _ _ (fun d => by split <;> rfl), hcs,
        Option.map_some, hf', hp.onChannel]
      simp [Channels.find?_id hc]
    have hsublist := h.sublist hjob hstart hquiet hnext hprefix
    refine h.advance_of hstep hc hclosed rfl (fun hne => absurd rfl hne) hsublist ?_
      (fun _ => ⟨last, (mem_span.mp hlast).1, hend⟩)
    intro f₁ hf₁
    cases hf₁

/-- A forwarder that goes on to wait has told all it will up to its next
revision, or has sent a refresh for what the compaction took. -/
theorem Inv.wait_of (h : Inv scope version w) (hjob : w.job = some f) {next : Int}
    {server : Server} {cs : Channels} {c c' : Channel} {new : List Event}
    (hstep : f.step now false w.link.server w.link.client.channels =
      (({ f with nextRevision := next } : Forwarder).wait now, server, cs))
    (hc : w.link.client.channels.find? w.channel = some c)
    (hc' : cs.find? w.channel = some c') (hnew : c'.waiting = c.waiting ++ new)
    (hopen : c'.isOpen = true) (hchanges : changesOf new = []) (hnext : f.nextRevision ≤ next)
    (hreached : next = f.nextRevision ∨ next ≤ w.source.revision + 1)
    (hlost : ∀ c ∈ span f.nextRevision next (w.source.told scope),
      .refresh ∈ new ∧ c.version < w.source.compacted) :
    Inv scope version (w.advance now f) := by
  have hp := h.position f hjob
  have hwhole := (h.valid.told_ordered scope).span_append hp.started hnext
  have heq := advance_eq h.isOpen hstep hc hc' hnew
  refine h.advance_of hstep hc hc' hnew (fun _ => hopen) ?_ ?_ (fun hnone => by cases hnone)
  · rw [hchanges, List.append_nil]
    exact h.told
  · intro f' hf'
    obtain rfl := Option.some.inj hf'
    rw [heq]
    have hstarted := hp.started
    refine ⟨hp.onChannel, hp.inScope, ?_, ?_, ?_, ?_, ?_⟩
    · simp only
      omega
    · have := hp.reached
      simp only
      omega
    · simp only [World.told, told_append, hchanges, List.append_nil, ← hwhole]
      exact hp.told.trans (List.sublist_append_left _ _)
    · intro d hd
      simp only [← hwhole] at hd
      rcases List.mem_append.mp hd with hbefore | hskipped
      · exact (hp.accounted d hbefore).later rfl
      · obtain ⟨hrefresh, hlt⟩ := hlost d hskipped
        right
        exact ⟨_, List.mem_append_right _ (List.mem_map.mpr ⟨_, hrefresh, rfl⟩), hlt⟩
    · intro stream hphase
      cases hphase

/-- A forwarder that goes on to wait where it stands, with no more sent than a refresh. -/
theorem Inv.pause (h : Inv scope version w) (hjob : w.job = some f) {server : Server}
    {cs : Channels} {c c' : Channel} {new : List Event}
    (hstep : f.step now false w.link.server w.link.client.channels = (f.wait now, server, cs))
    (hc : w.link.client.channels.find? w.channel = some c)
    (hc' : cs.find? w.channel = some c') (hnew : c'.waiting = c.waiting ++ new)
    (hopen : c'.isOpen = true) (hchanges : changesOf new = []) :
    Inv scope version (w.advance now f) := by
  refine h.wait_of hjob hstep hc hc' hnew hopen hchanges (Int.le_refl _) (.inl rfl) ?_
  intro d hd
  rw [span_of_le (Int.le_refl _)] at hd
  cases hd

theorem Inv.breaks (h : Inv scope version w) (hversion : 0 ≤ version) (hjob : w.job = some f)
    {stream : Nat} (hphase : f.phase = .following stream) {m : Message} {rest : List Message}
    (hstream : w.link.server.streams.get? stream = some ⟨m :: rest, true⟩) {start : Int}
    (hstart : f.nextRevision ≤ start) (hm : Breaks w.source start m) :
    Inv scope version (w.advance now f) := by
  obtain ⟨c, hc, htaken, hopen⟩ := h.channel
  have hp := h.position f hjob
  have hisOpen : c.isOpen = true := hopen (by simp [hjob])
  have hchannel : w.link.client.channels.find? f.channel = some c := by rw [hp.onChannel, hc]
  obtain ⟨server, hmessage, _⟩ := nextMessage_cons hstream
  cases m with
  | response r =>
      rcases hm with ⟨hzero, hcanceled⟩ | ⟨hcompaction, hcovered⟩
      · obtain ⟨cs, hsend, hcs⟩ := Forwarder.sendOne_eq hchannel hisOpen .refresh
        rw [hp.onChannel] at hcs
        have hstep : f.step now false w.link.server w.link.client.channels =
            (f.wait now, server.release stream, cs) := by
          simp [Forwarder.step, hphase, hmessage, Forwarder.forward, hzero, hcanceled, hsend]
        exact h.pause hjob hstep hc hcs rfl hisOpen rfl
      · have hstarted := hp.started
        have hpositive : 0 < r.compactRevision := by omega
        have hchannel' :
            w.link.client.channels.find?
              ({ f with nextRevision := r.compactRevision } : Forwarder).channel = some c :=
          hchannel
        obtain ⟨cs, hsend, hcs⟩ := Forwarder.sendOne_eq hchannel' hisOpen .refresh
        have hcs' : cs.find? w.channel = some { c with waiting := c.waiting ++ [.refresh] } := by
          rw [← hp.onChannel]
          exact hcs
        have hforward : f.forward w.link.client.channels r =
            (.reopen, { f with nextRevision := r.compactRevision }, cs) := by
          simp [Forwarder.forward, hpositive, hsend]
        have hstep : f.step now false w.link.server w.link.client.channels =
            (({ f with nextRevision := r.compactRevision } : Forwarder).wait now,
              server.release stream, cs) := by
          simp [Forwarder.step, hphase, hmessage, hforward]
        have hrevision := h.valid.compacted_le
        refine h.wait_of hjob hstep hc hcs' rfl hisOpen rfl (by omega) (.inr (by omega)) ?_
        intro d hd
        obtain ⟨_, _, hlt⟩ := mem_span.mp hd
        exact ⟨List.mem_singleton.mpr rfl, by omega⟩
  | failure text =>
      have hstep : f.step now false w.link.server w.link.client.channels =
          (f.wait now, server.release stream, w.link.client.channels) := by
        simp [Forwarder.step, hphase, hmessage]
      exact h.pause hjob hstep hc hc (List.append_nil _).symm hisOpen rfl
  | ended =>
      have hstep : f.step now false w.link.server w.link.client.channels =
          (f.wait now, server.release stream, w.link.client.channels) := by
        simp [Forwarder.step, hphase, hmessage]
      exact h.pause hjob hstep hc hc (List.append_nil _).symm hisOpen rfl

/-- A stream that is asked for is refused, or it is a new one with nothing on it. -/
theorem requestWatch_spec (key : String) (start : Int) (wholePrefix : Bool) (s : Server) :
    (∃ text s', s.requestWatch key start wholePrefix = (.error text, s')) ∨
      ∃ stream s', s.requestWatch key start wholePrefix = (.ok stream, s') ∧
        s'.streams.get? stream = some ⟨[], true⟩ := by
  unfold Server.requestWatch Server.request
  rcases s.note (.watch key start wholePrefix) with ⟨text | _, s'⟩
  · right
    refine ⟨_, _, rfl, ?_⟩
    rw [Table.get?_insert, if_pos rfl]
  · left
    exact ⟨_, _, rfl⟩

/-- A stream that is opened again starts at the next revision, so it brings everything that
has not been told yet, unless the compaction has passed that. -/
theorem Inv.reopen (h : Inv scope version w) (hjob : w.job = some f) {t : Instant}
    (hphase : f.phase = .waiting t) : Inv scope version (w.advance now f) := by
  obtain ⟨c, hc, htaken, hopen⟩ := h.channel
  have hp := h.position f hjob
  have hisOpen : c.isOpen = true := hopen (by simp [hjob])
  have hnothing : c.waiting = c.waiting ++ [] := (List.append_nil _).symm
  by_cases hearly : now < t
  · have hstep : f.step now false w.link.server w.link.client.channels =
        (.rest f, w.link.server, w.link.client.channels) := by
      simp [Forwarder.step, hphase, hearly]
    have heq := advance_eq h.isOpen hstep hc hc hnothing
    refine h.advance_of hstep hc hc hnothing (fun _ => hisOpen) ?_ ?_
      (fun hnone => by cases hnone)
    · rw [changesOf_nil, List.append_nil]
      exact h.told
    · intro f' hf'
      obtain rfl := Option.some.inj hf'
      rw [heq]
      simp only [List.map_nil, List.append_nil]
      refine ⟨hp.onChannel, hp.inScope, hp.started, hp.reached, hp.told, hp.accounted, ?_⟩
      intro stream hfollowing
      rw [hphase] at hfollowing
      cases hfollowing
  · rcases requestWatch_spec f.scope.key f.nextRevision f.scope.wholePrefix w.link.server with
      ⟨text, server, hwatch⟩ | ⟨stream, server, hwatch, hstream⟩
    · have hstep : f.step now false w.link.server w.link.client.channels =
          (f.wait now, server, w.link.client.channels) := by
        simp [Forwarder.step, hphase, hearly, hwatch]
      exact h.pause hjob hstep hc hc hnothing hisOpen rfl
    · have hstep : f.step now false w.link.server w.link.client.channels =
          (.again { f with phase := .following stream }, server, w.link.client.channels) := by
        simp [Forwarder.step, hphase, hearly, hwatch]
      have heq := advance_eq h.isOpen hstep hc hc hnothing
      refine h.advance_of hstep hc hc hnothing (fun _ => hisOpen) ?_ ?_
        (fun hnone => by cases hnone)
      · rw [changesOf_nil, List.append_nil]
        exact h.told
      · intro f' hf'
        obtain rfl := Option.some.inj hf'
        rw [heq]
        simp only [List.map_nil, List.append_nil]
        refine ⟨hp.onChannel, hp.inScope, hp.started, hp.reached, hp.told, hp.accounted, ?_⟩
        intro stream' hfollowing
        obtain rfl := ForwarderPhase.following.inj hfollowing
        refine ⟨[], f.nextRevision, hstream, Int.le_refl _, .inl rfl,
          span_of_le (Int.le_refl _) _, ?_⟩
        simp only [hphase]
        exact .idle _

/-- One step of the forwarder: it waits, opens a stream, is refused one, or handles the next
message. Each case leaves the next revision behind all that was told. -/
theorem Inv.advance (h : Inv scope version w) (hversion : 0 ≤ version) (hjob : w.job = some f)
    (now : Instant) : Inv scope version (w.advance now f) := by
  cases hphase : f.phase with
  | waiting t => exact h.reopen hjob hphase
  | following stream =>
      obtain ⟨messages, start, hstream, hstart, hdone, hquiet, hfeeds⟩ :=
        (h.position f hjob).stream stream hphase
      cases hfeeds with
      | idle => exact h.idle hjob hphase hstream
      | data hnext hended hrest =>
          exact h.data hjob hphase hstream hstart hquiet hnext hended hrest
      | broken hm => exact h.breaks hversion hjob hphase hstream hstart hm

end Advance

theorem addJob_inj {l l' : Link} {job job' : Job} (h : l.addJob job = l'.addJob job') :
    job = job' ∧ l.server = l'.server ∧ l.client.closed = l'.client.closed ∧
      l.client.channels = l'.client.channels := by
  obtain ⟨server, closed, jobs, channels⟩ := l
  obtain ⟨server', closed', jobs', channels'⟩ := l'
  simp only [Link.addJob, Link.mk.injEq, Client.mk.injEq] at h
  obtain ⟨hserver, hclosed, hjobs, hchannels⟩ := h
  have hlast := congrArg List.getLast? hjobs
  simp only [List.getLast?_concat, Option.some.injEq] at hlast
  exact ⟨hlast, hserver, hclosed, hchannels⟩

/-- What a watch that succeeds leaves behind: a new channel with nothing on it, a new
stream, and a forwarder whose next revision is the one after the version. -/
theorem watch_spec {scope : Scope} {version : Int} {before after : Link} {f : Forwarder}
    (hn : before.client.channels.Numbered)
    (h : Link.watch scope version before = (.ok f.channel, after.addJob (.forwarder f))) :
    ∃ stream, f = ⟨f.channel, scope, version + 1, .following stream⟩ ∧
      after.server.streams.get? stream = some ⟨[], true⟩ ∧ after.client.closed = false ∧
      after.client.channels.find? f.channel = some ⟨f.channel, scope, [], true⟩ := by
  unfold Link.watch Link.whenOpen at h
  by_cases hclosed : before.client.closed = true
  · rw [if_pos hclosed] at h
    cases congrArg Prod.fst h
  simp only [if_neg hclosed] at h
  by_cases hfits : version + 1 < 0x8000000000000000
  · rw [if_pos hfits] at h
    rcases requestWatch_spec scope.key (version + 1) scope.wholePrefix before.server with
      ⟨text, server, hwatch⟩ | ⟨stream, server, hwatch, hstream⟩
    · rw [hwatch] at h
      cases congrArg Prod.fst h
    · rw [hwatch] at h
      have hchannel : before.client.channels.nextId = f.channel :=
        Except.ok.inj (congrArg Prod.fst h)
      obtain ⟨hjob, hserver, hopen, hchannels⟩ := addJob_inj (congrArg Prod.snd h)
      refine ⟨stream, ?_, ?_, ?_, ?_⟩
      · rw [← hchannel]
        exact (Job.forwarder.inj hjob).symm
      · rw [← hserver]
        exact hstream
      · rw [← hopen]
        simpa using hclosed
      · rw [← hchannels, ← hchannel]
        exact Channels.find?_add_self hn scope []
  · rw [if_neg hfits] at h
    cases congrArg Prod.fst h

/-- A watch that has just been opened has everything still to tell. -/
theorem Inv.opened {scope : Scope} {version : Int} {w : World} (h : Opened scope version w) :
    Inv scope version w := by
  obtain ⟨hvalid, ⟨before, f, hn, hjob, hchannel, hwatch⟩, hreached, hsent, htaken⟩ := h
  obtain ⟨stream, hf, hstream, hopen, hfound⟩ := watch_spec hn hwatch
  have hnothing : w.told = [] := by rw [World.told, hsent]; rfl
  refine ⟨hvalid, hopen, ⟨_, hchannel ▸ hfound, ?_, fun _ => rfl⟩, ?_, ?_, ?_⟩
  · rw [hsent, htaken]
    rfl
  · rw [hnothing]
    exact List.nil_sublist _
  · intro f' hf'
    obtain rfl : f = f' := Option.some.inj (hjob.symm.trans hf')
    have hnext : f.nextRevision = version + 1 := by rw [hf]
    have hempty : span (version + 1) (version + 1) (w.source.told scope) = [] :=
      span_of_le (Int.le_refl _) _
    refine ⟨hchannel.symm, by rw [hf], by omega, .inl hnext, ?_, ?_, ?_⟩
    · rw [hnothing]
      exact List.nil_sublist _
    · intro c hc
      rw [hnext, hempty] at hc
      cases hc
    · intro stream' hphase
      have hfollowing : f.phase = .following stream := by rw [hf]
      obtain rfl : stream = stream' :=
        ForwarderPhase.following.inj (hfollowing.symm.trans hphase)
      refine ⟨[], version + 1, hstream, by omega, .inl hnext.symm, ?_, ?_⟩
      · rw [hnext, hempty]
      · rw [hreached]
        exact .idle _
  · intro hnone
    rw [hjob] at hnone
    cases hnone

/-- By induction on the moves of the world, one lemma for each kind of them. -/
theorem inv_of_reachable {scope : Scope} {version : Int} (hversion : 0 ≤ version) {w : World}
    (h : Reachable scope version w) : Inv scope version w := by
  induction h with
  | opened h => exact Inv.opened h
  | step _ hstep ih =>
      cases hstep with
      | write deeds hrevision hkeys => exact ih.write hrevision hkeys
      | compact revision hfrom hto => exact ih.compact hfrom hto
      | bring hjob hphase hm => exact ih.bring hjob hphase hm
      | advance now hjob => exact ih.advance hversion hjob now
      | receive => exact ih.receive
      | others l h => exact ih.others h

/-- At every moment of a watch, whatever the server does and however its streams
break: the receiver has been sent exactly what `sent` says, and the changes among
it are some of the matching ones, in the order of the server and none of them
twice. Each matching change from after the version of the watch up to the next
revision has been sent, or a refresh was sent after the server's compaction had
passed it. The forwarder lives until a revision has no next one. -/
theorem no_silent_gap (scope : Scope) {version : Int} (hversion : 0 ≤ version) {w : World}
    (h : Reachable scope version w) :
    (∃ c, w.link.client.channels.find? w.channel = some c ∧
      w.taken ++ c.waiting = w.sent.map Prod.fst) ∧
    (changesOf (w.sent.map Prod.fst)).Sublist (w.source.told scope) ∧
    (changesOf (w.sent.map Prod.fst)).Nodup ∧
    (changesOf (w.sent.map Prod.fst)).Pairwise (fun a b => a.version ≤ b.version) ∧
    (∀ f, w.job = some f → ∀ c ∈ w.source.told scope,
      version < c.version → c.version < f.nextRevision →
        c ∈ changesOf (w.sent.map Prod.fst) ∨
          ∃ compacted, (.refresh, compacted) ∈ w.sent ∧ c.version < compacted) ∧
    (w.job = none → ∃ c ∈ w.source.told scope, 0x8000000000000000 ≤ c.version + 1) := by
  have hinv := inv_of_reachable hversion h
  have hordered := hinv.valid.told_ordered scope
  obtain ⟨c, hc, htaken, _⟩ := hinv.channel
  refine ⟨⟨c, hc, htaken⟩, hinv.told, hordered.nodup.sublist hinv.told,
    hordered.ascending.sublist hinv.told, ?_, hinv.alive⟩
  intro f hf d hd hafter hbefore
  exact (hinv.position f hf).accounted d (mem_span.mpr ⟨hd, by omega, hbefore⟩)

def sampleDeed (value : String) (revision : Int) : Deed :=
  ⟨true, ⟨Text.utf8 "a", Text.utf8 value, revision⟩⟩

/-- A watch from the beginning on a server that has done nothing yet. -/
def sampleWorld : World :=
  let server := (Server.requestWatch "a" 1 false .empty).2
  let channels := (Channels.none.add ⟨"a", false⟩ []).2
  ⟨⟨[], 0, 0⟩, 1, ⟨server, { Client.create with channels }⟩, 0,
    some ⟨0, ⟨"a", false⟩, 1, .following 0⟩, [], []⟩

def sampleForwarder (nextRevision : Int) : Forwarder :=
  ⟨0, ⟨"a", false⟩, nextRevision, .following 0⟩

def sampleWritten : World :=
  { sampleWorld with source := sampleWorld.source.write [sampleDeed "1" 1] }

/-- A change is made, brought and told. -/
def sampleTold : World :=
  (sampleWritten.bring 0 (.response (sampleWritten.source.response ⟨"a", false⟩ 1 2)) 2).advance
    ⟨0⟩ (sampleForwarder 1)

/-- Two more are made, and compacted away before the stream brings them. -/
def sampleCompacted : World :=
  let written := (sampleTold.source.write [sampleDeed "2" 2]).write [sampleDeed "3" 3]
  { sampleTold with source := { written with compacted := 3 } }

def overtaken : World :=
  (sampleCompacted.bring 0 (.response ⟨3, true, []⟩) 2).advance ⟨0⟩ (sampleForwarder 2)

/-- The first change is told, the second is lost to the receiver, which is refreshed for it. -/
theorem no_silent_gap_overtaken :
    sampleTold.job.map Forwarder.nextRevision = some 2 ∧
      overtaken.sent = [(.change ⟨.update, ⟨"a", "1", 1⟩⟩, 0), (.refresh, 3)] ∧
      overtaken.job.map Forwarder.nextRevision = some 3 ∧
      ∀ c ∈ overtaken.source.told ⟨"a", false⟩, 0 < c.version → c.version < 3 →
        c ∈ changesOf (overtaken.sent.map Prod.fst) ∨
          ∃ compacted, (.refresh, compacted) ∈ overtaken.sent ∧ c.version < compacted := by
  have hopened : Reachable ⟨"a", false⟩ 0 sampleWorld := by
    refine .opened ⟨⟨List.Pairwise.nil, ?_, Int.le_refl _⟩, ?_, rfl, rfl, rfl⟩
    · intro d hd
      cases hd
    · exact ⟨⟨.empty, .create⟩, _, Channels.numbered_none, rfl, rfl, rfl⟩
  have hwritten : Reachable ⟨"a", false⟩ 0 sampleWritten :=
    hopened.step (.write [sampleDeed "1" 1] (by simp; rfl) (by simp))
  have hoffer : Offer sampleWritten.source ⟨"a", false⟩ sampleWritten.cursor
      (.response (sampleWritten.source.response ⟨"a", false⟩ 1 2)) 2 :=
    .data (by decide) (by decide)
  have hbrought := hwritten.step (.bring (f := sampleForwarder 1) rfl rfl hoffer)
  have htold : Reachable ⟨"a", false⟩ 0 sampleTold :=
    hbrought.step (.advance (f := sampleForwarder 1) ⟨0⟩ rfl)
  have hjob : sampleTold.job = some (sampleForwarder 2) := by decide +kernel
  have hrewritten := htold.step (.write [sampleDeed "2" 2] (by simp; rfl) (by simp))
  have hagain := hrewritten.step (.write [sampleDeed "3" 3] (by simp; rfl) (by simp))
  have hcompacted : Reachable ⟨"a", false⟩ 0 sampleCompacted :=
    hagain.step (.compact 3 (by decide) (by decide))
  have hloss : Offer sampleCompacted.source ⟨"a", false⟩ sampleCompacted.cursor
      (.response ⟨3, true, []⟩) 2 := .compacted true [] (by decide)
  have hlost := hcompacted.step (.bring (f := sampleForwarder 2) hjob rfl hloss)
  have h : Reachable ⟨"a", false⟩ 0 overtaken :=
    hlost.step (.advance (f := sampleForwarder 2) ⟨0⟩ hjob)
  obtain ⟨-, -, -, -, haccounted, -⟩ := no_silent_gap ⟨"a", false⟩ (Int.le_refl 0) h
  have hwaits : overtaken.job = some ⟨0, ⟨"a", false⟩, 3, .waiting ⟨1000000000⟩⟩ := by
    decide +kernel
  refine ⟨by rw [hjob]; rfl, by decide +kernel, by rw [hwaits]; rfl, haccounted _ hwaits⟩

end Rollcall.Etcd.Watching
