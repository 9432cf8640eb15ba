import Mathlib.Data.List.Forall2
import Rollcall.Proofs.Backend.Beside

/-!
The two backends agree. Requests, responses, forwarders and receivers come in any order, and
after each of them the server mirrors the contents in memory and every watch is followed by
both. Main statements: `Inv.step`, `Inv.drains` and `backends_agree`.
-/

namespace Rollcall.Agreement

open Etcd

/-- After these changes, with `n` watches opened. -/
structure Inv (base : Int) (made : List Change) (n : Nat) (w : World) : Prop where
  paired : Paired base made w.memory.state w.etcd.state
  source : w.source = sourceOf base made
  alike : List.Forall₂ (Alike base) w.memory.replies w.etcd.replies
  listed : ∀ x ∈ w.memory.listings, x.version ≤ made.length
  opened : ∀ id, .ok (.channel id) ∈ w.memory.replies → id < n
  courses : w.courses.length = n
  asked : w.server.courses.length = n
  memoryChannels : w.memory.state.store.channels.Numbered ∧
    w.memory.state.store.channels.nextId = n
  etcdChannels : w.etcd.state.client.channels.Numbered ∧
    w.etcd.state.client.channels.nextId = n
  jobs : w.etcd.state.client.jobs.length = n
  streams : w.server.streams.size = n
  noStream : ∀ id, n ≤ id → w.server.streams.get? id = none
  takenInMemory : ∀ p ∈ w.memory.taken, p.1 < n
  takenOnEtcd : ∀ p ∈ w.etcd.taken, p.1 < n
  watched : ∀ id, id < n → ∃ scope version,
    Follows base made id scope version (w.inMemory id) (w.onEtcd id)

section Moves

variable {base : Int} {made : List Change} {n : Nat} {w : World}

theorem takenFrom_append {σ : Type} (side : Side σ) (id : Nat) (found : List Event) (other : Nat) :
    ({ side with taken := side.taken ++ found.map (fun e => (id, e)) } : Side σ).takenFrom other =
      side.takenFrom other ++ if other = id then found else [] := by
  simp only [Side.takenFrom, List.filter_append, List.map_append, List.filter_map, List.map_map]
  congr 1
  split
  · rename_i h
    subst h
    simp [Function.comp_def]
  · rename_i h
    have hne : ¬ id = other := fun heq => h heq.symm
    simp [Function.comp_def, hne]

/-- Something happens on one stream: its messages, its forwarder, its channel and what it has
brought change. -/
def World.deliver (w : World) (id : Nat) (f : Stream → Stream) (g : Forwarder) (course : Course)
    (cs : Channels) : World :=
  { w.withLink
      ⟨{ w.server with streams := w.server.streams.modify id f },
        { w.etcd.state.client with
          jobs := w.etcd.state.client.jobs.set id (.forwarder g)
          channels := cs }⟩ with
    courses := w.courses.set id course }

section Deliveries

variable {id : Nat} {f : Stream → Stream} {g : Forwarder} {course : Course} {cs : Channels}

theorem Inv.deliver_self (h : Inv base made n w) (hid : id < n) :
    (w.deliver id f g course cs).onEtcd id =
      ⟨cs.find? id, w.etcd.takenFrom id, some (.forwarder g), (w.server.streams.get? id).map f,
        some course⟩ := by
  have hjob : (w.etcd.state.client.jobs.set id (.forwarder g))[id]? = some (.forwarder g) := by
    rw [List.getElem?_set_self (h.jobs.symm ▸ hid)]
  have hcourse : (w.courses.set id course)[id]? = some course := by
    rw [List.getElem?_set_self (h.courses.symm ▸ hid)]
  have hstream : (w.server.streams.modify id f).get? id = (w.server.streams.get? id).map f := by
    rw [Table.get?_modify, if_pos rfl]
  rw [← hjob, ← hcourse, ← hstream]
  rfl

theorem World.deliver_of_ne (w : World) (hcs : w.etcd.state.client.channels.Beside id cs)
    {other : Nat} (hne : other ≠ id) :
    (w.deliver id f g course cs).onEtcd other = w.onEtcd other := by
  have hjob : (w.etcd.state.client.jobs.set id (.forwarder g))[other]? =
      w.etcd.state.client.jobs[other]? := List.getElem?_set_ne hne.symm
  have hcourse : (w.courses.set id course)[other]? = w.courses[other]? :=
    List.getElem?_set_ne hne.symm
  have hstream : (w.server.streams.modify id f).get? other = w.server.streams.get? other := by
    rw [Table.get?_modify, if_neg hne]
  rw [World.onEtcd, World.onEtcd, ← hjob, ← hcourse, ← hstream, ← hcs.others other hne]
  rfl

/-- What happens on one stream concerns no other watch: each watch has a stream, a forwarder
and a channel of its own, and the invariant speaks of them one by one. -/
theorem Inv.deliver (h : Inv base made n w) (hid : id < n) (f : Stream → Stream)
    (g : Forwarder) (course : Course) (hcs : w.etcd.state.client.channels.Beside id cs)
    (hfollows : ∃ scope version, Follows base made id scope version (w.inMemory id)
      ⟨cs.find? id, w.etcd.takenFrom id, some (.forwarder g), (w.server.streams.get? id).map f,
        some course⟩) :
    Inv base made n (w.deliver id f g course cs) := by
  refine { h with
    paired := { h.paired.withStreams (w.server.streams.modify id f) with forwarders := ?_ }
    courses := List.length_set.trans h.courses
    etcdChannels := ⟨hcs.numbered h.etcdChannels.1, hcs.nextId.trans h.etcdChannels.2⟩
    jobs := List.length_set.trans h.jobs
    streams := (Table.size_modify _ _ _).trans h.streams
    noStream := ?_
    watched := ?_ }
  · intro job hjob
    rcases List.mem_or_eq_of_mem_set hjob with hold | rfl
    · exact h.paired.forwarders job hold
    · exact ⟨g, rfl⟩
  · intro other hother
    refine (Table.get?_modify _ _ _ _).trans ?_
    rw [h.noStream other hother, Option.map_none, ite_self]
  · intro other hother
    by_cases hsame : other = id
    · subst hsame
      rw [h.deliver_self hid]
      exact hfollows
    · rw [w.deliver_of_ne hcs hsame]
      exact h.watched other hother

end Deliveries

theorem World.source_bring (w : World) (id : Nat) (next : Int) :
    (w.bring id next).source = w.source := by
  unfold World.bring
  split
  · rfl
  · split <;> rfl

theorem World.courses_bring (w : World) {id : Nat} {course : Course} {next : Int}
    (hcourse : w.courses[id]? = some course)
    (hnext : course.cursor ≤ next ∧ next ≤ w.source.revision + 1) :
    (w.bring id next).courses = w.courses.set id { course with cursor := next } := by
  simp only [World.bring, hcourse, if_pos hnext]

/-- A stream brings a response of the deeds up to a later revision, which are those from
where it was. -/
theorem Inv.bring (h : Inv base made n w) (id : Nat) (next : Int) :
    Inv base made n (w.bring id next) := by
  unfold World.bring
  cases hcourse : w.courses[id]? with
  | none => exact h
  | some course =>
      dsimp only
      split
      · rename_i hnext
        have hid : id < n := h.courses ▸ (List.getElem?_eq_some_iff.mp hcourse).1
        obtain ⟨scope, version, hfollows⟩ := h.watched id hid
        obtain ⟨waiting, responses, cursor, nextRevision, hbrings⟩ := hfollows.brings
        obtain rfl : course = ⟨scope, cursor⟩ := Option.some.inj (hcourse.symm.trans hbrings.course)
        have hjob : w.etcd.state.client.jobs[id]? = _ := hbrings.job
        have hheld : w.server.isHeld id = true := by
          have hstream : w.server.streams.get? id = _ := hbrings.stream
          rw [Server.isHeld, hstream]
          rfl
        rw [h.source] at hnext ⊢
        have hbrought := hbrings.bring (ordered_told h.paired.coherent.consecutive base scope)
          hnext.1 hnext.2
        have hdelivered := h.deliver hid (fun t => { t with messages := t.messages ++
            [.response ((sourceOf base made).response scope cursor next)] })
          ⟨id, scope, nextRevision, .following id⟩ ⟨scope, next⟩ (.refl id _)
          ⟨scope, version, hfollows.started, hfollows.sends, _, _, _, _,
            { hbrought with job := rfl }⟩
        rw [World.deliver, set_of_getElem? hjob] at hdelivered
        simp only [Server.send, hheld, if_true]
        exact hdelivered
      · exact h

theorem Inv.advance_eq (h : Inv base made n w)
    (hfits : base + made.length + 1 < 0x8000000000000000) {id : Nat} {scope : Scope}
    {version : Int} {waiting : List Event} {r : WatchResponse} {rest : List WatchResponse}
    {cursor next : Int}
    (hbrings : Brings base made id scope version (w.onEtcd id) waiting (r :: rest) cursor next)
    (now : Instant) :
    ∃ later cs,
      w.etcd.state.advance now id =
        ⟨{ w.server with
            streams := w.server.streams.modify id
              (fun t => { t with messages := rest.map Message.response }) },
          { w.etcd.state.client with
            jobs := w.etcd.state.client.jobs.set id (.forwarder ⟨id, scope, later, .following id⟩)
            channels := cs }⟩ ∧
      w.etcd.state.client.channels.Beside id cs ∧
      cs.find? id = some ⟨id, scope, waiting ++ (toldBy r.events).map Event.change, true⟩ :=
  have hr : r ∈ r :: rest := List.mem_cons_self
  Link.advance_response h.paired.clientOpen hbrings.job rfl hbrings.stream (hbrings.intact r hr)
    hbrings.channel rfl (hbrings.fits hfits hr) now

theorem Inv.advance (h : Inv base made n w) (hfits : base + made.length + 1 < 0x8000000000000000)
    (now : Instant) (id : Nat) : Inv base made n (w.withLink (w.etcd.state.advance now id)) := by
  by_cases hid : id < n
  · obtain ⟨scope, version, hfollows⟩ := h.watched id hid
    obtain ⟨waiting, responses, cursor, next, hbrings⟩ := hfollows.brings
    have hcourse : w.courses[id]? = _ := hbrings.course
    cases responses with
    | nil =>
        rw [Link.advance_idle h.paired.clientOpen hbrings.job rfl hbrings.stream]
        exact h
    | cons r rest =>
        obtain ⟨later, cs, hadvance, hbeside, hfound⟩ := h.advance_eq hfits hbrings now
        have hstream : w.server.streams.get? id = _ := hbrings.stream
        have hleft : (w.server.streams.get? id).map
            (fun t => { t with messages := rest.map Message.response }) =
              some ⟨rest.map Message.response, true⟩ := by
          rw [hstream, Option.map_some]
        have hdelivered := h.deliver hid
          (fun t => { t with messages := rest.map Message.response })
          ⟨id, scope, later, .following id⟩ ⟨scope, cursor⟩ hbeside
          ⟨scope, version, hfollows.started, hfollows.sends, _, _, _, _,
            { hbrings.forward later with channel := hfound, stream := hleft, course := rfl }⟩
        rw [World.deliver, set_of_getElem? hcourse] at hdelivered
        rw [hadvance]
        exact hdelivered
  · have hnone : w.etcd.state.client.jobs[id]? = none :=
      List.getElem?_eq_none (h.jobs ▸ Nat.le_of_not_lt hid)
    rw [Link.advance, hnone]
    exact h

theorem receive_of_none {cs : Channels} {id : Nat} (h : cs.find? id = none) :
    cs.receive id = (.ended, cs) := by
  rw [Channels.receive, h]

theorem taken_lt {taken : List (Nat × Event)} {found : List Event} {id : Nat}
    (htaken : ∀ p ∈ taken, p.1 < n) (hid : id < n) :
    ∀ p ∈ taken ++ found.map (fun e => (id, e)), p.1 < n := by
  intro p hp
  rcases List.mem_append.mp hp with hold | hnew
  · exact htaken p hold
  · obtain ⟨e, -, rfl⟩ := List.mem_map.mp hnew
    exact hid

/-- A receiver in memory takes an event, if one waits; it then has taken it and has been
sent the same. -/
theorem Inv.receiveInMemory (h : Inv base made n w) (now : Instant) (id : Nat) :
    Inv base made n { w with memory := w.memory.receive (Memory.backend now) id } := by
  have htaken := takenFrom_append w.memory id (w.memory.state.store.channels.receive id).1.events
  by_cases hid : id < n
  · obtain ⟨scope, version, hfollows⟩ := h.watched id hid
    obtain ⟨waiting, hchannel, -⟩ := hfollows.sends
    have hc : w.memory.state.store.channels.find? id = _ := hchannel
    obtain ⟨rest, hrest, hfound⟩ := Channels.receive_self hc
    have hbeside := w.memory.state.store.channels.beside_receive id
    refine { h with
      paired := { h.paired with coherent := h.paired.coherent.congr rfl rfl rfl rfl }
      memoryChannels := ⟨hbeside.numbered h.memoryChannels.1,
        hbeside.nextId.trans h.memoryChannels.2⟩
      takenInMemory := taken_lt h.takenInMemory hid
      watched := ?_ }
    intro other hother
    by_cases hsame : other = id
    · subst hsame
      refine ⟨scope, version, hfollows.started, ?_, hfollows.brings⟩
      have htaken := htaken other
      rw [if_pos rfl] at htaken
      have hsends : Sends made other scope version ⟨_, w.memory.takenFrom other ++ _⟩ :=
        hfollows.sends.take hc hfound
      rw [← hrest, ← htaken] at hsends
      exact hsends
    · obtain ⟨scope, version, hold⟩ := h.watched other hother
      refine ⟨scope, version, hold.started, ?_, hold.brings⟩
      have htaken := htaken other
      rw [if_neg hsame, List.append_nil] at htaken
      have hsends : Sends made other scope version ⟨_, _⟩ := hold.sends
      rw [← hbeside.others other hsame, ← htaken] at hsends
      exact hsends
  · have hnone : w.memory.state.store.channels.find? id = none :=
      Channels.find?_eq_none_of_le h.memoryChannels.1
        (h.memoryChannels.2.symm ▸ Nat.le_of_not_lt hid)
    have hsame : w.memory.receive (Memory.backend now) id = w.memory := by
      simp only [Side.receive, Memory.backend, Memory.receive, receive_of_none hnone,
        Received.events, List.map_nil, List.append_nil]
    rw [hsame]
    exact h

theorem Inv.receiveOnEtcd (h : Inv base made n w) (now : Instant) (id : Nat) :
    Inv base made n { w with etcd := w.etcd.receive (Link.backend now) id } := by
  have htaken := takenFrom_append w.etcd id (w.etcd.state.client.channels.receive id).1.events
  by_cases hid : id < n
  · obtain ⟨scope, version, hfollows⟩ := h.watched id hid
    obtain ⟨waiting, responses, cursor, next, hbrings⟩ := hfollows.brings
    have hc : w.etcd.state.client.channels.find? id = _ := hbrings.channel
    obtain ⟨rest, hrest, hfound⟩ := Channels.receive_self hc
    have hbeside := w.etcd.state.client.channels.beside_receive id
    refine { h with
      paired := { h.paired with }
      etcdChannels := ⟨hbeside.numbered h.etcdChannels.1, hbeside.nextId.trans h.etcdChannels.2⟩
      takenOnEtcd := taken_lt h.takenOnEtcd hid
      watched := ?_ }
    intro other hother
    by_cases hsame : other = id
    · subst hsame
      have htaken := htaken other
      rw [if_pos rfl] at htaken
      have htake : Brings base made other scope version
          ⟨_, w.etcd.takenFrom other ++ _, _, _, _⟩ _ _ _ _ := hbrings.take hfound
      rw [← hrest, ← htaken] at htake
      exact ⟨scope, version, hfollows.started, hfollows.sends, _, _, _, _, htake⟩
    · obtain ⟨scope, version, hold⟩ := h.watched other hother
      obtain ⟨waiting, responses, cursor, next, hbrings⟩ := hold.brings
      have htaken := htaken other
      rw [if_neg hsame, List.append_nil] at htaken
      have hkept : Brings base made other scope version ⟨_, _, _, _, _⟩ _ _ _ _ := hbrings
      rw [← hbeside.others other hsame, ← htaken] at hkept
      exact ⟨scope, version, hold.started, hold.sends, _, _, _, _, hkept⟩
  · have hnone : w.etcd.state.client.channels.find? id = none :=
      Channels.find?_eq_none_of_le h.etcdChannels.1 (h.etcdChannels.2.symm ▸ Nat.le_of_not_lt hid)
    have hsame : w.etcd.receive (Link.backend now) id = w.etcd := by
      simp only [Side.receive, Link.backend, Link.receive, receive_of_none hnone,
        Received.events, List.map_nil, List.append_nil]
    rw [hsame]
    exact h

/-- The listings that have been answered are the same on both sides, with the versions ahead
on etcd. So a watch from one of them starts at the same place. -/
theorem listings_eq {replies replies' : List (Except Failure Reply)}
    (h : List.Forall₂ (Alike base) replies replies') :
    replies'.filterMap listing? = (replies.filterMap listing?).map (Listing.ahead base) := by
  induction h with
  | nil => rfl
  | cons hreply _ ih =>
      cases hreply with
      | listing l => exact congrArg (l.ahead base :: ·) ih
      | _ => exact ih

/-- The two sides once they have answered, and what the server has done and opened then. -/
def World.answered (w : World) (key : String) (x : Except Failure Reply × Memory)
    (y : Except Failure Reply × Link) : World where
  memory := ⟨x.2, w.memory.replies ++ [x.1], w.memory.taken⟩
  etcd := ⟨y.2, w.etcd.replies ++ [y.1], w.etcd.taken⟩
  source := w.source.follow key w.server y.2.server
  courses := w.courses ++ y.2.server.courses.drop w.courses.length

theorem Inv.drop_courses (h : Inv base made n w) {server : Server}
    (hcourses : server.courses = w.server.courses) :
    w.courses ++ server.courses.drop w.courses.length = w.courses := by
  have hall : server.courses.length ≤ w.courses.length := by
    rw [hcourses]
    exact Nat.le_of_eq (h.asked.trans h.courses.symm)
  rw [List.drop_eq_nil_of_le hall, List.append_nil]

theorem takenFrom_of_lt {σ : Type} {state : σ} {replies : List (Except Failure Reply)}
    {taken : List (Nat × Event)} (h : ∀ p ∈ taken, p.1 < n) :
    (Side.mk state replies taken).takenFrom n = [] := by
  have hnone : taken.filter (fun p => p.1 = n) = [] := by
    apply List.filter_eq_nil_iff.mpr
    intro p hp
    have hlt := h p hp
    simp only [decide_eq_true_eq]
    omega
  rw [Side.takenFrom, hnone, List.map_nil]

theorem alike_append {replies replies' : List (Except Failure Reply)} {r r' : Except Failure Reply}
    (h : List.Forall₂ (Alike base) replies replies') (hreply : Alike base r r') :
    List.Forall₂ (Alike base) (replies ++ [r]) (replies' ++ [r']) :=
  List.rel_append h (.cons hreply .nil)

/-- A reply that opens nothing adds a listing of its version at most. -/
theorem Inv.plain (h : Inv base made n w) {r : Except Failure Reply} {version : Int}
    (hplain : Plain version r) {limit : Int} (hlimit : version ≤ limit)
    (hmade : made.length ≤ limit) :
    (∀ x ∈ (w.memory.replies ++ [r]).filterMap listing?, x.version ≤ limit) ∧
      ∀ id, .ok (.channel id) ∈ w.memory.replies ++ [r] → id < n := by
  constructor
  · intro x hx
    rw [List.filterMap_append, List.mem_append] at hx
    rcases hx with hold | hnew
    · exact Int.le_trans (h.listed x hold) hmade
    · obtain ⟨r', hr', hlisting⟩ := List.mem_filterMap.mp hnew
      rw [List.mem_singleton.mp hr'] at hlisting
      match r, hplain, hlisting with
      | .ok (.listing l), hversion, hlisting =>
          rw [← Option.some.inj hlisting, hversion]
          exact hlimit
  · intro id hid
    rcases List.mem_append.mp hid with hold | hnew
    · exact h.opened id hold
    · rw [← List.mem_singleton.mp hnew] at hplain
      exact hplain.elim

/-- A request that changes nothing and opens nothing leaves every watch as it is and adds
alike answers. -/
theorem Inv.still (h : Inv base made n w) (key : String) {r r' : Except Failure Reply}
    {server : Server} (halike : Alike base r r') (hplain : Plain w.memory.state.store.revision r)
    (hrevision : server.revision = w.server.revision) (hstreams : server.streams = w.server.streams)
    (hcourses : server.courses = w.server.courses)
    (hpaired : Paired base made w.memory.state { w.etcd.state with server }) :
    Inv base made n (w.answered key (r, w.memory.state) (r', { w.etcd.state with server })) := by
  have hsource : w.source.follow key w.server server = w.source := if_pos hrevision
  obtain ⟨hlisted, hopened⟩ := h.plain hplain (Int.le_of_eq h.paired.coherent.revision_eq)
    (Int.le_refl _)
  unfold World.answered
  simp only [hsource, h.drop_courses hcourses]
  refine { h with
    paired := hpaired
    alike := alike_append h.alike halike
    listed := hlisted
    opened := hopened
    asked := hcourses ▸ h.asked
    streams := hstreams ▸ h.streams
    noStream := hstreams ▸ h.noStream
    watched := ?_ }
  intro id hid
  have hsame : w.server.streams.get? id = server.streams.get? id := by rw [hstreams]
  obtain ⟨scope, version, hold⟩ := h.watched id hid
  refine ⟨scope, version, ?_⟩
  rw [World.onEtcd, hsame] at hold
  exact hold

/-- An update that announces one event does to the channels what sending that event to all
does. -/
theorem offered {s : Store} {u : Store.Update} {e : Event} (h : s.announced u = [e]) :
    (s.apply u).channels = s.channels.offer e := by
  rcases s.channels_apply u with ⟨hnone, -, -⟩ | ⟨e', hevent, hoffer, -⟩ | ⟨scope, version, rfl⟩ |
    ⟨other, rfl⟩ | ⟨other, rfl⟩ | ⟨other, rfl⟩ | rfl
  · rw [hnone] at h
    cases h
  · rw [hevent] at h
    cases h
    exact hoffer
  all_goals cases h

/-- A change that both make. In memory it is published to the channels at once; on etcd it
is only done, and every stream has yet to bring it. -/
theorem Inv.write (h : Inv base made n w) (key : String) {reply : Reply} {u : Store.Update}
    {c : Change} {server : Server} (halike : Alike base (.ok reply) (.ok reply))
    (hplain : Plain (w.memory.state.store.revision + 1) (.ok reply))
    (hannounced : w.memory.state.store.announced u = [.change c])
    (hrevision : server.revision = w.server.revision + 1)
    (hdeed : server.deed key = deedOf base c) (hstreams : server.streams = w.server.streams)
    (hcourses : server.courses = w.server.courses)
    (hpaired : Paired base (made ++ [c])
      { w.memory.state with store := w.memory.state.store.apply u }
      { w.etcd.state with server }) :
    Inv base (made ++ [c]) n (w.answered key
      (.ok reply, { w.memory.state with store := w.memory.state.store.apply u })
      (.ok reply, { w.etcd.state with server })) := by
  have hversion : c.version = made.length + 1 := by
    have hnext := (Consecutive.append_iff.mp hpaired.coherent.consecutive).2.1
    rwa [Int.zero_add] at hnext
  have hsource : w.source.follow key w.server server = sourceOf base (made ++ [c]) := by
    rw [Source.follow, if_neg (by omega), hdeed, h.source, sourceOf_append]
  have hchannels := offered hannounced
  have hlimit : w.memory.state.store.revision + 1 ≤ (made.length : Int) + 1 :=
    Int.add_le_add_right (Int.le_of_eq h.paired.coherent.revision_eq) 1
  obtain ⟨hlisted, hopened⟩ := h.plain hplain hlimit (by omega)
  unfold World.answered
  simp only [hsource, h.drop_courses hcourses]
  refine {
    paired := hpaired
    source := rfl
    alike := alike_append h.alike halike
    listed := ?_
    opened := hopened
    courses := h.courses
    asked := hcourses ▸ h.asked
    memoryChannels := ?_
    etcdChannels := h.etcdChannels
    jobs := h.jobs
    streams := hstreams ▸ h.streams
    noStream := hstreams ▸ h.noStream
    takenInMemory := h.takenInMemory
    takenOnEtcd := h.takenOnEtcd
    watched := ?_ }
  · rw [List.length_append]
    exact hlisted
  · rw [hchannels]
    exact ⟨Channels.numbered_offer h.memoryChannels.1 _, h.memoryChannels.2⟩
  · intro id hid
    obtain ⟨scope, version, hold⟩ := h.watched id hid
    obtain ⟨waiting, responses, cursor, next, hbrings⟩ := hold.brings
    have hsends := hold.sends.write (c := c) (by have := hold.started; omega)
    have hsame : w.server.streams.get? id = server.streams.get? id := by rw [hstreams]
    have hbrought := hbrings.write hversion
    rw [World.inMemory, ← Channels.find?_offer, ← hchannels] at hsends
    rw [World.onEtcd, hsame] at hbrought
    refine ⟨scope, version, ?_, hsends, _, _, _, _, hbrought⟩
    have := hold.started
    rw [List.length_append]
    omega

/-- A watch that both have opened, on the stream of this server that is new. -/
def World.opened (w : World) (server : Server) (scope : Scope) (version first : Int) : World where
  memory := ⟨{ w.memory.state with store := (w.memory.state.store.watch scope version).2 },
    w.memory.replies ++ [.ok (.channel w.memory.state.store.channels.nextId)], w.memory.taken⟩
  etcd := ⟨⟨server, { w.etcd.state.client with
        jobs := w.etcd.state.client.jobs ++ [.forwarder ⟨w.etcd.state.client.channels.nextId,
          scope, first, .following w.server.streams.size⟩]
        channels := (w.etcd.state.client.channels.add scope []).2 }⟩,
    w.etcd.replies ++ [.ok (.channel w.etcd.state.client.channels.nextId)], w.etcd.taken⟩
  source := w.source
  courses := w.courses ++ [⟨scope, first⟩]

section Opening

variable {server : Server} {scope : Scope} {version first : Int}

theorem Inv.opened_of_lt (h : Inv base made n w)
    (hstreams : server.streams = w.server.streams.insert w.server.streams.size ⟨[], true⟩)
    {id : Nat} (hid : id < n) :
    (w.opened server scope version first).inMemory id = w.inMemory id ∧
      (w.opened server scope version first).onEtcd id = w.onEtcd id := by
  have hchannel : (w.memory.state.store.channels.add scope
      (w.memory.state.store.backlog scope version)).2.find? id =
        w.memory.state.store.channels.find? id :=
    Channels.find?_add_of_lt (h.memoryChannels.2.symm ▸ hid) scope _
  have hchannel' : (w.etcd.state.client.channels.add scope []).2.find? id =
      w.etcd.state.client.channels.find? id :=
    Channels.find?_add_of_lt (h.etcdChannels.2.symm ▸ hid) scope _
  have hstream : server.streams.get? id = w.server.streams.get? id := by
    rw [hstreams, h.streams, Table.get?_insert, if_neg (Nat.ne_of_lt hid)]
  constructor
  · simp only [World.opened, World.inMemory, Side.takenFrom, Store.watch, hchannel]
  · rw [World.server] at hstream
    simp only [World.opened, World.onEtcd, World.server, Side.takenFrom, hchannel', hstream,
      List.getElem?_append_left (h.jobs.symm ▸ hid),
      List.getElem?_append_left (h.courses.symm ▸ hid)]

/-- The new watch starts with its backlog in memory, and with nothing on etcd. -/
theorem Inv.opened_self (h : Inv base made n w)
    (hstreams : server.streams = w.server.streams.insert w.server.streams.size ⟨[], true⟩) :
    (w.opened server scope version first).inMemory n =
        ⟨some ⟨n, scope, w.memory.state.store.backlog scope version, true⟩, []⟩ ∧
      (w.opened server scope version first).onEtcd n =
        ⟨some ⟨n, scope, [], true⟩, [], some (.forwarder ⟨n, scope, first, .following n⟩),
          some ⟨[], true⟩, some ⟨scope, first⟩⟩ := by
  obtain ⟨hnumbered, hnextId⟩ := h.memoryChannels
  obtain ⟨hnumbered', hnextId'⟩ := h.etcdChannels
  have hchannel := Channels.find?_add_self hnumbered scope
    (w.memory.state.store.backlog scope version)
  have hchannel' := Channels.find?_add_self hnumbered' scope []
  have hsize := h.streams
  have hstream : server.streams.get? n = some ⟨[], true⟩ := by
    rw [hstreams, hsize, Table.get?_insert, if_pos rfl]
  have hjob {j : Job} : (w.etcd.state.client.jobs ++ [j])[n]? = some j :=
    h.jobs ▸ List.getElem?_concat_length
  have hcourse {c : Course} : (w.courses ++ [c])[n]? = some c :=
    h.courses ▸ List.getElem?_concat_length
  rw [hnextId] at hchannel
  rw [hnextId'] at hchannel'
  constructor
  · simp only [World.opened, World.inMemory, Store.watch, hchannel,
      takenFrom_of_lt h.takenInMemory]
  · rw [World.server] at hsize
    simp only [World.opened, World.onEtcd, World.server, hchannel', hstream, hjob, hcourse,
      takenFrom_of_lt h.takenOnEtcd, hnextId', hsize]

theorem Inv.watch (h : Inv base made n w)
    (hstreams : server.streams = w.server.streams.insert w.server.streams.size ⟨[], true⟩)
    (hcourses : server.courses = w.server.courses ++ [⟨scope, version + base + 1⟩])
    (hfrom : w.memory.state.store.compacted ≤ version)
    (hto : version ≤ w.memory.state.store.revision)
    (hpaired : Paired base made
      { w.memory.state with store := (w.memory.state.store.watch scope version).2 }
      { w.etcd.state with server }) :
    Inv base made (n + 1) (w.opened server scope version (version + base + 1)) := by
  obtain ⟨hnumbered, hnextId⟩ := h.memoryChannels
  obtain ⟨hnumbered', hnextId'⟩ := h.etcdChannels
  refine {
    paired := ?_
    source := h.source
    alike := ?_
    listed := ?_
    opened := ?_
    courses := ?_
    asked := ?_
    memoryChannels := ⟨Channels.numbered_add hnumbered _ _, congrArg (· + 1) hnextId⟩
    etcdChannels := ⟨Channels.numbered_add hnumbered' _ _, congrArg (· + 1) hnextId'⟩
    jobs := List.length_append.trans (congrArg (· + 1) h.jobs)
    streams := ?_
    noStream := ?_
    takenInMemory := fun p hp => Nat.lt_succ_of_lt (h.takenInMemory p hp)
    takenOnEtcd := fun p hp => Nat.lt_succ_of_lt (h.takenOnEtcd p hp)
    watched := ?_ }
  · refine { hpaired with forwarders := ?_ }
    intro job hjob
    rcases List.mem_append.mp hjob with hold | hnew
    · exact hpaired.forwarders job hold
    · exact ⟨_, List.mem_singleton.mp hnew⟩
  · have hsame := hnextId.trans hnextId'.symm
    rw [World.opened, ← hsame]
    exact alike_append h.alike (.channel _)
  · intro x hx
    rw [Side.listings, World.opened, List.filterMap_append, List.mem_append] at hx
    rcases hx with hold | hnew
    · exact h.listed x hold
    · cases hnew
  · intro id hid
    rcases List.mem_append.mp hid with hold | hnew
    · exact Nat.lt_succ_of_lt (h.opened id hold)
    · cases List.mem_singleton.mp hnew
      exact hnextId ▸ Nat.lt_succ_self _
  · exact List.length_append.trans (congrArg (· + 1) h.courses)
  · refine (congrArg List.length hcourses).trans ?_
    exact List.length_append.trans (congrArg (· + 1) h.asked)
  · refine (congrArg Table.size hstreams).trans ?_
    rw [Table.size_insert (h.noStream _ (Nat.le_of_eq h.streams.symm)), h.streams]
  · intro id hid
    have hother : id ≠ n := by omega
    refine (congrArg (Table.get? · id) hstreams).trans ?_
    rw [h.streams, Table.get?_insert, if_neg hother]
    exact h.noStream id (Nat.le_of_succ_le hid)
  · intro id hid
    rcases Nat.lt_succ_iff_lt_or_eq.mp hid with hid | rfl
    · obtain ⟨hmemory, hetcd⟩ := h.opened_of_lt hstreams hid
      rw [hmemory, hetcd]
      exact h.watched id hid
    · obtain ⟨hmemory, hetcd⟩ := h.opened_self hstreams
      rw [hmemory, hetcd]
      exact ⟨scope, version, .start h.paired.coherent hfrom hto base id scope⟩

end Opening

theorem World.ask_eq {a : Ask} {call : Call Memory Reply} {call' : Call Link Reply} {now : Instant}
    (hcall : a.call? (Memory.backend now) w.memory.listings = some call)
    (hcall' : a.call? (Link.backend now) w.etcd.listings = some call') :
    w.ask now a = w.answered a.key (call.exec w.memory.state) (call'.exec w.etcd.state) := by
  simp only [World.ask, Side.ask, hcall, hcall']
  rfl

theorem Inv.answered_opened (h : Inv base made n w) (key : String) {server : Server}
    {scope : Scope} {version first : Int} (hrevision : server.revision = w.server.revision)
    (hcourses : server.courses = w.server.courses ++ [⟨scope, first⟩]) :
    w.answered key
      (.ok (.channel w.memory.state.store.channels.nextId),
        { w.memory.state with store := (w.memory.state.store.watch scope version).2 })
      (.ok (.channel w.etcd.state.client.channels.nextId),
        Link.addJob (.forwarder ⟨w.etcd.state.client.channels.nextId, scope, first,
            .following w.server.streams.size⟩)
          ⟨server, { w.etcd.state.client with
            channels := (w.etcd.state.client.channels.add scope []).2 }⟩) =
      w.opened server scope version first := by
  have hsource : w.source.follow key w.server server = w.source := if_pos hrevision
  have hdrop : server.courses.drop w.courses.length = [⟨scope, first⟩] := by
    rw [hcourses, h.courses, ← h.asked, List.drop_left]
  simp only [World.answered, Link.addJob, hsource, hdrop]
  rfl

theorem World.ask_of_none {a : Ask} {now : Instant}
    (hcall : a.call? (Memory.backend now) w.memory.listings = none)
    (hcall' : a.call? (Link.backend now) w.etcd.listings = none)
    (hcourses : w.server.courses.length ≤ w.courses.length) : w.ask now a = w := by
  have hsource : w.source.follow a.key w.server w.etcd.state.server = w.source := if_pos rfl
  have hdrop : w.etcd.state.server.courses.drop w.courses.length = [] :=
    List.drop_eq_nil_of_le hcourses
  simp only [World.ask, Side.ask, hcall, hcall', hsource, hdrop, List.append_nil]

/-- A request makes one change at most, and opens one watch at most. -/
theorem Inv.ask (h : Inv base made n w) (hfits : base + made.length + 1 < 0x8000000000000000)
    (now : Instant) {a : Ask} (hkept : a.isKept w.memory.state.store w.memory.listings = true) :
    ∃ made' n', Inv base made' n' (w.ask now a) ∧ made'.length ≤ made.length + 1 := by
  have hrevision := h.paired.revision
  have hlast := h.paired.coherent.revision_eq
  have hlistings : w.etcd.listings = w.memory.listings.map (Listing.ahead base) :=
    listings_eq h.alike
  rcases h.paired.outcome now (fun x hx => hlast.symm ▸ h.listed x hx) hkept (by omega) with
    ⟨hnone, hnone'⟩ | ⟨call, call', hcall, hcall', houtcome⟩
  · rw [← hlistings] at hnone'
    rw [World.ask_of_none hnone hnone' (Nat.le_of_eq (h.asked.trans h.courses.symm))]
    exact ⟨made, n, h, Nat.le_succ _⟩
  · rw [← hlistings] at hcall'
    rw [World.ask_eq hcall hcall']
    generalize call.exec w.memory.state = x, call'.exec w.etcd.state = y at houtcome
    cases houtcome with
    | still halike hplain hrevision hstreams hcourses hpaired =>
        exact ⟨made, n, h.still a.key halike hplain hrevision hstreams hcourses hpaired,
          Nat.le_succ _⟩
    | wrote halike hplain hannounced hrevision hdeed hstreams hcourses hpaired =>
        exact ⟨_, n, h.write a.key halike hplain hannounced hrevision hdeed hstreams hcourses
          hpaired, Nat.le_of_eq List.length_append⟩
    | opened hrevision hstreams hcourses hfrom hto hpaired =>
        have hopened := h.watch hstreams hcourses hfrom hto hpaired
        rw [← h.answered_opened a.key hrevision hcourses] at hopened
        exact ⟨made, n + 1, hopened, Nat.le_succ _⟩

/-- Each move keeps the two backends beside each other, as long as the revisions have room
for one more change. -/
theorem Inv.step (h : Inv base made n w) (hfits : base + made.length + 1 < 0x8000000000000000)
    {m : Instant × Move} (hkept : w.isKept m.2 = true) :
    ∃ made' n', Inv base made' n' (w.step m.1 m.2) ∧
      made'.length ≤ made.length + asks [m] := by
  obtain ⟨now, move⟩ := m
  have hsame : made.length ≤ made.length := Nat.le_refl _
  cases move with
  | ask a => exact h.ask hfits now hkept
  | bring id next => exact ⟨made, n, h.bring id next, hsame⟩
  | advance id => exact ⟨made, n, h.advance hfits now id, hsame⟩
  | receiveInMemory id => exact ⟨made, n, h.receiveInMemory now id, hsame⟩
  | receiveOnEtcd id => exact ⟨made, n, h.receiveOnEtcd now id, hsame⟩

theorem asks_cons (m : Instant × Move) (rest : List (Instant × Move)) :
    asks (m :: rest) = asks [m] + asks rest := by
  rw [asks, ← List.singleton_append, List.countP_append]
  rfl

/-- Any moves keep the two beside each other, with room for the revisions left for as many
requests as they make. -/
theorem Inv.run {moves : List (Instant × Move)} (h : Inv base made n w)
    (hfits : base + made.length + asks moves + 1 < 0x8000000000000000) (hkept : w.Kept moves) :
    ∃ made' n', Inv base made' n' (w.run moves) ∧ made'.length ≤ made.length + asks moves := by
  induction moves generalizing w made n with
  | nil => exact ⟨made, n, h, Nat.le_refl _⟩
  | cons m rest ih =>
      have hcons := asks_cons m rest
      obtain ⟨made', n', hnext, hmore⟩ := h.step (by omega) hkept.1
      obtain ⟨made'', n'', hlast, hmore'⟩ := ih hnext (by omega) hkept.2
      exact ⟨made'', n'', hlast, by omega⟩

/-- Two new backends are beside each other, with no change made and no watch opened. -/
theorem Inv.start (limit : Nat) (base : Int) : Inv base [] 0 (World.start limit base) where
  paired := {
    memoryOpen := rfl
    idle := rfl
    coherent := .create limit
    lasting := nofun
    clientOpen := rfl
    forwarders := nofun
    willing := ⟨fun _ => rfl, rfl, rfl⟩
    mirrors := ⟨fun _ => rfl, nofun⟩
    revision := (Int.zero_add base).symm }
  source := congrArg (Source.mk [] · 0) (Int.add_zero base).symm
  alike := .nil
  listed := nofun
  opened := nofun
  courses := rfl
  asked := rfl
  memoryChannels := ⟨Channels.numbered_none, rfl⟩
  etcdChannels := ⟨Channels.numbered_none, rfl⟩
  jobs := rfl
  streams := rfl
  noStream := fun _ _ => rfl
  takenInMemory := nofun
  takenOnEtcd := nofun
  watched := nofun

/-- Once its stream is drained, the receiver of a watch has been sent the same by both. -/
theorem Inv.sent_eq (h : Inv base made n w) {id : Nat} (hid : id < n) (hdrained : w.Drained id) :
    w.sentOnEtcd id = (w.sentInMemory id).map (Event.ahead base) := by
  obtain ⟨scope, version, hfollows⟩ := h.watched id hid
  obtain ⟨waiting, hchannel, hsent⟩ := hfollows.sends
  obtain ⟨waiting', responses, cursor, next, hbrings⟩ := hfollows.brings
  obtain ⟨hcursor, hmessages⟩ := hdrained
  have hcourse : w.courses[id]? = _ := hbrings.course
  have hstream : w.server.streams.get? id = _ := hbrings.stream
  rw [hcourse, Option.map_some, h.source] at hcursor
  rw [hstream, Option.map_some] at hmessages
  obtain rfl : cursor = base + made.length + 1 := Option.some.inj hcursor
  obtain rfl : responses = [] := List.map_eq_nil_iff.mp (Option.some.inj hmessages)
  have hmemory : w.memory.state.store.channels.waitingOn id = waiting := by
    have hfound : w.memory.state.store.channels.find? id = _ := hchannel
    rw [Channels.waitingOn, hfound]
    rfl
  have hetcd : w.etcd.state.client.channels.waitingOn id = waiting' := by
    have hfound : w.etcd.state.client.channels.find? id = _ := hbrings.channel
    rw [Channels.waitingOn, hfound]
    rfl
  calc w.sentOnEtcd id
    _ = w.etcd.takenFrom id ++ (waiting' ++ []) := by
        rw [World.sentOnEtcd, hetcd, List.append_nil]
    _ = ((due made scope version).map (Change.ahead base)).map Event.change := by
        rw [← span_told h.paired.coherent.consecutive]
        exact hbrings.told
    _ = ((due made scope version).map Event.change).map (Event.ahead base) := by
        rw [List.map_map, List.map_map]
        rfl
    _ = (w.sentInMemory id).map (Event.ahead base) := by
        rw [← hsent, World.sentInMemory, hmemory]
        rfl

/-- The forwarder of a watch empties its stream: as many steps as there are responses on it,
and no other move in between. -/
theorem Inv.empties (h : Inv base made n w) (hfits : base + made.length + 1 < 0x8000000000000000)
    (now : Instant) {id : Nat} (hid : id < n) {messages : List Message}
    (hmessages : (w.server.streams.get? id).map Stream.messages = some messages) :
    ∃ more, asks more = 0 ∧ (w.run more).courses = w.courses ∧ (w.run more).source = w.source ∧
      ((w.run more).server.streams.get? id).map Stream.messages = some [] := by
  induction messages generalizing w with
  | nil => exact ⟨[], rfl, rfl, rfl, hmessages⟩
  | cons message rest ih =>
      obtain ⟨scope, version, hfollows⟩ := h.watched id hid
      obtain ⟨waiting, responses, cursor, next, hbrings⟩ := hfollows.brings
      have hstream : w.server.streams.get? id = _ := hbrings.stream
      rw [hstream, Option.map_some] at hmessages
      obtain ⟨r, responses, rfl, -, rfl⟩ := List.map_eq_cons_iff.mp (Option.some.inj hmessages)
      obtain ⟨later, cs, hadvance, -, -⟩ := h.advance_eq hfits hbrings now
      obtain ⟨more, hquiet, hcourses, hsource, hempty⟩ := ih (h.advance hfits now id) (by
        rw [hadvance, World.withLink, World.server, Table.get?_modify, if_pos rfl, hstream]
        rfl)
      exact ⟨(now, .advance id) :: more, by rw [asks_cons, hquiet]; rfl, hcourses, hsource, hempty⟩

/-- Any watch can be drained at any time, by bringing all that the server has done and then
letting its forwarder step. -/
theorem Inv.drains (h : Inv base made n w) (hfits : base + made.length + 1 < 0x8000000000000000)
    (now : Instant) {id : Nat} (hid : id < n) :
    ∃ more, asks more = 0 ∧ (w.run more).Drained id := by
  obtain ⟨scope, version, hfollows⟩ := h.watched id hid
  obtain ⟨waiting, responses, cursor, next, hbrings⟩ := hfollows.brings
  have hcourse : w.courses[id]? = _ := hbrings.course
  have hlast : w.source.revision = base + made.length := congrArg Source.revision h.source
  have hnext : cursor ≤ w.source.revision + 1 ∧ w.source.revision + 1 ≤ w.source.revision + 1 := by
    have := hbrings.le_last
    omega
  let last := w.source.revision + 1
  -- The stream brings the rest at once; what is on it then is taken off one by one.
  have hbrought := h.bring id last
  have hall : (w.bring id last).courses[id]?.map Course.cursor = some last := by
    rw [w.courses_bring hcourse hnext, List.getElem?_set_self (h.courses.symm ▸ hid)]
    rfl
  obtain ⟨scope', version', hfollows'⟩ := hbrought.watched id hid
  obtain ⟨_, responses', _, _, hbrings'⟩ := hfollows'.brings
  obtain ⟨more, hquiet, hcourses, hsource, hempty⟩ :=
    hbrought.empties hfits now hid (congrArg (Option.map Stream.messages) hbrings'.stream)
  refine ⟨(now, .bring id last) :: more, by rw [asks_cons, hquiet]; rfl, ?_, hempty⟩
  have hrun : w.run ((now, .bring id last) :: more) = (w.bring id last).run more := rfl
  rw [hrun, hcourses, hall, hsource, w.source_bring]

/-- Without a time to live, and while the history reaches back to the start of every watch,
nothing breaks a stream and the revisions have room in 64 bits, the two backends answer alike.
A receiver has been sent the same by both once its stream is drained, and the stream can be
drained at any time. -/
theorem backends_agree (limit : Nat) (base : Int) (moves : List (Instant × Move))
    (hfits : base + asks moves + 1 < 0x8000000000000000)
    (hkept : (World.start limit base).Kept moves) :
    let w := (World.start limit base).run moves
    List.Forall₂ (Alike base) w.memory.replies w.etcd.replies ∧
      ∀ id, .ok (.channel id) ∈ w.memory.replies →
        (w.Drained id → w.sentOnEtcd id = (w.sentInMemory id).map (Event.ahead base)) ∧
        ∃ more, asks more = 0 ∧ (w.run more).Drained id := by
  intro w
  obtain ⟨made, n, h, hmade⟩ := (Inv.start limit base).run
    (by rw [List.length_nil]; omega) hkept
  rw [List.length_nil, Nat.zero_add] at hmade
  refine ⟨h.alike, fun id hid => ?_⟩
  have hid := h.opened id hid
  exact ⟨h.sent_eq hid, h.drains (by omega) .start hid⟩

/-- A number is set, listed, watched, counted up and deleted, and the watch is drained. -/
def counting : List (Instant × Move) :=
  [.ask (.set "k" "5"), .ask (.get ⟨"k", true⟩), .ask (.watch ⟨"k", false⟩ 0),
    .ask (.increment "k"), .ask (.delete "k"), .bring 0 11, .advance 0,
    .receiveOnEtcd 0].map (Prod.mk .start)

/-- The watch starts after the number was set, and its receivers are sent the number that
was counted up and the deletion, the one of etcd with versions seven ahead. -/
theorem backends_agree_counting :
    let w := (World.start 4 7).run counting
    (7 : Int) + asks counting + 1 < 0x8000000000000000 ∧ (World.start 4 7).Kept counting ∧
      List.Forall₂ (Alike 7) w.memory.replies w.etcd.replies ∧
      .ok (.channel 0) ∈ w.memory.replies ∧ w.Drained 0 ∧
      w.sentInMemory 0 =
        [.change ⟨.update, ⟨"k", "6", 2⟩⟩, .change ⟨.delete, ⟨"k", "6", 3⟩⟩] ∧
      w.sentOnEtcd 0 = (w.sentInMemory 0).map (Event.ahead 7) := by
  intro w
  have hfits : (7 : Int) + asks counting + 1 < 0x8000000000000000 := by decide
  have hkept : (World.start 4 7).Kept counting :=
    ⟨rfl, rfl, rfl, rfl, rfl, rfl, rfl, rfl, trivial⟩
  have hopened : .ok (.channel 0) ∈ w.memory.replies := by decide +kernel
  have hdrained : w.Drained 0 := by
    unfold World.Drained
    decide +kernel
  have hsent : w.sentInMemory 0 =
      [.change ⟨.update, ⟨"k", "6", 2⟩⟩, .change ⟨.delete, ⟨"k", "6", 3⟩⟩] := by
    decide +kernel
  obtain ⟨halike, hwatches⟩ := backends_agree 4 7 counting hfits hkept
  exact ⟨hfits, hkept, halike, hopened, hdrained, hsent, (hwatches 0 hopened).1 hdrained⟩

end Moves

end Rollcall.Agreement
