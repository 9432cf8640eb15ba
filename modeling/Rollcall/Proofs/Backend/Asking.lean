import Rollcall.Proofs.Etcd.Mirroring
import Rollcall.Proofs.Etcd.Source
import Rollcall.Proofs.Memory.Lapsing

/-!
One request to both backends. A caller sets values without a time to live, deletes, counts,
lists, and watches from the version of a listing that it has got before. While the server of
the one backend mirrors the contents of the other, a request is answered alike and leaves
both as they are, or makes the same change in both, or opens the same watch in both. Main
statement: `Paired.outcome`.
-/

namespace Rollcall

def Listing.ahead (base : Int) (l : Listing) : Listing :=
  ⟨l.pairs.map (Pair.ahead base), l.version + base⟩

/-- What etcd tells of a change; of a key that is gone it tells no value. -/
def Change.ahead (base : Int) (c : Change) : Change :=
  match c.kind with
  | .update => ⟨.update, c.pair.ahead base⟩
  | .delete => ⟨.delete, ⟨c.pair.key, "", c.version + base⟩⟩

namespace Etcd

/-- The deed by which a server has come to its last revision, if that is about the key. -/
def Server.deed (s : Server) (key : String) : Deed :=
  match s.seen key with
  | some (value, revision) => ⟨true, ⟨Text.utf8 key, value, revision⟩⟩
  | none => ⟨false, ⟨Text.utf8 key, [], s.revision⟩⟩

/-- The deed by which a server makes a change. -/
def deedOf (base : Int) (c : Change) : Deed :=
  match c.kind with
  | .update => ⟨true, ⟨Text.utf8 c.pair.key, Text.utf8 c.pair.value, c.version + base⟩⟩
  | .delete => ⟨false, ⟨Text.utf8 c.pair.key, [], c.version + base⟩⟩

/-- A watch as a server is asked for it, and the revision that it has got to. -/
structure Course where
  scope : Scope
  cursor : Int
deriving DecidableEq

def Request.course? : Request → Option Course
  | .watch key startRevision wholePrefix => some ⟨⟨key, wholePrefix⟩, startRevision⟩
  | _ => none

/-- The watches that a server has been asked for, each at its start. -/
def Server.courses (s : Server) : List Course := s.log.filterMap Request.course?

section Deeds

variable {base : Int} {c : Change}

theorem deedOf_revision (base : Int) (c : Change) :
    (deedOf base c).revision = c.version + base := by
  unfold deedOf
  cases c.kind <;> rfl

/-- A server's deed concerns a watch exactly if the change in memory does. -/
theorem isIn_deedOf (base : Int) (c : Change) (scope : Scope) :
    (deedOf base c).isIn scope = scope.covers c.pair.key := by
  have hkey : (deedOf base c).kv.key = Text.utf8 c.pair.key := by
    unfold deedOf
    cases c.kind <;> rfl
  rw [Deed.isIn, Scope.covers, hkey, Text.isPrefixOf_utf8]
  congr 1
  exact decide_eq_decide.mpr ⟨Text.utf8_injective, congrArg Text.utf8⟩

/-- A stream tells of a deed what the channel in memory tells of the change, with the
version ahead by the base. -/
theorem change?_deedOf (base : Int) (c : Change) :
    (deedOf base c).event.change? = some (c.ahead base) := by
  unfold deedOf Change.ahead Deed.event WatchEvent.change?
  cases c.kind with
  | update => simp only [Option.bind_some, Server.toPair?_encoded]; rfl
  | delete =>
      have hempty : Text.ofUtf8? [] = some "" := rfl
      simp only [Option.bind_some, Link.toPair?, Text.ofUtf8?_utf8, hempty]
      rfl

end Deeds

/-- What is asked of a server, watches apart, does not show in the watches that it has been
asked for. -/
theorem Server.courses_logged (s : Server) {r : Request} (h : r.course? = none) :
    (s.logged r).courses = s.courses := by
  simp only [courses, logged, List.filterMap_append, List.filterMap_cons, h, List.filterMap_nil,
    List.append_nil]

end Etcd

theorem Call.exec_map {σ α β : Type} (f : α → β) (call : Call σ α) (s : σ) :
    (f <$> call).exec s = ((call.exec s).1.map f, (call.exec s).2) := by
  rcases hcall : call.exec s with ⟨answer | answer, s'⟩ <;>
    simp only [Functor.map, ExceptT.map, Call.exec, ExceptT.mk, bind, StateT.bind] at hcall ⊢ <;>
    rw [hcall] <;> rfl

theorem Contents.scan_eq (s : Store) (scope : Scope) : s.contents.scan scope = s.scan scope := by
  obtain ⟨key, wholePrefix⟩ := scope
  cases wholePrefix with
  | true => exact scan_contents s key
  | false =>
      simp only [scan, Scope.covers, Bool.false_eq_true, if_false, Table.filter_key_eq,
        Store.get?_contents, Store.scan]
      cases s.entries.get? key <;> rfl

theorem Store.expire_of_lasting {s : Store}
    (h : ∀ key e, s.entries.get? key = some e → e.deadline = none) (now : Instant) :
    s.expire now = s := by
  have hnone : s.overdue now = [] := by
    apply List.eq_nil_iff_forall_not_mem.mpr
    intro key hkey
    obtain ⟨e, hentry, hlate⟩ := mem_overdue.mp hkey
    rw [Entry.isOverdue, h key e hentry] at hlate
    cases hlate
  rw [expire, hnone, List.foldl_nil]

namespace Agreement

open Etcd

inductive Ask where
  | set (key value : String)
  | get (scope : Scope)
  | delete (key : String)
  | increment (key : String)
  /-- From the version of the listing with this number among those got so far. -/
  | watch (scope : Scope) (listing : Nat)
deriving DecidableEq

inductive Reply where
  | done
  | listing (l : Listing)
  | count (n : Int)
  | channel (id : Nat)
deriving DecidableEq

def Ask.key : Ask → String
  | .set key _ | .delete key | .increment key => key
  | .get scope | .watch scope _ => scope.key

/-- The call that a request amounts to; there is none if the listing is missing. -/
def Ask.call? {σ : Type} (b : Backend σ) (listings : List Listing) :
    Ask → Option (Call σ Reply)
  | .set key value => some ((fun _ => .done) <$> b.set key value .zero)
  | .get scope => some (.listing <$> b.get scope)
  | .delete key => some ((fun _ => .done) <$> b.delete key)
  | .increment key => some (.count <$> b.increment key)
  | .watch scope i => listings[i]?.map (fun l => .channel <$> b.watch scope l.version)

/-- The history still reaches back to where a watch starts. -/
def Ask.isKept (s : Store) (listings : List Listing) : Ask → Bool
  | .watch _ i =>
      match listings[i]? with
      | some l => s.compacted ≤ l.version
      | none => true
  | _ => true

/-- Answers that are the same up to the base. Where both backends refuse, it is over a
counter that is no number, each in words of its own. -/
inductive Alike (base : Int) : Except Failure Reply → Except Failure Reply → Prop where
  | done : Alike base (.ok .done) (.ok .done)
  | listing (l : Listing) : Alike base (.ok (.listing l)) (.ok (.listing (l.ahead base)))
  | count (n : Int) : Alike base (.ok (.count n)) (.ok (.count n))
  | channel (id : Nat) : Alike base (.ok (.channel id)) (.ok (.channel id))
  | refused (text text' : String) :
      Alike base (.error (.error (.backend "incr" text)))
        (.error (.error (.backend "incr" text')))
  | crash : Alike base (.error .crash) (.error .crash)

/-- A reply that opens nothing; a listing is of this version. -/
def Plain (version : Int) : Except Failure Reply → Prop
  | .ok (.listing l) => l.version = version
  | .ok (.channel _) => False
  | _ => True

/-- Two open backends of which the one mirrors the other, with nothing under way but
watches. `made` are the changes that the one in memory has made. -/
structure Paired (base : Int) (made : List Change) (m : Memory) (l : Link) : Prop where
  memoryOpen : m.closed = false
  idle : m.jobs = []
  coherent : m.store.Coherent made
  lasting : ∀ key e, m.store.entries.get? key = some e → e.deadline = none
  clientOpen : l.client.closed = false
  forwarders : ∀ job ∈ l.client.jobs, ∃ f, job = .forwarder f
  willing : l.server.Willing
  mirrors : l.server.Mirrors base m.store.contents
  revision : l.server.revision = m.store.revision + base

inductive Outcome (base : Int) (made : List Change) (key : String) (m : Memory) (l : Link) :
    Except Failure Reply × Memory → Except Failure Reply × Link → Prop where
  | still {r r' : Except Failure Reply} {server : Server} (halike : Alike base r r')
      (hplain : Plain m.store.revision r) (hrevision : server.revision = l.server.revision)
      (hstreams : server.streams = l.server.streams) (hcourses : server.courses = l.server.courses)
      (hpaired : Paired base made m { l with server }) :
      Outcome base made key m l (r, m) (r', { l with server })
  | wrote {reply : Reply} {u : Store.Update} {c : Change} {server : Server}
      (halike : Alike base (.ok reply) (.ok reply))
      (hplain : Plain (m.store.revision + 1) (.ok reply))
      (hannounced : m.store.announced u = [.change c])
      (hrevision : server.revision = l.server.revision + 1)
      (hdeed : server.deed key = deedOf base c)
      (hstreams : server.streams = l.server.streams) (hcourses : server.courses = l.server.courses)
      (hpaired : Paired base (made ++ [c]) { m with store := m.store.apply u } { l with server }) :
      Outcome base made key m l (.ok reply, { m with store := m.store.apply u })
        (.ok reply, { l with server })
  | opened {scope : Scope} {version : Int} {server : Server}
      (hrevision : server.revision = l.server.revision)
      (hstreams : server.streams = l.server.streams.insert l.server.streams.size ⟨[], true⟩)
      (hcourses : server.courses = l.server.courses ++ [⟨scope, version + base + 1⟩])
      (hfrom : m.store.compacted ≤ version) (hto : version ≤ m.store.revision)
      (hpaired : Paired base made { m with store := (m.store.watch scope version).2 }
        { l with server }) :
      Outcome base made key m l
        (.ok (.channel m.store.channels.nextId),
          { m with store := (m.store.watch scope version).2 })
        (.ok (.channel l.client.channels.nextId),
          Link.addJob (.forwarder ⟨l.client.channels.nextId, scope, version + base + 1,
              .following l.server.streams.size⟩)
            ⟨server, { l.client with channels := (l.client.channels.add scope []).2 }⟩)

section

variable {base : Int} {made : List Change} {m : Memory} {l : Link}

theorem Paired.expire (h : Paired base made m l) (now : Instant) : m.store.expire now = m.store :=
  Store.expire_of_lasting h.lasting now

theorem Paired.cancelKeepers (h : Paired base made m l) (key : String) :
    l.cancelKeepers key = l := by
  have hjobs : l.client.jobs.map (Link.cancelKeeper key) = l.client.jobs := by
    refine (List.map_congr_left ?_).trans (List.map_id _)
    intro job hjob
    obtain ⟨f, rfl⟩ := h.forwarders job hjob
    rfl
  rw [Link.cancelKeepers, hjobs]

theorem Paired.logged (h : Paired base made m l) (r : Request) :
    Paired base made m { l with server := l.server.logged r } :=
  { h with
    willing := h.willing.logged r
    mirrors := h.mirrors.logged r }

theorem Paired.withStreams (h : Paired base made m l) (streams : Table Nat Stream) :
    Paired base made m { l with server := { l.server with streams } } :=
  { h with
    willing := ⟨h.willing.failures, h.willing.contended, h.willing.headerless⟩
    mirrors := ⟨h.mirrors.seen, h.mirrors.text⟩ }

/-- A request that changes nothing on either side, and is no watch, leaves the two paired. -/
theorem Outcome.noted (h : Paired base made m l) (key : String) {r r' : Except Failure Reply}
    (halike : Alike base r r') (hplain : Plain m.store.revision r) {request : Request}
    (hrequest : request.course? = none) :
    Outcome base made key m l (r, m) (r', { l with server := l.server.logged request }) :=
  .still halike hplain rfl rfl (l.server.courses_logged hrequest) (h.logged request)

theorem lasting_put {s : Store} (h : ∀ key e, s.entries.get? key = some e → e.deadline = none)
    (key value : String) :
    ∀ other e, (s.put key value none).entries.get? other = some e → e.deadline = none := by
  intro other e hentry
  rw [Store.get?_put] at hentry
  split at hentry
  · rw [← Option.some.inj hentry]
  · exact h other e hentry

theorem lasting_remove {s : Store} (h : ∀ key e, s.entries.get? key = some e → e.deadline = none)
    (key : String) :
    ∀ other e, (s.remove key).entries.get? other = some e → e.deadline = none := by
  intro other e hentry
  rw [Store.get?_remove] at hentry
  split at hentry
  · cases hentry
  · exact h other e hentry

/-- A value is put on both sides, after some requests that only read. -/
theorem Outcome.put (h : Paired base made m l) (key value : String) {reply : Reply}
    (halike : Alike base (.ok reply) (.ok reply))
    (hplain : Plain (m.store.revision + 1) (.ok reply))
    {read : Server} (hread : Paired base made m { l with server := read })
    (hstreams : read.streams = l.server.streams) (hcourses : read.courses = l.server.courses) :
    Outcome base made key m l (.ok reply, { m with store := m.store.put key value none })
      (.ok reply, { l with server := read.put (Text.utf8 key) (Text.utf8 value) 0 }) := by
  have hrevision : read.revision = l.server.revision := hread.revision.trans h.revision.symm
  have hahead : m.store.revision + 1 + base = read.revision + 1 := by
    have hbase : read.revision = m.store.revision + base := hread.revision
    omega
  let u : Store.Update := .put key value none
  refine Outcome.wrote (u := u) halike hplain rfl ?_ ?_ hstreams hcourses ?_
  · simp only [Server.put, hrevision]
  · rw [Server.deed, Server.seen_put, if_pos rfl, ← hahead]
    rfl
  · have hmade : (m.store.apply u).Coherent
        (made ++ [⟨.update, ⟨key, value, m.store.revision + 1⟩⟩]) := h.coherent.apply u
    refine { hread with
      coherent := hmade
      lasting := lasting_put h.lasting key value
      willing := ?_
      mirrors := ?_
      revision := hahead.symm }
    · exact hread.willing.put _ _ _
    · simp only [u, Store.apply, Store.contents_put]
      exact hread.mirrors.put hahead key value 0

/-- A write without a time to live: on etcd it is one put without a lease, after the keepers
of the key are told to stop. -/
theorem Outcome.set (h : Paired base made m l) (now : Instant) (key value : String) :
    Outcome base made key m l
      (((fun _ => .done) <$> (Memory.backend now).set key value .zero).exec m)
      (((fun _ => .done) <$> (Link.backend now).set key value .zero).exec l) := by
  have hmemory : m.set now key value .zero =
      (.ok (), { m with store := m.store.put key value none }) := by
    have hdeadline : Memory.deadline? now .zero = .ok none := rfl
    simp only [Memory.set, h.memoryOpen, Bool.false_eq_true, if_false, h.expire, hdeadline]
  rw [Call.exec_map, Call.exec_map]
  simp only [Memory.backend, Link.backend, Call.exec, Call.of, hmemory,
    Link.set_eq h.clientOpen h.willing]
  exact Outcome.put h key value .done trivial (h.logged _) rfl (l.server.courses_logged rfl)

/-- A query answers the same pairs in the same order on both sides, with versions ahead by
the base. -/
theorem Outcome.get (h : Paired base made m l) (now : Instant) (scope : Scope) :
    Outcome base made scope.key m l ((.listing <$> (Memory.backend now).get scope).exec m)
      ((.listing <$> (Link.backend now).get scope).exec l) := by
  have hmemory := Memory.get_eq_of_open h.memoryOpen now scope
  rw [h.expire] at hmemory
  have hlisting := h.mirrors.listing scope
  rw [Contents.scan_eq] at hlisting
  rw [Call.exec_map, Call.exec_map]
  simp only [Memory.backend, Link.backend, Call.exec, Call.of, hmemory,
    Link.get_eq h.clientOpen h.willing, hlisting, h.revision]
  exact Outcome.noted h scope.key (.listing ⟨m.store.scan scope, m.store.revision⟩) rfl rfl

theorem Outcome.remove (h : Paired base made m l) {key : String} {e : Entry}
    (hentry : m.store.entries.get? key = some e)
    (hcontains : (l.server.logged (.delete key)).records.contains (Text.utf8 key) = true) :
    Outcome base made key m l (.ok .done, { m with store := m.store.remove key })
      (.ok .done,
        { l with server := (l.server.logged (.delete key)).delete (Text.utf8 key) }) := by
  let c : Change := ⟨.delete, ⟨key, e.value, m.store.revision + 1⟩⟩
  let u : Store.Update := .remove key
  have hnoted := h.logged (.delete key)
  have hannounced : m.store.announced u = [.change c] := by
    simp only [u, Store.announced, hentry, c]
  have hdeleted : (l.server.logged (.delete key)).delete (Text.utf8 key) =
      { l.server.logged (.delete key) with
        revision := l.server.revision + 1
        records := l.server.records.erase (Text.utf8 key) } := by
    rw [Server.delete, hcontains]
    rfl
  have hahead : m.store.revision + 1 + base = l.server.revision + 1 := by
    have := h.revision
    omega
  refine Outcome.wrote (u := u) (c := c) .done trivial hannounced ?_ ?_ ?_ ?_ ?_
  · rw [hdeleted]
  · rw [Server.deed, Server.seen_delete, if_pos rfl, hdeleted, ← hahead]
    rfl
  · rw [hdeleted]
    rfl
  · rw [hdeleted]
    exact l.server.courses_logged (r := .delete key) rfl
  · have hmade := h.coherent.apply u
    rw [hannounced] at hmade
    have hcontents : (m.store.apply u).contents = m.store.contents.erase key := by
      rw [Store.contents_apply, hannounced]
      rfl
    refine { hnoted with
      coherent := hmade
      lasting := lasting_remove h.lasting key
      willing := hnoted.willing.delete _
      mirrors := ?_
      revision := ?_ }
    · simp only [hcontents]
      exact hnoted.mirrors.delete key
    · rw [hdeleted, ← hahead]
      simp only [u, Store.apply, Store.remove, hentry]
      rfl

/-- A deletion is one on both sides, and does nothing on either where the key is not there. -/
theorem Outcome.delete (h : Paired base made m l) (now : Instant) (key : String) :
    Outcome base made key m l (((fun _ => .done) <$> (Memory.backend now).delete key).exec m)
      (((fun _ => .done) <$> (Link.backend now).delete key).exec l) := by
  have hmemory : m.delete key = (.ok (), { m with store := m.store.remove key }) := by
    simp only [Memory.delete, h.memoryOpen, Bool.false_eq_true, if_false, h.idle, List.map_nil]
  rw [Call.exec_map, Call.exec_map]
  simp only [Memory.backend, Link.backend, Call.exec, Call.of, hmemory,
    Link.delete_eq h.clientOpen h.willing, h.cancelKeepers]
  have hcontains : (l.server.logged (.delete key)).records.contains (Text.utf8 key) =
      (m.store.entries.get? key).isSome := by
    rw [(h.logged (.delete key)).mirrors.contains key, Table.contains, Store.get?_contents,
      Option.isSome_map]
  cases hentry : m.store.entries.get? key with
  | none =>
      have hmissing : (l.server.logged (.delete key)).delete (Text.utf8 key) =
          l.server.logged (.delete key) := by
        rw [Server.delete, hcontains, hentry, Option.isSome_none]
        rfl
      have hsame : m.store.remove key = m.store := by
        rw [Store.remove, hentry]
      rw [hmissing, hsame]
      exact Outcome.noted h key .done trivial rfl
  | some e =>
      rw [hentry, Option.isSome_some] at hcontains
      exact Outcome.remove h hentry hcontains

/-- Both backends read the same number from a counter, or neither reads one. So increments
count on from the same number, or both are refused. -/
theorem Paired.count_eq (h : Paired base made m l) (key : String) :
    l.server.count? key = (Memory.counter m.store key).toOption ∧
      ∀ e, Memory.counter m.store key = .error e → ∃ text, e = .backend "incr" text := by
  rw [h.mirrors.count_eq, Store.get?_contents, Memory.counter]
  cases m.store.entries.get? key with
  | none => exact ⟨rfl, nofun⟩
  | some e =>
      simp only [Option.map_some]
      cases Decimal.readInt64 e.value with
      | ok n => exact ⟨rfl, nofun⟩
      | error fault => exact ⟨rfl, fun e he => ⟨_, (Except.error.inj he).symm⟩⟩

/-- An increment counts on from the same number on both sides. On etcd it is a transaction,
whose guard holds as nobody else is at work. -/
theorem Outcome.increment (h : Paired base made m l) (now : Instant) (key : String) :
    Outcome base made key m l ((Reply.count <$> (Memory.backend now).increment key).exec m)
      ((Reply.count <$> (Link.backend now).increment key).exec l) := by
  obtain ⟨hcount, hrefused⟩ := h.count_eq key
  rw [Call.exec_map, Call.exec_map]
  simp only [Memory.backend, Link.backend, Call.exec, Call.of, Memory.increment,
    if_neg (Bool.eq_false_iff.mp h.memoryOpen), Link.increment_eq h.clientOpen h.willing, hcount]
  have hread := h.logged (.get key false)
  have hcourses := l.server.courses_logged (r := .get key false) rfl
  cases hcounter : Memory.counter m.store key with
  | error e =>
      obtain ⟨text, rfl⟩ := hrefused e hcounter
      exact Outcome.noted h key (.refused _ _) trivial rfl
  | ok n =>
      by_cases hfits : n + 1 < 0x8000000000000000
      · simp only [Except.toOption, if_pos hfits]
        refine Outcome.put h key _ (.count (n + 1)) trivial (hread.logged _) rfl ?_
        rw [Server.courses_logged _ rfl, hcourses]
      · simp only [Except.toOption, if_neg hfits]
        exact Outcome.noted h key .crash trivial rfl

/-- A watch from a version that the history still reaches is opened on both sides, on etcd
at the revision after it. -/
theorem Outcome.watch (h : Paired base made m l) (now : Instant) (scope : Scope) {version : Int}
    (hfrom : m.store.compacted ≤ version) (hto : version ≤ m.store.revision)
    (hfits : version + base + 1 < 0x8000000000000000) :
    Outcome base made scope.key m l
      ((Reply.channel <$> (Memory.backend now).watch scope version).exec m)
      ((Reply.channel <$> (Link.backend now).watch scope (version + base)).exec l) := by
  have hmemory := Memory.watch_eq_of_open h.memoryOpen now scope version
  rw [h.expire] at hmemory
  rw [Call.exec_map, Call.exec_map]
  simp only [Memory.backend, Link.backend, Call.exec, Call.of, hmemory,
    Link.watch_eq h.clientOpen h.willing scope hfits]
  let request : Request := .watch scope.key (version + base + 1) scope.wholePrefix
  let server : Server := { l.server.logged request with
    streams := l.server.streams.insert l.server.streams.size ⟨[], true⟩ }
  have hpaired : Paired base made m { l with server } := (h.logged request).withStreams _
  have hrevision : server.revision = l.server.revision := rfl
  refine Outcome.opened hrevision rfl ?_ hfrom hto
    { hpaired with coherent := h.coherent.congr rfl rfl rfl rfl }
  simp only [Server.courses, Server.logged, List.filterMap_append]
  rfl

/-- What a request does to both backends, unless it is a watch from a listing that has not
been got. -/
theorem Paired.outcome (h : Paired base made m l) (now : Instant) {a : Ask}
    {listings : List Listing} (hlistings : ∀ x ∈ listings, x.version ≤ m.store.revision)
    (hkept : a.isKept m.store listings = true)
    (hfits : l.server.revision + 1 < 0x8000000000000000) :
    (a.call? (Memory.backend now) listings = none ∧
      a.call? (Link.backend now) (listings.map (Listing.ahead base)) = none) ∨
    ∃ call call', a.call? (Memory.backend now) listings = some call ∧
      a.call? (Link.backend now) (listings.map (Listing.ahead base)) = some call' ∧
      Outcome base made a.key m l (call.exec m) (call'.exec l) := by
  cases a with
  | set key value => exact .inr ⟨_, _, rfl, rfl, .set h now key value⟩
  | get scope => exact .inr ⟨_, _, rfl, rfl, .get h now scope⟩
  | delete key => exact .inr ⟨_, _, rfl, rfl, .delete h now key⟩
  | increment key => exact .inr ⟨_, _, rfl, rfl, .increment h now key⟩
  | watch scope i =>
      simp only [Ask.call?, List.getElem?_map]
      cases hfound : listings[i]? with
      | none => exact .inl ⟨rfl, rfl⟩
      | some listing =>
          have hto := hlistings listing (List.mem_of_getElem? hfound)
          have hfrom : m.store.compacted ≤ listing.version := by
            simpa only [Ask.isKept, hfound, decide_eq_true_eq] using hkept
          have hrevision := h.revision
          exact .inr ⟨_, _, rfl, rfl, .watch h now scope hfrom hto (by omega)⟩

end

end Agreement

end Rollcall
