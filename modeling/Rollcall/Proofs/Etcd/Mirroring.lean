import Rollcall.Proofs.Etcd.Counter
import Rollcall.Proofs.Etcd.Forwarding
import Rollcall.Proofs.Store.Snapshot
import Rollcall.Proofs.Text.Order

/-!
A server beside the contents of a store. It mirrors them if it binds the bytes of each key
to the bytes of its value, under revisions that are ahead of the versions by one constant.
A server for which nothing has been arranged answers every request, so what each call of a
client does can be said outright, and it does to the mirror what it does to the contents.
Main statements: `Mirrors.put`, `Mirrors.delete`, `Mirrors.listing` and the equations of
the calls.
-/

namespace Rollcall

/-- The pair with its version as a revision that is ahead by `base`. -/
def Pair.ahead (base : Int) (p : Pair) : Pair := { p with version := p.version + base }

namespace Etcd

namespace Server

/-- Nothing has been arranged: no request fails, no rival counts, no header is lost. -/
structure Willing (s : Server) : Prop where
  failures : ∀ method, s.failures.getD method [] = []
  contended : s.contended = 0
  headerless : s.headerless = 0

def logged (s : Server) (r : Request) : Server := { s with log := s.log ++ [r] }

/-- What clients see under a key. -/
def seen (s : Server) (key : String) : Option (Bytes × Int) :=
  (s.record? key).map (fun r => (r.value, r.modRevision))

structure Mirrors (s : Server) (base : Int) (t : Contents) : Prop where
  seen : ∀ key, s.seen key = (t.get? key).map (fun e => (Text.utf8 e.1, e.2 + base))
  text : ∀ bytes, s.records.contains bytes = true → ∃ key, Text.utf8 key = bytes

section Contents

variable {s : Server} {base : Int} {t : Contents} {key : String}

theorem get?_insert_utf8 {α : Type} (records : Table Bytes α) (key other : String) (r : α) :
    (records.insert (Text.utf8 key) r).get? (Text.utf8 other) =
      if other = key then some r else records.get? (Text.utf8 other) := by
  rw [Table.get?_insert]
  by_cases h : other = key
  · rw [if_pos h, if_pos (congrArg Text.utf8 h)]
  · rw [if_neg h, if_neg (fun heq => h (Text.utf8_injective heq))]

theorem seen_put (s : Server) (key other : String) (value : Bytes) (lease : Int) :
    (s.put (Text.utf8 key) value lease).seen other =
      if other = key then some (value, s.revision + 1) else s.seen other := by
  simp only [seen, record?, put, get?_insert_utf8]
  split <;> rfl

/-- A key that is deleted is seen no more; if it was not there nothing has changed. -/
theorem seen_delete (s : Server) (key other : String) :
    (s.delete (Text.utf8 key)).seen other = if other = key then none else s.seen other := by
  unfold delete seen record?
  split
  · rw [Table.get?_erase]
    by_cases h : other = key
    · rw [if_pos h, if_pos (congrArg Text.utf8 h), Option.map_none]
    · rw [if_neg h, if_neg (fun heq => h (Text.utf8_injective heq))]
  · rename_i habsent
    by_cases h : other = key
    · rw [if_pos h, h, Option.not_isSome_iff_eq_none.mp habsent, Option.map_none]
    · rw [if_neg h]

theorem Mirrors.contains (h : s.Mirrors base t) (key : String) :
    s.records.contains (Text.utf8 key) = t.contains key := by
  have hseen := congrArg Option.isSome (h.seen key)
  rw [Server.seen, Option.isSome_map, Option.isSome_map] at hseen
  exact hseen

theorem Mirrors.logged (h : s.Mirrors base t) (r : Request) : (s.logged r).Mirrors base t :=
  ⟨h.seen, h.text⟩

/-- A put on the server mirrors a put in memory, if the version is behind its revision by
the base. -/
theorem Mirrors.put (h : s.Mirrors base t) {version : Int}
    (hversion : version + base = s.revision + 1) (key value : String) (lease : Int) :
    (s.put (Text.utf8 key) (Text.utf8 value) lease).Mirrors base
      (t.insert key (value, version)) where
  seen := by
    intro other
    rw [seen_put, Table.get?_insert]
    split
    · rw [Option.map_some, hversion]
    · exact h.seen other
  text := by
    intro bytes hbound
    simp only [Server.put, Table.contains_insert, Bool.or_eq_true, decide_eq_true_eq] at hbound
    rcases hbound with rfl | hbound
    · exact ⟨key, rfl⟩
    · exact h.text bytes hbound

theorem Mirrors.delete (h : s.Mirrors base t) (key : String) :
    (s.delete (Text.utf8 key)).Mirrors base (t.erase key) where
  seen := by
    intro other
    rw [seen_delete, Table.get?_erase]
    split
    · rfl
    · exact h.seen other
  text := by
    intro bytes hbound
    apply h.text
    unfold Server.delete at hbound
    split at hbound
    · simp only [Table.contains_erase, Bool.and_eq_true] at hbound
      exact hbound.2
    · exact hbound

def encode (base : Int) (t : Contents) : Table Bytes (Bytes × Int) where
  rows := t.rows.map (fun row => (Text.utf8 row.1, Text.utf8 row.2.1, row.2.2 + base))
  ascending := t.ascending.map _ (fun _ _ => Text.utf8_lt)

theorem lookup_encoded (base : Int) (key : String) (rows : List (String × String × Int)) :
    Table.lookup (Text.utf8 key)
        (rows.map (fun row => (Text.utf8 row.1, Text.utf8 row.2.1, row.2.2 + base))) =
      (Table.lookup key rows).map (fun e => (Text.utf8 e.1, e.2 + base)) := by
  induction rows with
  | nil => rfl
  | cons row rest ih =>
      rw [List.map_cons, Table.lookup, Table.lookup, ih]
      by_cases h : key = row.1
      · rw [if_pos h, if_pos (congrArg Text.utf8 h), Option.map_some]
      · rw [if_neg h, if_neg (fun heq => h (Text.utf8_injective heq))]

/-- The rows of the mirror stand in the order of those that it mirrors. -/
theorem Mirrors.eq_encode (h : s.Mirrors base t) :
    s.records.mapValues (fun _ r => (r.value, r.modRevision)) = encode base t := by
  apply Table.ext_get?
  intro bytes
  rw [Table.get?_mapValues]
  by_cases htext : ∃ key, Text.utf8 key = bytes
  · obtain ⟨key, rfl⟩ := htext
    exact (h.seen key).trans (lookup_encoded base key t.rows).symm
  · have hfree : s.records.get? bytes = none :=
      Option.not_isSome_iff_eq_none.mp (fun hbound => htext (h.text bytes hbound))
    rw [hfree, Option.map_none]
    cases hlookup : (encode base t).get? bytes with
    | none => rfl
    | some e =>
        obtain ⟨row, -, hrow⟩ := List.mem_map.mp (Table.get?_eq_some_iff.mp hlookup)
        exact absurd ⟨row.1, congrArg Prod.fst hrow⟩ htext

/-- The records of the mirror are the rows that it mirrors, encoded, in the same order: the
order of texts is that of their bytes. -/
theorem encode_rows (h : s.Mirrors base t) :
    s.records.rows.map (fun row => (row.1, row.2.value, row.2.modRevision)) =
      t.rows.map (fun row => (Text.utf8 row.1, Text.utf8 row.2.1, row.2.2 + base)) :=
  congrArg Table.rows h.eq_encode

theorem toPair?_encoded (key value : String) (revision : Int) :
    Link.toPair? ⟨Text.utf8 key, Text.utf8 value, revision⟩ = some ⟨key, value, revision⟩ := by
  simp only [Link.toPair?, Text.ofUtf8?_utf8, Option.map_some, Option.getD_some]

/-- A client lists of the mirror what the contents list: the same keys with the same values,
in the same order, under versions that are ahead by the base. -/
theorem Mirrors.listing (h : s.Mirrors base t) (scope : Scope) :
    (s.covered scope.key scope.wholePrefix).filterMap Link.toPair? =
      (t.scan scope).map (Pair.ahead base) := by
  let asked (row : Bytes × Bytes × Int) : Bool :=
    if scope.wholePrefix then (Text.utf8 scope.key).isPrefixOf row.1
    else row.1 = Text.utf8 scope.key
  let toKeyValue (row : Bytes × Bytes × Int) : KeyValue := ⟨row.1, row.2.1, row.2.2⟩
  have hcovered : s.covered scope.key scope.wholePrefix =
      ((s.records.rows.map (fun row => (row.1, row.2.value, row.2.modRevision))).filter
        asked).map toKeyValue := by
    rw [List.filter_map, List.map_map]
    rfl
  have hasked (row : String × String × Int) :
      asked (Text.utf8 row.1, Text.utf8 row.2.1, row.2.2 + base) = scope.covers row.1 := by
    simp only [asked, Scope.covers, Text.isPrefixOf_utf8]
    congr 1
    exact decide_eq_decide.mpr ⟨Text.utf8_injective, congrArg Text.utf8⟩
  rw [hcovered, encode_rows h, List.filter_map, List.map_map, List.filterMap_map]
  simp only [Function.comp_def, hasked, toKeyValue, toPair?_encoded]
  rw [List.filterMap_eq_map', Contents.scan, List.map_map]
  rfl

/-- A counter reads the same on both: missing, a number, or no number. -/
theorem Mirrors.count_eq (h : s.Mirrors base t) (key : String) :
    s.count? key = match t.get? key with
      | none => some 0
      | some e => (Decimal.readInt64 e.1).toOption := by
  have hseen := h.seen key
  unfold count?
  cases hrecord : s.record? key with
  | none =>
      rw [Server.seen, hrecord, Option.map_none] at hseen
      rw [Option.map_eq_none_iff.mp hseen.symm]
  | some r =>
      rw [Server.seen, hrecord, Option.map_some] at hseen
      obtain ⟨e, hentry, hshown⟩ := Option.map_eq_some_iff.mp hseen.symm
      have hvalue : Text.utf8 e.1 = r.value := congrArg Prod.fst hshown
      simp only [hentry, ← hvalue, readCount, Text.ofUtf8?_utf8, Option.bind_some]

end Contents

namespace Willing

variable {s : Server}

theorem logged (h : s.Willing) (r : Request) : (s.logged r).Willing :=
  ⟨h.failures, h.contended, h.headerless⟩

theorem put (h : s.Willing) (key value : Bytes) (lease : Int) : (s.put key value lease).Willing :=
  ⟨h.failures, h.contended, h.headerless⟩

theorem delete (h : s.Willing) (key : Bytes) : (s.delete key).Willing := by
  unfold Server.delete
  split
  · exact ⟨h.failures, h.contended, h.headerless⟩
  · exact h

theorem request {α : Type} (h : s.Willing) (r : Request)
    (answer : Server → Except String α × Server) : request r answer s = answer (s.logged r) := by
  simp only [Server.request, note, h.failures]
  rfl

theorem requestGet (h : s.Willing) (key : String) (wholePrefix : Bool) :
    s.requestGet key wholePrefix =
      (.ok ⟨some s.revision, s.covered key wholePrefix⟩, s.logged (.get key wholePrefix)) := by
  have hheader : ¬ 0 < (s.logged (.get key wholePrefix)).headerless := by
    rw [(h.logged _).headerless]
    exact Nat.lt_irrefl 0
  rw [Server.requestGet, h.request]
  simp only [if_neg hheader]
  rfl

/-- A transaction whose guard holds puts its value, without a lease. -/
theorem requestTxn (h : s.Willing) {g : Guard} (hholds : s.holds g = true) (key value : String) :
    s.requestTxn [g] [(key, value)] =
      (.ok true,
        (s.logged (.txn [g] [(key, value)])).put (Text.utf8 key) (Text.utf8 value) 0) := by
  have hlogged : (s.logged (.txn [g] [(key, value)])).holds g = true := by
    cases g <;> exact hholds
  rw [Server.requestTxn, h.request]
  simp only [contend_eq (h.logged _).contended, commit, List.all_cons, List.all_nil, hlogged,
    Bool.and_true, if_true, List.foldl_cons, List.foldl_nil]

end Willing

end Server

namespace Link

variable {l : Link}

theorem set_eq (hopen : l.client.closed = false) (h : l.server.Willing) (key value : String) :
    l.set key value .zero =
      (.ok (), { l with
        server := (l.server.logged (.put key value 0)).put (Text.utf8 key) (Text.utf8 value) 0 })
      := by
  have hzero : Span.zero.isZero = true := rfl
  simp only [set, whenOpen, hopen, Bool.false_eq_true, if_false, putLeased, hzero, if_true, ask,
    Server.requestPut, h.request]
  rfl

/-- A query answers what the server has under its scope, with the revision of the server. -/
theorem get_eq (hopen : l.client.closed = false) (h : l.server.Willing) (scope : Scope) :
    l.get scope =
      (.ok ⟨(l.server.covered scope.key scope.wholePrefix).filterMap toPair?, l.server.revision⟩,
        { l with server := l.server.logged (.get scope.key scope.wholePrefix) }) := by
  simp only [get, whenOpen, hopen, Bool.false_eq_true, if_false, ask, h.requestGet]
  rfl

theorem delete_eq (hopen : l.client.closed = false) (h : l.server.Willing) (key : String) :
    l.delete key =
      (.ok (), { l.cancelKeepers key with
        server := (l.server.logged (.delete key)).delete (Text.utf8 key) }) := by
  have hwilling : (l.cancelKeepers key).server.Willing := h
  simp only [delete, whenOpen, hopen, Bool.false_eq_true, if_false, ask, Server.requestDelete,
    hwilling.request]
  rfl

/-- The guard under which a counter is raised that nobody else writes. -/
def guardOf (s : Server) (key : String) : Guard :=
  match s.record? key with
  | none => .version key 0
  | some r => .modRevision key r.modRevision

theorem holds_guardOf (s : Server) (key : String) : s.holds (guardOf s key) = true := by
  unfold guardOf
  cases hrecord : s.record? key with
  | none => simp only [Server.holds, hrecord, Option.map_none, Option.getD_none, decide_true]
  | some r => simp only [Server.holds, hrecord, Option.map_some, Option.getD_some, decide_true]

/-- A client reads the count with its guard, or finds that the text is no number. -/
theorem readCounter_eq (h : l.server.Willing) (key : String) :
    l.readCounter key =
      (match l.server.count? key with
        | some n => .ok (n, guardOf l.server key)
        | none => .error (.error (.backend "incr" ("counter " ++ key ++ " is not an integer"))),
        { l with server := l.server.logged (.get key false) }) := by
  simp only [readCounter, ask, h.requestGet, andThen, Server.covered_key, Server.count?, guardOf]
  cases l.server.record? key with
  | none => rfl
  | some r =>
      simp only [Option.toList_some, List.map_cons, List.map_nil, Server.readCount]
      cases (Text.ofUtf8? r.value).bind (fun text => (Decimal.readInt64 text).toOption) <;> rfl

theorem raiseCounter_eq (h : l.server.Willing) (key : String) {found : Int × Guard}
    (hholds : l.server.holds found.2 = true) :
    let text := Decimal.showInt (found.1 + 1)
    l.raiseCounter key found =
      if found.1 + 1 < 0x8000000000000000 then
        (.ok (some (found.1 + 1)), { l with
          server := (l.server.logged (.txn [found.2] [(key, text)])).put
            (Text.utf8 key) (Text.utf8 text) 0 })
      else (.error .crash, l) := by
  intro text
  unfold raiseCounter
  split
  · simp only [ask, h.requestTxn hholds]
    rfl
  · rfl

/-- A counter that nobody else writes is raised at the first attempt. -/
theorem increment_eq (hopen : l.client.closed = false) (h : l.server.Willing) (key : String) :
    let read := l.server.logged (.get key false)
    l.increment key =
      match l.server.count? key with
      | none =>
          (.error (.error (.backend "incr" ("counter " ++ key ++ " is not an integer"))),
            { l with server := read })
      | some n =>
          if n + 1 < 0x8000000000000000 then
            let text := Decimal.showInt (n + 1)
            (.ok (n + 1), { l with
              server := (read.logged (.txn [guardOf l.server key] [(key, text)])).put
                (Text.utf8 key) (Text.utf8 text) 0 })
          else (.error .crash, { l with server := read }) := by
  intro read
  have hread : ({ l with server := read } : Link).server.Willing := h.logged _
  have hholds : read.holds (guardOf l.server key) = true := holds_guardOf read key
  rw [increment, whenOpen, if_neg (Bool.eq_false_iff.mp hopen), incrementAttempts,
    incrementWithin, readCounter_eq h]
  cases l.server.count? key with
  | none => rfl
  | some n =>
      have hraise : raiseCounter key (n, guardOf l.server key) { l with server := read } = _ :=
        raiseCounter_eq hread key hholds
      by_cases hfits : n + 1 < 0x8000000000000000
      · simp only [if_pos hfits] at hraise ⊢
        simp only [andThen, read] at hraise ⊢
        rw [hraise]
      · simp only [if_neg hfits] at hraise ⊢
        simp only [andThen, read] at hraise ⊢
        rw [hraise]

/-- A new stream has the next number, and its forwarder starts after the version. -/
theorem watch_eq (hopen : l.client.closed = false) (h : l.server.Willing) (scope : Scope)
    {version : Int} (hfits : version + 1 < 0x8000000000000000) :
    l.watch scope version =
      (.ok l.client.channels.nextId,
        addJob (.forwarder ⟨l.client.channels.nextId, scope, version + 1,
            .following l.server.streams.size⟩)
          ⟨{ l.server.logged (.watch scope.key (version + 1) scope.wholePrefix) with
              streams := l.server.streams.insert l.server.streams.size ⟨[], true⟩ },
            { l.client with channels := (l.client.channels.add scope []).2 }⟩) := by
  simp only [watch, whenOpen, hopen, Bool.false_eq_true, if_false, if_pos hfits,
    Server.requestWatch, h.request]
  rfl

end Link

end Etcd

end Rollcall
