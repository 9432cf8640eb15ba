import Rollcall.Proofs.Etcd.Leases
import Rollcall.Proofs.Text

/-!
A counter on a server: the count that a key holds, and the guard under which a
client may raise it. A guard is good for the count that was read with it: for as
long as the revisions of a key grow, it holds only while the key is as it was
read. Main statements: `readCounter_spec` and `raiseCounter_spec`.
-/

namespace Rollcall.Etcd

namespace Server

def readCount (value : Bytes) : Option Int :=
  (Text.ofUtf8? value).bind (fun text => (Decimal.readInt64 text).toOption)

/-- The count that a key holds; a missing key holds zero. -/
def count? (s : Server) (key : String) : Option Int :=
  match s.record? key with
  | none => some 0
  | some r => readCount r.value

/-- The same records and leases, and no rival in wait. -/
structure Still (s s' : Server) : Prop where
  agrees : Agrees s s'
  contended : s'.contended = s.contended

structure Spares (key : String) (s s' : Server) : Prop where
  record : s'.record? key = s.record? key
  revision : s.revision ≤ s'.revision
  contended : s'.contended = s.contended

/-- A key that holds a count, and that only those who raise it write. -/
structure Counter (key : String) (s : Server) (n : Int) : Prop where
  unrivalled : s.contended = 0
  nonneg : 0 ≤ s.revision
  count : s.count? key = some n
  numbered : ∀ r, s.record? key = some r →
    0 < r.modRevision ∧ r.modRevision ≤ s.revision ∧ 0 < r.version

/-- A guard that holds only while the key holds the count. -/
def Guards (key : String) (s : Server) (n : Int) : Guard → Prop
  | .modRevision k v =>
      k = key ∧ 0 < v ∧ v ≤ s.revision ∧
        ∀ r, s.record? key = some r → r.modRevision = v → readCount r.value = some n
  | .version k v => k = key ∧ v = 0 ∧ n = 0

section

variable {key : String} {s s' m : Server} {n : Int} {g : Guard}

theorem Still.spares (h : Still s s') : Spares key s s' where
  record := by rw [record?, record?, h.agrees.records]
  revision := Int.le_of_eq h.agrees.revision.symm
  contended := h.contended

theorem note_still (s : Server) (r : Request) : Still s (s.note r).2 := by
  unfold note
  simp only
  split <;> exact ⟨⟨rfl, rfl, rfl, rfl⟩, rfl⟩

theorem request_split {α : Type} (r : Request) (answer : Server → Except String α × Server)
    (s : Server) :
    (∃ text, request r answer s = (.error text, (s.note r).2)) ∨
      request r answer s = answer (s.note r).2 := by
  unfold request
  rcases s.note r with ⟨text | _, noted⟩
  · exact .inr rfl
  · exact .inl ⟨_, rfl⟩

theorem covered_key (s : Server) (key : String) :
    s.covered key false =
      (s.record? key).toList.map (fun r => ⟨Text.utf8 key, r.value, r.modRevision⟩) := by
  have hrows := congrArg Table.rows (Table.filter_key_eq s.records (Text.utf8 key))
  simp only [Table.filter] at hrows
  simp only [covered, Bool.false_eq_true, if_false, record?, hrows]
  cases s.records.get? (Text.utf8 key) <;> rfl

/-- A query changes nothing, and answers what stands under the key, or fails. Its header may
be missing. -/
theorem requestGet_spec (key : String) (s : Server) : ∃ s', Still s s' ∧
    ((∃ text, s.requestGet key false = (.error text, s')) ∨
      ∃ revision, s.requestGet key false = (.ok ⟨revision, s.covered key false⟩, s')) := by
  have hnoted := note_still s (.get key false)
  unfold requestGet
  rcases request_split (.get key false) _ s with ⟨text, hanswer⟩ | hanswer
  · exact ⟨_, hnoted, .inl ⟨text, hanswer⟩⟩
  · rw [hanswer]
    generalize (s.note (.get key false)).2 = m at hnoted
    have hcovered : m.covered key false = s.covered key false := by
      simp only [covered, hnoted.agrees.records]
    obtain ⟨hrevision, hrecords, hleases, hnext⟩ := hnoted.agrees
    simp only [hcovered]
    by_cases hheader : 0 < m.headerless
    · rw [if_pos hheader]
      exact ⟨{ m with headerless := m.headerless - 1 },
        ⟨⟨hrevision, hrecords, hleases, hnext⟩, hnoted.contended⟩, .inr ⟨none, rfl⟩⟩
    · rw [if_neg hheader]
      exact ⟨_, hnoted, .inr ⟨_, rfl⟩⟩

theorem contend_eq (h : s.contended = 0) (guards : List Guard) : s.contend guards = s := by
  unfold contend
  split
  · rename_i hrivals
    rw [h] at hrivals
    cases hrivals
  · rfl

/-- A transaction with one guard and one put fails and changes nothing, or finds the guard
broken and changes nothing, or puts. -/
theorem requestTxn_spec (h : s.contended = 0) (g : Guard) (key value : String) :
    ∃ m, Still s m ∧
      ((∃ text, s.requestTxn [g] [(key, value)] = (.error text, m)) ∨
        s.holds g = false ∧ s.requestTxn [g] [(key, value)] = (.ok false, m) ∨
        s.holds g = true ∧ s.requestTxn [g] [(key, value)] =
          (.ok true, m.put (Text.utf8 key) (Text.utf8 value) 0)) := by
  have hnoted := note_still s (.txn [g] [(key, value)])
  refine ⟨_, hnoted, ?_⟩
  unfold requestTxn
  rcases request_split (.txn [g] [(key, value)]) _ s with ⟨text, hanswer⟩ | hanswer
  · exact .inl ⟨text, hanswer⟩
  · right
    rw [hanswer]
    generalize (s.note (.txn [g] [(key, value)])).2 = m at hnoted
    have hholds : m.holds g = s.holds g := by
      cases g <;> unfold holds record? <;> rw [hnoted.agrees.records]
    rw [contend_eq (hnoted.contended.trans h)]
    simp only [commit, List.all_cons, List.all_nil, Bool.and_true, hholds, List.foldl_cons,
      List.foldl_nil]
    cases s.holds g with
    | false => exact .inl ⟨rfl, rfl⟩
    | true => exact .inr ⟨rfl, rfl⟩

theorem Spares.count_eq (h : Spares key s s') : s'.count? key = s.count? key := by
  rw [count?, count?, h.record]

theorem Spares.counter (h : Spares key s s') (hs : s.Counter key n) : s'.Counter key n where
  unrivalled := h.contended.trans hs.unrivalled
  nonneg := Int.le_trans hs.nonneg h.revision
  count := h.count_eq.trans hs.count
  numbered := by
    intro r hr
    have := hs.numbered r (h.record ▸ hr)
    have := h.revision
    omega

/-- A guard that was read before such a change means the same after it. -/
theorem Spares.guards (h : Spares key s s') (hg : s.Guards key n g) : s'.Guards key n g := by
  cases g with
  | version k v => exact hg
  | modRevision k v =>
      obtain ⟨hk, hpositive, hv, hcount⟩ := hg
      refine ⟨hk, hpositive, Int.le_trans hv h.revision, ?_⟩
      rw [h.record]
      exact hcount

/-- A put under the key leaves no guard that was read before to hold. -/
theorem Guards.put (hg : s.Guards key n g) (value : Bytes) (lease : Int) :
    (s.put (Text.utf8 key) value lease).Guards key n g := by
  cases g with
  | version k v => exact hg
  | modRevision k v =>
      obtain ⟨hk, hpositive, hv, -⟩ := hg
      refine ⟨hk, hpositive, by simp only [Server.put]; omega, ?_⟩
      intro r hr heq
      simp only [record?, Server.put, Table.get?_insert, if_true, Option.some.injEq] at hr
      subst hr
      simp only at heq
      omega

/-- If a guard holds when the transaction comes, the count is still the one that was read
with it. So no increment of another is lost in between. -/
theorem Guards.count_of_holds (hg : s.Guards key n g) (hs : ∃ n, s.Counter key n)
    (hholds : s.holds g = true) : s.count? key = some n := by
  obtain ⟨_, hs⟩ := hs
  cases g with
  | modRevision k v =>
      obtain ⟨rfl, hpositive, -, hcount⟩ := hg
      simp only [holds, decide_eq_true_eq] at hholds
      cases hrecord : s.record? k with
      | none =>
          simp only [hrecord, Option.map_none, Option.getD_none] at hholds
          omega
      | some r =>
          simp only [hrecord, Option.map_some, Option.getD_some] at hholds
          rw [count?, hrecord]
          exact hcount r hrecord hholds
  | version k v =>
      obtain ⟨rfl, rfl, rfl⟩ := hg
      simp only [holds, decide_eq_true_eq] at hholds
      cases hrecord : s.record? k with
      | none => rw [count?, hrecord]
      | some r =>
          have := (hs.numbered r hrecord).2.2
          simp only [hrecord, Option.map_some, Option.getD_some] at hholds
          omega

theorem readCount_showInt (hlow : -(Decimal.int64Limit : Int) ≤ n)
    (hhigh : n < Decimal.int64Limit) :
    readCount (Text.utf8 (Decimal.showInt n)) = some n := by
  rw [readCount, Text.ofUtf8?_utf8, Option.bind_some, Decimal.readInt64_showInt hlow hhigh]
  rfl

theorem readCount_bounds {value : Bytes} (h : readCount value = some n) :
    -(Decimal.int64Limit : Int) ≤ n ∧ n < Decimal.int64Limit := by
  obtain ⟨text, -, hread⟩ := Option.bind_eq_some_iff.mp h
  cases hn : Decimal.readInt64 text with
  | error fault =>
      rw [hn] at hread
      cases hread
  | ok m =>
      rw [hn] at hread
      obtain rfl := Option.some.inj hread
      exact Decimal.readInt64_bounds hn

theorem Counter.lower (hs : s.Counter key n) : -(Decimal.int64Limit : Int) ≤ n := by
  have hcount := hs.count
  unfold count? at hcount
  split at hcount
  · obtain rfl := Option.some.inj hcount
    decide
  · exact (readCount_bounds hcount).1

theorem Counter.put (hs : s.Counter key n) (hnext : n + 1 < Decimal.int64Limit) :
    (s.put (Text.utf8 key) (Text.utf8 (Decimal.showInt (n + 1))) 0).Counter key (n + 1) where
  unrivalled := hs.unrivalled
  nonneg := by
    have := hs.nonneg
    simp only [Server.put]
    omega
  count := by
    have hlow := hs.lower
    rw [count?, record?]
    simp only [Server.put, Table.get?_insert, if_true]
    exact readCount_showInt (by omega) hnext
  numbered := by
    intro r hr
    simp only [record?, Server.put, Table.get?_insert, if_true, Option.some.injEq] at hr ⊢
    subst hr
    have := hs.nonneg
    cases hrecord : s.records.get? (Text.utf8 key) with
    | none => simp only [Option.map_none, Option.getD_none]; omega
    | some r =>
        have := hs.numbered r hrecord
        simp only [Option.map_some, Option.getD_some]
        omega

end

end Server

namespace Link

variable {key : String} {l : Link} {n : Int}

/-- A client that reads a counter finds the count with a guard for it, or fails. -/
theorem readCounter_spec (key : String) (h : l.server.Counter key n) : ∃ s answer,
    l.server.Still s ∧ l.readCounter key = (answer, { l with server := s }) ∧
      ∀ found, answer = .ok found → l.server.Guards key found.1 found.2 := by
  obtain ⟨s, hs, ⟨text, hanswer⟩ | ⟨revision, hanswer⟩⟩ := l.server.requestGet_spec key
  · refine ⟨s, _, hs, by simp only [readCounter, ask, hanswer]; rfl, ?_⟩
    intro found hfound
    cases hfound
  · have hcount := h.count
    rw [Server.count?] at hcount
    cases hrecord : l.server.record? key with
    | none =>
        refine ⟨s, .ok (0, .version key 0), hs, ?_, ?_⟩
        · simp only [readCounter, ask, hanswer, andThen, Server.covered_key, hrecord]
          rfl
        · intro found hfound
          obtain rfl := Except.ok.inj hfound
          exact ⟨rfl, rfl, rfl⟩
    | some r =>
        rw [hrecord] at hcount
        simp only [Server.readCount] at hcount
        refine ⟨s, .ok (n, .modRevision key r.modRevision), hs, ?_, ?_⟩
        · simp only [readCounter, ask, hanswer, andThen, Server.covered_key, hrecord,
            Option.toList_some, List.map_cons, hcount]
        · intro found hfound
          obtain rfl := Except.ok.inj hfound
          have hnumbered := h.numbered r hrecord
          refine ⟨rfl, hnumbered.1, hnumbered.2.1, ?_⟩
          intro r' hr' _
          obtain rfl := Option.some.inj (hrecord.symm.trans hr')
          exact hcount

/-- A client that raises a count writes the next one over it, or nothing. -/
theorem raiseCounter_spec {found : Int × Guard} (h : l.server.Counter key n)
    (hfound : l.server.Guards key found.1 found.2) :
    (∃ s answer, l.server.Still s ∧ l.raiseCounter key found = (answer, { l with server := s }) ∧
      ∀ m, answer ≠ .ok (some m)) ∨
    found.1 = n ∧ n + 1 < Decimal.int64Limit ∧ ∃ s, l.server.Still s ∧
      l.raiseCounter key found = (.ok (some (n + 1)),
        { l with server := s.put (Text.utf8 key) (Text.utf8 (Decimal.showInt (n + 1))) 0 }) := by
  obtain ⟨m, g⟩ := found
  by_cases hnext : m + 1 < 0x8000000000000000
  · obtain ⟨s, hs, ⟨text, hanswer⟩ | ⟨-, hanswer⟩ | ⟨hholds, hanswer⟩⟩ :=
      Server.requestTxn_spec h.unrivalled g key (Decimal.showInt (m + 1))
    · left
      refine ⟨s, _, hs, by simp only [raiseCounter, hnext, if_true, ask, hanswer]; rfl, ?_⟩
      intro m' hm'
      cases hm'
    · left
      refine ⟨s, .ok none, hs, by simp only [raiseCounter, hnext, if_true, ask, hanswer]; rfl, ?_⟩
      intro m' hm'
      cases hm'
    · right
      have hcount := hfound.count_of_holds ⟨n, h⟩ hholds
      obtain rfl := Option.some.inj (hcount.symm.trans h.count)
      refine ⟨rfl, hnext, s, hs, ?_⟩
      simp only [raiseCounter, hnext, if_true, ask, hanswer]
      rfl
  · left
    refine ⟨l.server, .error .crash, ⟨.refl _, rfl⟩, ?_, ?_⟩
    · simp only [raiseCounter, hnext, if_false]
    · intro m' hm'
      cases hm'

end Link

end Rollcall.Etcd
