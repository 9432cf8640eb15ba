import Rollcall.Proofs.Etcd.Forwarding

/-!
What a watch stream carries. A source is what a server has done so far: its deeds
in the order of their revisions, and the revision up to which it has compacted
them. A stream offers the matching deeds from a revision on, in responses that
never divide a revision, until it breaks; one that has fallen behind the
compaction says so. Main statements: `toldBy_response`, `span_nextAfter` and
`Feeds.offer`.
-/

namespace Rollcall.Etcd

structure Deed where
  isPut : Bool
  kv : KeyValue
deriving DecidableEq

namespace Deed

def revision (d : Deed) : Int := d.kv.modRevision

def event (d : Deed) : WatchEvent := ⟨d.isPut, some d.kv⟩

def isIn (scope : Scope) (d : Deed) : Bool :=
  if scope.wholePrefix then (Text.utf8 scope.key).isPrefixOf d.kv.key
  else d.kv.key = Text.utf8 scope.key

end Deed

structure Source where
  deeds : List Deed
  revision : Int
  compacted : Int
deriving DecidableEq

/-- The changes from one revision on and before another. -/
def span (first last : Int) (cs : List Change) : List Change :=
  cs.filter (fun c => first ≤ c.version && c.version < last)

/-- Later changes have later versions; those of one version are of different keys. -/
def Ordered (cs : List Change) : Prop :=
  cs.Pairwise (fun a b =>
    a.version < b.version ∨ a.version = b.version ∧ a.pair.key ≠ b.pair.key)

section Span

variable {first middle last : Int} {c : Change} {cs : List Change}

/-- Which changes are in a span depends on their versions alone. -/
theorem mem_span : c ∈ span first last cs ↔ c ∈ cs ∧ first ≤ c.version ∧ c.version < last := by
  simp [span, List.mem_filter]

theorem span_eq_nil (h : ∀ c ∈ cs, first ≤ c.version → last ≤ c.version) :
    span first last cs = [] := by
  apply List.filter_eq_nil_iff.mpr
  intro c member
  have hc := h c member
  simp only [Bool.and_eq_true, decide_eq_true_eq, not_and, Int.not_lt]
  exact hc

theorem span_of_le (h : last ≤ first) (cs : List Change) : span first last cs = [] := by
  apply span_eq_nil
  intro c _ hfirst
  omega

theorem span_of_append (first last : Int) (xs ys : List Change) :
    span first last (xs ++ ys) = span first last xs ++ span first last ys := by
  unfold span
  exact List.filter_append xs ys

/-- In order of their versions, where several changes may share one. -/
theorem Ordered.ascending (h : Ordered cs) : cs.Pairwise (fun a b => a.version ≤ b.version) := by
  apply h.imp
  intro a b hab
  omega

/-- Two changes of one version are of different keys, so none occurs twice. -/
theorem Ordered.nodup (h : Ordered cs) : cs.Nodup := by
  apply h.imp
  rintro a b hab rfl
  rcases hab with hlt | ⟨_, hne⟩
  · omega
  · exact hne rfl

theorem Ordered.span_append (h : Ordered cs) (hfirst : first ≤ middle) (hlast : middle ≤ last) :
    span first middle cs ++ span middle last cs = span first last cs := by
  induction cs with
  | nil => rfl
  | cons c rest ih =>
      have hrest := ih (List.pairwise_cons.mp h).2
      have hlater : ∀ d ∈ rest, c.version ≤ d.version :=
        (List.pairwise_cons.mp h.ascending).1
      rcases Int.lt_or_le c.version middle with hbelow | habove
      · have hright : span middle last (c :: rest) = span middle last rest := by
          apply List.filter_cons_of_neg
          simp only [Bool.and_eq_true, decide_eq_true_eq, not_and]
          omega
        have hsame : (first ≤ c.version && c.version < middle) =
            (first ≤ c.version && c.version < last) := by
          have hlt : c.version < last := by omega
          simp [hbelow, hlt]
        rw [hright]
        unfold span at hrest ⊢
        rw [List.filter_cons, List.filter_cons, hsame]
        split
        · exact congrArg (c :: ·) hrest
        · exact hrest
      · have hnone : span first middle (c :: rest) = [] := by
          apply span_eq_nil
          intro d member _
          rcases List.mem_cons.mp member with rfl | hd
          · exact habove
          · have := hlater d hd
            omega
        rw [hnone, List.nil_append]
        apply List.filter_congr
        intro d member
        have hd : middle ≤ d.version := by
          rcases List.mem_cons.mp member with rfl | hd
          · exact habove
          · have := hlater d hd
            omega
        have hfd : first ≤ d.version := by omega
        simp [hd, hfd]

/-- After a response has been told, nothing is left out up to its end, and the
revision to go on from lies after the last change that it told. -/
theorem Ordered.span_nextAfter (h : Ordered cs) {start : Int} (hstart : start ≤ first)
    (hquiet : span start first cs = []) (hlast : first ≤ last) :
    let next := nextAfter start (span first last cs)
    start ≤ next ∧ next ≤ last ∧ span start next cs = span first last cs ∧
      span next last cs = [] := by
  intro next
  have hwhole := h.span_append hstart hlast
  rw [hquiet, List.nil_append] at hwhole
  cases hend : (span first last cs).getLast? with
  | none =>
      have hempty : span first last cs = [] := List.getLast?_eq_none_iff.mp hend
      have hnext : next = start := by
        simp only [next, nextAfter, hempty, List.getLast?_nil, Option.map_none, Option.getD_none]
      rw [hnext, ← hwhole, hempty]
      exact ⟨Int.le_refl _, by omega, span_of_le (Int.le_refl _) cs, rfl⟩
  | some c =>
      have hnext : next = c.version + 1 := by
        simp only [next, nextAfter, hend, Option.map_some, Option.getD_some]
      obtain ⟨_, hfrom, hto⟩ := mem_span.mp (List.mem_of_getLast? hend)
      have hsplit := h.span_append (show first ≤ next by omega) (show next ≤ last by omega)
      have hrest : span next last cs = [] := by
        cases hmore : (span next last cs).getLast? with
        | none => exact List.getLast?_eq_none_iff.mp hmore
        | some d =>
            obtain ⟨_, hd, _⟩ := mem_span.mp (List.mem_of_getLast? hmore)
            rw [← hsplit, List.getLast?_append, hmore, Option.some_or] at hend
            obtain rfl := Option.some.inj hend
            omega
      have hstarted := h.span_append hstart (show first ≤ next by omega)
      rw [hquiet, List.nil_append] at hstarted
      rw [hrest, List.append_nil] at hsplit
      exact ⟨by omega, by omega, hstarted.symm.trans hsplit, hrest⟩

end Span

namespace Source

def told (s : Source) (scope : Scope) : List Change :=
  toldBy ((s.deeds.filter (fun d => d.isIn scope)).map Deed.event)

/-- The matching deeds from one revision on and before another. -/
def response (s : Source) (scope : Scope) (first last : Int) : WatchResponse :=
  ⟨0, false, (s.deeds.filter (fun d =>
    d.isIn scope && (first ≤ d.revision && d.revision < last))).map Deed.event⟩

def write (s : Source) (deeds : List Deed) : Source :=
  { s with deeds := s.deeds ++ deeds, revision := s.revision + 1 }

structure Valid (s : Source) : Prop where
  ordered : s.deeds.Pairwise (fun a b =>
    a.revision < b.revision ∨ a.revision = b.revision ∧ a.kv.key ≠ b.kv.key)
  bounded : ∀ d ∈ s.deeds, d.revision ≤ s.revision
  compacted_le : s.compacted ≤ s.revision

end Source

theorem change?_version {d : Deed} {c : Change} (h : d.event.change? = some c) :
    c.version = d.revision := by
  simp only [WatchEvent.change?, Deed.event, Option.bind_some, Link.toPair?, Option.map_map,
    Option.map_eq_some_iff] at h
  obtain ⟨key, _, rfl⟩ := h
  rfl

theorem ofUtf8?_injective {xs ys : Bytes} {s : String} (hx : Text.ofUtf8? xs = some s)
    (hy : Text.ofUtf8? ys = some s) : xs = ys := by
  have hbytes {zs : Bytes} (h : Text.ofUtf8? zs = some s) : zs.toByteArray = s.toByteArray := by
    unfold Text.ofUtf8? String.fromUTF8? at h
    split at h
    · exact congrArg String.toByteArray (Option.some.inj h)
    · cases h
  exact List.toByteArray_inj.mp ((hbytes hx).trans (hbytes hy).symm)

theorem change?_key_ne {d d' : Deed} {c c' : Change} (h : d.event.change? = some c)
    (h' : d'.event.change? = some c') (hne : d.kv.key ≠ d'.kv.key) :
    c.pair.key ≠ c'.pair.key := by
  simp only [WatchEvent.change?, Deed.event, Option.bind_some, Link.toPair?, Option.map_map,
    Option.map_eq_some_iff] at h h'
  obtain ⟨key, hkey, rfl⟩ := h
  obtain ⟨key', hkey', rfl⟩ := h'
  intro heq
  obtain rfl : key = key' := heq
  exact hne (ofUtf8?_injective hkey hkey')

namespace Source

variable {s : Source} {scope : Scope}

/-- A response tells exactly the changes of its span, those of the matching deeds between
the two revisions whose keys and values are text. -/
theorem toldBy_response (s : Source) (scope : Scope) (first last : Int) :
    toldBy (s.response scope first last).events = span first last (s.told scope) := by
  unfold told response
  induction s.deeds with
  | nil => rfl
  | cons d rest ih =>
      cases hin : d.isIn scope with
      | false => simpa [hin] using ih
      | true =>
          cases hchange : d.event.change? with
          | none =>
              cases hspan : first ≤ d.revision && d.revision < last <;>
                simpa [hin, hspan, toldBy, hchange] using ih
          | some c =>
              have hversion := change?_version hchange
              cases hspan : first ≤ d.revision && d.revision < last <;>
                simpa [hin, hspan, toldBy, hchange, span, hversion] using ih

/-- A write adds to what a receiver ought to be told the changes of the keys that it
watches, if those are text. -/
theorem told_write (s : Source) (deeds : List Deed) (scope : Scope) :
    (s.write deeds).told scope =
      s.told scope ++ toldBy ((deeds.filter (fun d => d.isIn scope)).map Deed.event) := by
  simp [told, write, toldBy]

theorem mem_toldBy {deeds : List Deed} {c : Change} (h : c ∈ toldBy (deeds.map Deed.event)) :
    ∃ d ∈ deeds, d.event.change? = some c := by
  obtain ⟨e, he, hc⟩ := List.mem_filterMap.mp h
  obtain ⟨d, hd, rfl⟩ := List.mem_map.mp he
  exact ⟨d, hd, hc⟩

theorem Valid.told_ordered (h : s.Valid) (scope : Scope) : Ordered (s.told scope) := by
  unfold Ordered told toldBy
  rw [List.pairwise_filterMap, List.pairwise_map]
  apply (h.ordered.filter _).imp
  intro d d' hd c hc c' hc'
  rw [change?_version hc, change?_version hc']
  rcases hd with hlt | ⟨heq, hne⟩
  · exact .inl hlt
  · exact .inr ⟨heq, change?_key_ne hc hc' hne⟩

/-- A write raises the revision by one; with each key once the server stays valid. -/
theorem Valid.write (h : s.Valid) {deeds : List Deed}
    (hrevision : ∀ d ∈ deeds, d.revision = s.revision + 1)
    (hkeys : deeds.Pairwise (fun a b => a.kv.key ≠ b.kv.key)) : (s.write deeds).Valid where
  ordered := by
    refine List.pairwise_append.mpr ⟨h.ordered, ?_, ?_⟩
    · apply hkeys.imp_of_mem
      intro a b ha hb hne
      exact .inr ⟨(hrevision a ha).trans (hrevision b hb).symm, hne⟩
    · intro a ha b hb
      have hbefore := h.bounded a ha
      have hafter := hrevision b hb
      left
      omega
  bounded := by
    intro d hd
    simp only [Source.write]
    rcases List.mem_append.mp hd with hbefore | hafter
    · have := h.bounded d hbefore
      omega
    · have := hrevision d hafter
      omega
  compacted_le := by
    have := h.compacted_le
    simp only [Source.write]
    omega

theorem Valid.compact (h : s.Valid) {revision : Int} (hrevision : revision ≤ s.revision) :
    ({ s with compacted := revision } : Source).Valid :=
  ⟨h.ordered, h.bounded, hrevision⟩

/-- A later write adds to no span that has ended. What a stream has brought stays complete
up to the revision that it has reached. -/
theorem span_told_write {deeds : List Deed} (hrevision : ∀ d ∈ deeds, d.revision = s.revision + 1)
    {first last : Int} (hlast : last ≤ s.revision + 1) :
    span first last ((s.write deeds).told scope) = span first last (s.told scope) := by
  have hnew : span first last
      (toldBy ((deeds.filter (fun d => d.isIn scope)).map Deed.event)) = [] := by
    apply span_eq_nil
    intro c member _
    obtain ⟨d, hd, hc⟩ := mem_toldBy member
    have hversion := change?_version hc
    have hd' := hrevision d (List.mem_filter.mp hd).1
    omega
  rw [told_write, span_of_append, hnew, List.append_nil]

/-- What a stream brings up to the revision that was reached is the same whatever is written
later. -/
theorem response_write {deeds : List Deed} (hrevision : ∀ d ∈ deeds, d.revision = s.revision + 1)
    {first last : Int} (hlast : last ≤ s.revision + 1) :
    (s.write deeds).response scope first last = s.response scope first last := by
  have hnew : deeds.filter (fun d =>
      d.isIn scope && (first ≤ d.revision && d.revision < last)) = [] := by
    apply List.filter_eq_nil_iff.mpr
    intro d hd
    have hd' := hrevision d hd
    have hnot : ¬ d.revision < last := by omega
    simp [hnot]
  simp only [response, write, List.filter_append, hnew, List.append_nil]

end Source

/-- What a stream that has reached a revision may bring next, and what it has
reached then. -/
inductive Offer (s : Source) (scope : Scope) (cursor : Int) : Message → Int → Prop where
  | data {next : Int} (hnext : cursor ≤ next) (hdone : next ≤ s.revision + 1) :
      Offer s scope cursor (.response (s.response scope cursor next)) next
  | compacted (canceled : Bool) (events : List WatchEvent) (h : cursor < s.compacted) :
      Offer s scope cursor (.response ⟨s.compacted, canceled, events⟩) cursor
  | canceled (events : List WatchEvent) : Offer s scope cursor (.response ⟨0, true, events⟩) cursor
  | failure (text : String) : Offer s scope cursor (.failure text) cursor
  | ended : Offer s scope cursor .ended cursor

/-- A message after which a stream is opened again. -/
def Breaks (s : Source) (start : Int) : Message → Prop
  | .response r =>
      r.compactRevision = 0 ∧ r.canceled = true ∨
        start < r.compactRevision ∧ r.compactRevision ≤ s.compacted
  | .failure _ | .ended => True

/-- A stream that has to be opened again has to be so after a later compaction too. -/
theorem Breaks.mono {s t : Source} {start : Int} {m : Message} (h : Breaks s start m)
    (hcompacted : s.compacted ≤ t.compacted) : Breaks t start m := by
  cases m with
  | response r =>
      rcases h with hcanceled | ⟨hlost, hr⟩
      · exact .inl hcanceled
      · exact .inr ⟨hlost, Int.le_trans hr hcompacted⟩
  | failure text => trivial
  | ended => trivial

/-- Messages that carry on from one revision to another, unless one of them
breaks the stream. -/
inductive Feeds (s : Source) (scope : Scope) : Int → List Message → Int → Prop where
  | idle (start : Int) : Feeds s scope start [] start
  | data {start next cursor : Int} {rest : List Message} (hnext : start ≤ next)
      (hdone : next ≤ s.revision + 1) (hrest : Feeds s scope next rest cursor) :
      Feeds s scope start (.response (s.response scope start next) :: rest) cursor
  | broken {start cursor : Int} {m : Message} {rest : List Message} (h : Breaks s start m) :
      Feeds s scope start (m :: rest) cursor

namespace Feeds

variable {s : Source} {scope : Scope} {start cursor next : Int} {messages : List Message}

theorem offer (h : Feeds s scope start messages cursor) {m : Message}
    (hm : Offer s scope cursor m next) : Feeds s scope start (messages ++ [m]) next := by
  induction h with
  | idle start =>
      cases hm with
      | data hnext hdone => exact .data hnext hdone (.idle next)
      | compacted canceled events hlost => exact .broken (.inr ⟨hlost, Int.le_refl _⟩)
      | canceled events => exact .broken (.inl ⟨rfl, rfl⟩)
      | failure text => exact .broken trivial
      | ended => exact .broken trivial
  | data hnext hdone _ ih => exact .data hnext hdone (ih hm)
  | broken h => exact .broken h

/-- What is on a stream still carries on between the same revisions after a write. -/
theorem write (h : Feeds s scope start messages cursor) {deeds : List Deed}
    (hrevision : ∀ d ∈ deeds, d.revision = s.revision + 1) :
    Feeds (s.write deeds) scope start messages cursor := by
  induction h with
  | idle start => exact .idle start
  | data hnext hdone _ ih =>
      rw [← Source.response_write hrevision hdone]
      refine .data hnext ?_ ih
      simp only [Source.write]
      omega
  | broken h => exact .broken (Breaks.mono h (Int.le_refl _))

theorem compact (h : Feeds s scope start messages cursor) {revision : Int}
    (hrevision : s.compacted ≤ revision) :
    Feeds { s with compacted := revision } scope start messages cursor := by
  induction h with
  | idle start => exact .idle start
  | data hnext hdone _ ih => exact .data hnext hdone ih
  | broken h => exact .broken (Breaks.mono h hrevision)

end Feeds

end Rollcall.Etcd
