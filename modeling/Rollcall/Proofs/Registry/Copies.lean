import Rollcall.Proofs.Memory.Lapsing
import Rollcall.Proofs.Registry.Lasting
import Rollcall.Proofs.Registry.Numbering

/-!
A registration makes two copies of its node, one for the registry and one, as text, for
the backend in memory. They are the same node but for the time to live, of which the
text keeps the whole milliseconds (`copies_differ`). Where a call fails with an error, at
either half, it leaves nothing behind. Main statement: `copies_agree`.
-/

namespace Rollcall

namespace Memory

variable {m m' : Memory} {now t : Instant} {key value : String} {ttl : Span}

theorem exec_increment (m : Memory) (now : Instant) (key : String) :
    ((backend now).increment key).exec m = m.increment key := rfl

theorem exec_keepAlive (m : Memory) (now : Instant) (key value : String) (ttl : Span) :
    ((backend now).keepAlive key value ttl).exec m = m.keepAlive now key value ttl := rfl

theorem keepAlive_eq (m : Memory) (now : Instant) (key value : String) (ttl : Span) :
    m.keepAlive now key value ttl =
      if m.closed then (.error (.error .closed), m)
      else
        match deadline? now ttl with
        | .error f => (.error f, { m with store := m.store.expire now })
        | .ok deadline => (.ok (), m.renewing now key value ttl deadline) := by
  obtain ⟨store, closed, jobs⟩ := m
  unfold keepAlive set
  cases closed with
  | true => rfl
  | false => cases deadline? now ttl <;> rfl

/-- The one error of a renewal is that the backend is closed, and then nothing is done. -/
theorem keepAlive_error {e : Error}
    (h : m.keepAlive now key value ttl = (.error (.error e), m')) :
    m.closed = true ∧ m' = m := by
  rw [keepAlive_eq] at h
  split at h
  · rename_i hclosed
    exact ⟨hclosed, (Prod.mk.inj h).2.symm⟩
  · split at h
    · rename_i hdeadline
      obtain rfl := deadline?_error hdeadline
      cases h
    · cases h

/-- A registration of a key that succeeds, for a time that is not zero, has found the
backend open and room in the clock, and leaves the key with that deadline and a renewal for
it. -/
theorem keepAlive_ok (h : m.keepAlive now key value ttl = (.ok (), m'))
    (hpositive : ttl.isZero = false) :
    m.closed = false ∧ m' = m.renewing now key value ttl (some (now.after ttl)) := by
  rw [keepAlive_eq] at h
  split at h
  · cases h
  · rename_i hopen
    split at h
    · cases h
    · rename_i deadline hdeadline
      rw [← deadline?_positive hdeadline hpositive]
      exact ⟨Bool.eq_false_iff.mpr hopen, (Prod.mk.inj h).2.symm⟩

/-- What is renewed is listed until its deadline, as one pair under its own key. -/
theorem get_renewing {deadline : Instant} (hopen : m.closed = false) (hlive : t < deadline) :
    ∃ revision, ((m.renewing now key value ttl (some deadline)).get t ⟨key, false⟩).1 =
      .ok ⟨[⟨key, value, (m.store.expire now).revision + 1⟩], revision⟩ := by
  have hentry : (((m.store.expire now).put key value (some deadline)).expire t).entries.get? key =
      some ⟨value, (m.store.expire now).revision + 1, some deadline⟩ := by
    have hnot : ¬ deadline ≤ t := Nat.not_le.mpr hlive
    rw [Store.get?_expire, Store.get?_put, if_pos rfl]
    simp [Entry.isOverdue, hnot]
  refine ⟨(((m.store.expire now).put key value (some deadline)).expire t).revision, ?_⟩
  simp only [get, renewing, hopen, Bool.false_eq_true, if_false, Store.scan, hentry]
  rfl

end Memory

namespace Registry

section

variable (r : Registry) (component address : String) (options : RegisterOptions) (id : Int)

theorem uniqueId_nodeFor : (r.nodeFor component address options id).uniqueId = id :=
  Node.uniqueId_withSubServices _ _

theorem ttl_nodeFor :
    (r.nodeFor component address options id).ttl = options.ttl.getD r.defaultTtl :=
  Node.ttl_withSubServices _ _

end

/-- The two copies of a node that was registered at `now`: the one that the registry keeps,
and the one that is read as long as the backend shows its key. They are one node but for
the time to live, of which the second has the whole milliseconds. -/
structure Copies (r : Registry) (m : Memory) (now : Instant) (node found : Node) : Prop where
  kept : r.node? node.service = some node
  lives : now < now.after node.ttl
  stored : ∃ value version, Node.decode value = .ok found ∧
    ∀ t < now.after node.ttl, ∃ revision,
      (m.get t ⟨node.key, false⟩).1 = .ok ⟨[⟨node.key, value, version⟩], revision⟩
  same : found = { node with ttl := found.ttl }
  millis : node.ttl.millis < 0x10000000000000000 → found.ttl = .ofMillis node.ttl.millis
  whole : (∃ k < 0x10000000000000000, node.ttl = .ofMillis k) → found = node

section

variable {r r' : Registry} {m m' : Memory} {now : Instant} {component address : String}
  {options : RegisterOptions} {id : Int}

theorem copies_written {node : Node} (hkept : r.node? node.service = some node)
    (hid : node.HasId64) (hpositive : node.ttl.isZero = false) (hopen : m.closed = false) :
    Copies r (m.renewing now node.key node.encode node.ttl (some (now.after node.ttl))) now node
      node.written where
  kept := hkept
  lives := by
    have hnonzero : node.ttl.nanos ≠ 0 := of_decide_eq_false hpositive
    exact Nat.lt_add_of_pos_right (Nat.pos_of_ne_zero hnonzero)
  stored := ⟨node.encode, _, Node.decode_encode hid, fun t ht => Memory.get_renewing hopen ht⟩
  same := rfl
  millis := fun hfits => congrArg Span.ofMillis (Nat.mod_eq_of_lt hfits)
  whole := Node.written_eq_self_iff.mpr

/-- A registration that takes no id changes nothing, one that takes an id its counter. -/
theorem claim_cases (r : Registry) (m : Memory) (now : Instant) (component : String)
    (options : RegisterOptions) :
    (∃ failure, r.claim (Memory.backend now) component options m = (.error failure, m)) ∨
      ∃ n, (options.isolate = false → (options.ttl.getD r.defaultTtl).isZero = false) ∧
        (-0x8000000000000000 ≤ n ∧ n < 0x8000000000000000) ∧ m.closed = false ∧
        r.claim (Memory.backend now) component options m =
          (.ok n, { m with
            store := m.store.put (Key.nodeId component) (Decimal.showInt n) none }) := by
  unfold claim
  split
  · exact .inl ⟨_, rfl⟩
  · rename_i hadmitted
    rw [Memory.exec_increment]
    rcases m.increment_cases (Key.nodeId component) with
      ⟨-, hfailed⟩ | ⟨hopen, ⟨_, -, hfailed⟩ | ⟨-, hfailed⟩ | ⟨n, -, hlow, hnext, hcounted⟩⟩
    · exact .inl ⟨_, hfailed⟩
    · exact .inl ⟨_, hfailed⟩
    · exact .inl ⟨_, hfailed⟩
    · refine .inr ⟨n + 1, ?_, ⟨by omega, hnext⟩, hopen, hcounted⟩
      intro hpublishes
      simpa [hpublishes] using hadmitted

/-- A first half that succeeds has checked the time to live of what is to be published, has
an id of 64 bits, and has touched no key of a node. -/
theorem claim_ok (h : r.claim (Memory.backend now) component options m = (.ok id, m')) :
    (options.isolate = false → (options.ttl.getD r.defaultTtl).isZero = false) ∧
      (-0x8000000000000000 ≤ id ∧ id < 0x8000000000000000) ∧ m'.closed = false ∧
      ∀ key, Key.startsWith Key.serviceRoot key = true →
        m'.store.entries.get? key = m.store.entries.get? key := by
  rcases r.claim_cases m now component options with
    ⟨failure, hfailed⟩ | ⟨n, hlives, hn, hopen, hcounted⟩
  · rw [hfailed] at h
    cases h
  · obtain ⟨hid, rfl⟩ := Prod.mk.inj (hcounted.symm.trans h)
    obtain rfl := Except.ok.inj hid
    refine ⟨hlives, hn, hopen, ?_⟩
    intro key hkey
    have hother : key ≠ Key.nodeId component := by
      rintro rfl
      cases (Key.startsWith_root_nodeId component).symm.trans hkey
    rw [Store.get?_put, if_neg hother]

/-- A second half that fails with an error has found the backend closed and has done
nothing. -/
theorem announce_error {e : Error}
    (h : r.announce (Memory.backend now) component address options id m =
      (.error (.error e), r', m')) : m.closed = true ∧ r' = r ∧ m' = m := by
  simp only [announce, Memory.exec_keepAlive] at h
  split at h
  · rename_i hrefused
    obtain ⟨hanswer, hleft⟩ := Prod.mk.inj h
    obtain rfl := Except.error.inj hanswer
    obtain ⟨rfl, rfl⟩ := Prod.mk.inj hleft
    obtain ⟨hclosed, hsame⟩ := Memory.keepAlive_error hrefused
    exact ⟨hclosed, rfl, hsame⟩
  · cases h

/-- A second half that succeeds answers with the id that it was given, and leaves the two
copies of its node. -/
theorem announce_ok {n : Int}
    (h : r.announce (Memory.backend now) component address options id m = (.ok n, r', m'))
    (hpositive : (options.ttl.getD r.defaultTtl).isZero = false)
    (hid : -0x8000000000000000 ≤ id ∧ id < 0x8000000000000000) :
    n = id ∧ Copies r' m' now (r.nodeFor component address options id)
      (r.nodeFor component address options id).written := by
  simp only [announce, Memory.exec_keepAlive] at h
  split at h
  · cases h
  · rename_i hkept
    obtain ⟨hanswer, hleft⟩ := Prod.mk.inj h
    obtain ⟨rfl, rfl⟩ := Prod.mk.inj hleft
    obtain ⟨hopen, rfl⟩ := Memory.keepAlive_ok hkept hpositive
    rw [← ttl_nodeFor r component address options id] at hpositive ⊢
    rw [← key_nodeFor r component address options id]
    refine ⟨(Except.ok.inj hanswer).symm, copies_written ?_ ?_ hpositive hopen⟩
    · rw [service_nodeFor, node?, Table.get?_insert, if_pos rfl]
    · rw [Node.HasId64, uniqueId_nodeFor]
      exact hid

/-- An open backend answers a registration whose counter and clock have room for it. -/
theorem register_answers {n : Int} (hpublishes : options.isolate = false)
    (hopen : m.closed = false) (hpositive : (options.ttl.getD r.defaultTtl).isZero = false)
    (hcount : Memory.counter m.store (Key.nodeId component) = .ok n)
    (hroom : n + 1 < 0x8000000000000000)
    (hclock : (now.after? (options.ttl.getD r.defaultTtl)).isSome = true) :
    (r.register (Memory.backend now) component address options m).1 = .ok (n + 1) := by
  obtain ⟨deadline, hafter⟩ := Option.isSome_iff_exists.mp hclock
  obtain ⟨m₁, hclaim, hopen₁⟩ : ∃ m₁, r.claim (Memory.backend now) component options m =
      (.ok (n + 1), m₁) ∧ m₁.closed = false := by
    refine ⟨{ m with
      store := m.store.put (Key.nodeId component) (Decimal.showInt (n + 1)) none }, ?_, hopen⟩
    simp only [claim, hpositive, Bool.and_false, Bool.false_eq_true, if_false,
      Memory.exec_increment, Memory.increment, hopen, hcount, hroom, if_true]
  have hdeadline : Memory.deadline? now (options.ttl.getD r.defaultTtl) = .ok (some deadline) := by
    simp only [Memory.deadline?, hpositive, Bool.false_eq_true, if_false, hafter]
  rw [register_eq, hclaim]
  simp only [hpublishes, Bool.false_eq_true, if_false, announce, Memory.exec_keepAlive,
    Memory.keepAlive_eq, hopen₁, hdeadline]

/-- A registration that publishes fails in its first half, and then changes nothing, or is
over with its second. -/
theorem register_halves {answer : Except Failure Int} (hpublishes : options.isolate = false)
    (h : r.register (Memory.backend now) component address options m = (answer, r', m')) :
    (∃ failure, answer = .error failure ∧ r' = r ∧ m' = m) ∨
      ∃ id m₁, r.claim (Memory.backend now) component options m = (.ok id, m₁) ∧
        r.announce (Memory.backend now) component address options id m₁ = (answer, r', m') := by
  rw [register_eq] at h
  rcases r.claim_cases m now component options with
    ⟨failure, hfailed⟩ | ⟨id, -, -, -, hcounted⟩
  · rw [hfailed] at h
    obtain ⟨rfl, hleft⟩ := Prod.mk.inj h
    obtain ⟨rfl, rfl⟩ := Prod.mk.inj hleft
    exact .inl ⟨failure, rfl, rfl, rfl⟩
  · simp only [hcounted, hpublishes, Bool.false_eq_true, if_false] at h
    exact .inr ⟨id, _, hcounted, h⟩

end

/-- What a registration publishes is what the registry keeps. Where it answers with an id,
the registry keeps a node with the component, the address, the id and the time to live of
the call, and until that time is over the backend shows one pair under its key, whose text
is read as that node; of the time to live it has the whole milliseconds, as long as 64 bits
hold them. Where the call ends with an error, the registry and the backend are as they
were. So it is when others use both between its halves: its id changes nothing under the
root of services, and a second half that ends with an error changes nothing at all. -/
theorem copies_agree {r r' : Registry} {m m' : Memory} {now : Instant}
    {component address : String} {options : RegisterOptions} {answer : Except Failure Int}
    (hpublishes : options.isolate = false)
    (hcall : r.register (Memory.backend now) component address options m = (answer, r', m')) :
    let node := r.nodeFor component address options
    (∀ id, (node id).uniqueId = id ∧ (node id).service = component ∧
      (node id).address = address ∧ (node id).ttl = options.ttl.getD r.defaultTtl) ∧
    (∀ n, m.closed = false → (options.ttl.getD r.defaultTtl).isZero = false →
      Memory.counter m.store (Key.nodeId component) = .ok n → n + 1 < 0x8000000000000000 →
      (now.after? (options.ttl.getD r.defaultTtl)).isSome = true → answer = .ok (n + 1)) ∧
    (∀ id, answer = .ok id → ∃ found, Copies r' m' now (node id) found) ∧
    (∀ e, answer = .error (.error e) → r' = r ∧ m' = m) ∧
    ∀ id m₁, r.claim (Memory.backend now) component options m = (.ok id, m₁) →
      (∀ key, Key.startsWith Key.serviceRoot key = true →
        m₁.store.entries.get? key = m.store.entries.get? key) ∧
      ∀ later r₂ m₂ answer₂ r₃ m₃, r₂.defaultTtl = r.defaultTtl →
        r₂.announce (Memory.backend later) component address options id m₂ =
          (answer₂, r₃, m₃) →
        (∀ n, answer₂ = .ok n → n = id ∧ ∃ found, Copies r₃ m₃ later (node id) found) ∧
        ∀ e, answer₂ = .error (.error e) → r₃ = r₂ ∧ m₃ = m₂ := by
  intro node
  have hnode (id : Int) : (node id).uniqueId = id ∧ (node id).service = component ∧
      (node id).address = address ∧ (node id).ttl = options.ttl.getD r.defaultTtl :=
    ⟨uniqueId_nodeFor .., service_nodeFor .., address_nodeFor .., ttl_nodeFor ..⟩
  have hsecond {id n : Int} {m₁ : Memory}
      (hclaim : r.claim (Memory.backend now) component options m = (.ok id, m₁))
      {later : Instant} {r₂ r₃ : Registry} {m₂ m₃ : Memory}
      (hdefault : r₂.defaultTtl = r.defaultTtl)
      (hannounce : r₂.announce (Memory.backend later) component address options id m₂ =
        (.ok n, r₃, m₃)) : n = id ∧ ∃ found, Copies r₃ m₃ later (node id) found := by
    obtain ⟨hlives, hid, -⟩ := claim_ok hclaim
    have hsame : r₂.nodeFor component address options id = node id := by
      simp only [node, nodeFor, hdefault]
    rw [← hdefault] at hlives
    obtain ⟨hn, hcopies⟩ := announce_ok hannounce (hlives hpublishes) hid
    rw [hsame] at hcopies
    exact ⟨hn, _, hcopies⟩
  refine ⟨hnode, ?_, ?_, ?_, ?_⟩
  · intro n hopen hpositive hcount hroom hclock
    rw [← register_answers hpublishes hopen hpositive hcount hroom hclock, hcall]
  · rintro id rfl
    rcases register_halves hpublishes hcall with
      ⟨failure, hanswer, -⟩ | ⟨claimed, m₁, hclaim, hannounce⟩
    · cases hanswer
    · obtain ⟨rfl, hcopies⟩ := hsecond hclaim rfl hannounce
      exact hcopies
  · rintro e rfl
    rcases register_halves hpublishes hcall with
      ⟨failure, -, hsame⟩ | ⟨claimed, m₁, hclaim, hannounce⟩
    · exact hsame
    · -- an id is taken from an open backend, which leaves the second half no error
      have hclosed := (announce_error hannounce).1
      rw [(claim_ok hclaim).2.2.1] at hclosed
      cases hclosed
  · intro id m₁ hclaim
    refine ⟨(claim_ok hclaim).2.2.2, ?_⟩
    intro later r₂ m₂ answer₂ r₃ m₃ hdefault hannounce
    constructor
    · rintro n rfl
      exact hsecond hclaim hdefault hannounce
    · rintro e rfl
      exact (announce_error hannounce).2

/-- A registration for a second and a half, with a counter that stands at one, and one
whose counter is no number. -/
theorem copies_agree_published :
    let options : RegisterOptions := ⟨false, some (.ofMillis 1500), [" s ", "", "t"]⟩
    let call := (create .zero).register (Memory.backend (atMilli 5)) "a" "x" options
    let counted := (sampleRegistered (.ofMillis 11)).2.2
    let spoilt := (Memory.create 8).act ⟨0⟩ (.set "node_id/a" "one" .zero)
    ((call counted).1 = .ok 2 ∧
      ∃ node, (call counted).2.1.node? "a" = some node ∧ node.ttl = .ofMillis 1500 ∧
        node.subServices = ["s", "t"] ∧
        ∃ value version revision, Node.decode value = .ok node ∧
          ((call counted).2.2.get (atMilli 1504) ⟨"service/a/x", false⟩).1 =
            .ok ⟨[⟨"service/a/x", value, version⟩], revision⟩) ∧
      (∃ e, (call spoilt).1 = .error (.error e)) ∧ (call spoilt).2 = (create .zero, spoilt) := by
  intro options call counted spoilt
  have hcounted : call counted = ((call counted).1, (call counted).2.1, (call counted).2.2) := rfl
  have hspoilt : call spoilt = ((call spoilt).1, (call spoilt).2.1, (call spoilt).2.2) := rfl
  obtain ⟨hnode, -, hcopies, -⟩ := copies_agree rfl hcounted
  obtain ⟨-, -, -, herror, -⟩ := copies_agree rfl hspoilt
  have hid : (call counted).1 = .ok 2 := by decide +kernel
  obtain ⟨found, hfound⟩ := hcopies 2 hid
  obtain rfl := hfound.whole ⟨1500, by decide, rfl⟩
  obtain ⟨value, version, hdecode, hget⟩ := hfound.stored
  obtain ⟨revision, hlisting⟩ := hget (atMilli 1504) (by decide)
  obtain ⟨e, he⟩ : ∃ e, (call spoilt).1 = .error (.error e) := ⟨_, rfl⟩
  obtain ⟨hr, hm⟩ := herror e he
  exact ⟨⟨hid, _, hfound.kept, (hnode 2).2.2.2, by decide, value, version, revision, hdecode,
    hlisting⟩, ⟨e, he⟩, Prod.ext hr hm⟩

/-- A registration that keeps one time to live and publishes another. -/
def Differs (ttl published : Span) : Prop :=
  ∃ r m node found value,
    sampleRegistered ttl = (.ok 1, r, m) ∧ r.node? "a" = some node ∧
      (m.get ⟨0⟩ ⟨"service/a/x", false⟩).1 = .ok ⟨[⟨"service/a/x", value, 2⟩], 2⟩ ∧
      Node.decode value = .ok found ∧ node.ttl = ttl ∧ found.ttl = published ∧ found ≠ node

/-- Of a second and 500 nanoseconds the second is published, and of `2 ^ 64` milliseconds,
which 64 bits do not hold, nothing. -/
theorem copies_differ :
    Differs ⟨1000000500⟩ (.ofSeconds 1) ∧ Differs (.ofMillis 0x10000000000000000) .zero := by
  constructor <;>
  refine ⟨_, _, _, _, _, rfl, rfl, rfl, Node.decode_encode ⟨?_, ?_⟩, rfl, rfl, ?_⟩ <;> decide

end Registry

end Rollcall
