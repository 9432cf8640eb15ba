import Rollcall.Proofs.Memory.Lasting
import Rollcall.Proofs.Registry.Calls

/-!
A published registration lasts. Its key is held by a renewal from the instant at which it
is registered, so every listing that covers the key has it, as long as the time to live
leaves room for the interval between two renewals. One that does not lapses before its
first renewal, although nobody touches it (`registration_lapses`). Main statement:
`registration_lasts`.
-/

namespace Rollcall

namespace Memory

/-- A registration that began a renewal has found a deadline on an open backend. -/
theorem of_act_keepAlive {m : Memory} {now : Instant} {key value : String} {ttl : Span}
    {deadline : Option Instant}
    (h : m.act now (.keepAlive key value ttl) = m.renewing now key value ttl deadline) :
    m.closed = false ∧ deadline? now ttl = .ok deadline := by
  have hjobs : (m.act now (.keepAlive key value ttl)).jobs.length = m.jobs.length + 1 := by
    simp only [h, renewing, List.length_append, List.length_map, List.length_singleton]
  simp only [act, keepAlive, set] at h hjobs
  cases hclosed : m.closed with
  | true =>
      simp only [hclosed, if_true] at hjobs
      omega
  | false =>
      refine ⟨rfl, ?_⟩
      simp only [hclosed, Bool.false_eq_true, if_false] at h hjobs
      cases hdeadline : deadline? now ttl with
      | error failure =>
          simp only [hdeadline] at hjobs
          omega
      | ok found =>
          simp only [hdeadline] at h
          have hentry := congrArg (fun m' => m'.store.entries.get? key) h
          simp only [renewing, Store.get?_put, if_true, Option.some.injEq, Entry.mk.injEq] at hentry
          rw [hentry.2.2]

end Memory

namespace Registry

open Memory

/-- A registration that publishes has counted first, then found the clock with room for its
deadline, and has left the node under its key with a renewal that begins now. -/
theorem register_ok {r r' : Registry} {m m' : Memory} {now : Instant}
    {component address : String} {options : RegisterOptions} {id : Int}
    (h : r.register (Memory.backend now) component address options m = (.ok id, r', m'))
    (hpublished : options.isolate = false) :
    let counted := m.act now (.increment (Key.nodeId component))
    counted.closed = false ∧ ∃ deadline,
      deadline? now (options.ttl.getD r.defaultTtl) = .ok deadline ∧
      m' = counted.renewing now (Key.service component address)
        (r.nodeFor component address options id).encode (options.ttl.getD r.defaultTtl)
        deadline := by
  intro counted
  rcases r.register_cases m now component address options with
    ⟨answer, m₁, hcall, -, hisolated⟩ | ⟨found, deadline, -, -, hcall, hact⟩
  · rw [hcall] at h
    exact absurd ((hisolated id (Prod.mk.inj h).1).symm.trans hpublished) Bool.noConfusion
  · rw [hcall] at h
    obtain ⟨hid, hstate⟩ := Prod.mk.inj h
    obtain rfl := Except.ok.inj hid
    obtain ⟨hopen, hdeadline⟩ := of_act_keepAlive hact
    exact ⟨hopen, deadline, hdeadline, (Prod.mk.inj hstate).2.symm.trans hact⟩

/-- Where the interval between renewals is shorter than the time to live, and where timers
fire when they are due, a registration that nobody disturbs is in every listing that
covers its key, and no deletion of it is told. Timers may be late by less than a
millisecond where the time to live leaves room for it. -/
theorem registration_lasts {r r' : Registry} {m m' : Memory} {now : Instant}
    {component address : String} {options : RegisterOptions} {id : Int} {ttl : Span}
    {later : List (Instant × Action)} (httl : options.ttl.getD r.defaultTtl = ttl)
    (hregister : r.register (Memory.backend now) component address options m = (.ok id, r', m'))
    (hpublished : options.isolate = false) (hfloor : minRenewalInterval.nanos < ttl.nanos)
    (hundisturbed : Undisturbed (Key.service component address) m' now later)
    (hexact : minRenewalInterval.nanos + nanosPerMilli ≤ ttl.nanos ∨
      nextWake now ttl = now.after (renewalInterval ttl) ∧
        Exact (Key.service component address) m' later) :
    (∀ done t scope rest, later = done ++ (t, .get scope) :: rest →
      scope.covers (Key.service component address) = true →
      ∃ listing, ((m'.run done).get t scope).1 = .ok listing ∧
        ∃ p ∈ listing.pairs, p.key = Key.service component address ∧
          p.value = (r.nodeFor component address options id).encode) ∧
    ∀ c, .change c ∈ m'.log later → c.kind = .delete →
      c.pair.key ≠ Key.service component address := by
  obtain ⟨hopen, deadline, hdeadline, rfl⟩ := register_ok hregister hpublished
  subst httl
  have hafter : deadline = some (now.after (options.ttl.getD r.defaultTtl)) := by
    have hpositive : (options.ttl.getD r.defaultTtl).isZero = false := decide_eq_false (by omega)
    simp only [deadline?, hpositive, Bool.false_eq_true, if_false, Instant.after?] at hdeadline
    split at hdeadline
    · rename_i hfound
      split at hfound
      · rw [← Except.ok.inj hdeadline, ← Option.some.inj hfound]
      · cases hfound
    · cases hdeadline
  subst hafter
  exact Held.run (held_renewing hopen hfloor (hexact.imp_right And.left)) hundisturbed hfloor
    (hexact.imp_right And.right)

def sampleOptions (ttl : Span) : RegisterOptions := ⟨false, some ttl, []⟩

/-- What a registration of one node at zero leaves on a new backend. -/
def sampleRegistered (ttl : Span) : Except Failure Int × Registry × Memory :=
  (Registry.create .zero).register (Memory.backend ⟨0⟩) "a" "x" (sampleOptions ttl) (.create 8)

def atMilli (n : Nat) : Instant := ⟨n * nanosPerMilli⟩

/-- Two renewals, with sweeps and another key in between. -/
def sampleRenewed : List (Instant × Action) := [
  (atMilli 9, .sweep), (atMilli 10, .wake 0), (atMilli 10, .work 0),
  (atMilli 12, .set "k" "v" (.ofMillis 1)), (atMilli 20, .wake 0), (atMilli 20, .work 0),
  (atMilli 29, .get ⟨"service/", true⟩)]

/-- With a time to live of eleven milliseconds, one above the least interval between
renewals, the node is listed after two renewals. -/
theorem registration_lasts_renewed :
    (sampleRegistered (.ofMillis 11)).1 = .ok 1 ∧
      ∃ listing, (((sampleRegistered (.ofMillis 11)).2.2.run (sampleRenewed.take 6)).get
          (atMilli 29) ⟨"service/", true⟩).1 = .ok listing ∧
        ∃ p ∈ listing.pairs, p.key = "service/a/x" := by
  have hregister : sampleRegistered (.ofMillis 11) =
      (.ok 1, (sampleRegistered (.ofMillis 11)).2.1, (sampleRegistered (.ofMillis 11)).2.2) := rfl
  refine ⟨rfl, ?_⟩
  have hundisturbed : Undisturbed "service/a/x" (sampleRegistered (.ofMillis 11)).2.2 ⟨0⟩
      sampleRenewed :=
    ⟨rfl, rfl, rfl, rfl, rfl, rfl, rfl, rfl, rfl, rfl, rfl, rfl, rfl, rfl, trivial⟩
  have hlasts := registration_lasts rfl hregister rfl (by decide) hundisturbed (.inl (by decide))
  obtain ⟨listing, hget, p, hp, hkey, -⟩ :=
    hlasts.1 (sampleRenewed.take 6) (atMilli 29) ⟨"service/", true⟩ [] rfl rfl
  exact ⟨listing, hget, p, hp, hkey⟩

/-- A registration for five milliseconds is gone after seven, when its renewal sleeps for
three more, although nobody touched it. -/
theorem registration_lapses :
    let m := (sampleRegistered (.ofMillis 5)).2.2
    let later := [(atMilli 7, Action.get ⟨"service/", true⟩)]
    (sampleRegistered (.ofMillis 5)).1 = .ok 1 ∧ Undisturbed "service/a/x" m ⟨0⟩ later ∧
      Exact "service/a/x" m later ∧
      nextWake ⟨0⟩ (.ofMillis 5) = Instant.after ⟨0⟩ (renewalInterval (.ofMillis 5)) ∧
      ((m.get (atMilli 7) ⟨"service/", true⟩).1.map Listing.pairs) = .ok [] ∧
      ∃ value, m.log later = [.change ⟨.delete, ⟨"service/a/x", value, 3⟩⟩] := by
  intro m later
  exact ⟨rfl, ⟨rfl, rfl, trivial⟩, ⟨rfl, trivial⟩, rfl, rfl, _, rfl⟩

end Registry

end Rollcall
