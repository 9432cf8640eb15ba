import Rollcall.Proofs.Key
import Rollcall.Proofs.Memory.Stopping
import Rollcall.Proofs.Registry.Calls
import Rollcall.Proofs.Replacing

/-!
Registries that publish on one backend in memory, among others who use it. The
nodes that stand are those last published under each key and not withdrawn since;
as long as renewals come in time, they are what is stored and renewed under the
service root (`World.keeps_run`). A registry knows one node for each component, so
it lists what it keeps published only as long as its components and their keys
determine each other: a component that is registered at a second address leaves
the first behind, stored and renewed, and withdraws only the second
(`registered_twice`). Main statement: `published_as_registered`.
-/

namespace Rollcall

namespace Memory

/-- Others keep away from the keys of nodes, and do not close the backend. -/
def Action.isForeign : Action → Bool
  | .set key _ _ | .keepAlive key _ _ | .delete key | .increment key =>
      !Key.startsWith Key.serviceRoot key
  | .close => false
  | _ => true

def sleeps (m : Memory) (key : String) : Bool :=
  m.jobs.all fun
    | .renewal r => r.key ≠ key || r.phase ≠ .awake
    | .sweeper _ => true

/-- No entry that is renewed under the service root is overdue, and the clock can
hold its next deadline. -/
def onTime (m : Memory) (now : Instant) : Bool :=
  m.jobs.all fun
    | .renewal r =>
        r.cancelled || !Key.startsWith Key.serviceRoot r.key ||
          (now.after? r.ttl).isSome &&
            (m.store.entries.get? r.key).all (fun e => !e.isOverdue now)
    | .sweeper _ => true

def renews (m : Memory) (key : String) : Bool :=
  m.jobs.any fun
    | .renewal r => r.key = key && !m.isStopped r
    | .sweeper _ => false

namespace Action

variable {a : Action} {key : String}

theorem ne_close_of_foreign (h : a.isForeign = true) : a ≠ .close := by
  rintro rfl
  cases h

theorem not_writes_of_foreign (h : a.isForeign = true)
    (hroot : Key.startsWith Key.serviceRoot key = true) (value : String) :
    ¬ a.writes key value := by
  intro hwrites
  cases a <;> simp_all [isForeign, writes]

theorem not_cancels_of_foreign (h : a.isForeign = true)
    (hroot : Key.startsWith Key.serviceRoot key = true) : ¬ a.cancels key := by
  intro hcancels
  cases a <;> simp_all [isForeign, cancels]

end Action

section

variable {m : Memory} {now : Instant} {key : String} {r : Renewal}

theorem sleeps_iff : m.sleeps key = true ↔ m.Sleeps key := by
  simp only [sleeps, List.all_eq_true, Sleeps]
  constructor
  · intro h r hr hkey
    simpa [hkey] using h _ hr
  · intro h job hjob
    cases job with
    | sweeper w => rfl
    | renewal r =>
        by_cases hkey : r.key = key
        · simpa [hkey] using h r hjob hkey
        · simp [hkey]

/-- On an open backend a renewal goes on unless it was told to stop itself. -/
theorem renews_iff (hopen : m.closed = false) :
    m.renews key = true ↔ ∃ r, .renewal r ∈ m.jobs ∧ r.key = key ∧ r.cancelled = false := by
  simp only [renews, List.any_eq_true, isStopped, hopen, Bool.false_or]
  constructor
  · rintro ⟨job, hjob, h⟩
    cases job with
    | sweeper w => cases h
    | renewal r => exact ⟨r, hjob, by simpa using h⟩
  · rintro ⟨r, hr, hkey, hcancelled⟩
    exact ⟨_, hr, by simp [hkey, hcancelled]⟩

/-- Where renewals come in time, one that goes on finds its entry and has room for the next
deadline. -/
theorem of_onTime (h : m.onTime now = true) (hr : .renewal r ∈ m.jobs)
    (hcancelled : r.cancelled = false) (hroot : Key.startsWith Key.serviceRoot r.key = true) :
    (∃ deadline, deadline? now r.ttl = .ok deadline) ∧ r.key ∉ m.store.overdue now := by
  have hjob := List.all_eq_true.mp h _ hr
  simp only [hcancelled, hroot, Bool.not_true, Bool.false_or, Bool.and_eq_true,
    Option.all_eq_true, Bool.not_eq_true'] at hjob
  obtain ⟨hclock, hentry⟩ := hjob
  constructor
  · unfold deadline?
    split
    · exact ⟨none, rfl⟩
    · obtain ⟨d, hd⟩ := Option.isSome_iff_exists.mp hclock
      rw [hd]
      exact ⟨some d, rfl⟩
  · intro hoverdue
    obtain ⟨e, he, hlate⟩ := Store.mem_overdue.mp hoverdue
    exact absurd ((hentry e he).symm.trans hlate) Bool.false_ne_true

theorem get?_increment {other : String} (hne : other ≠ key) :
    (m.act now (.increment key)).store.entries.get? other = m.store.entries.get? other := by
  simp only [act, increment]
  split
  · rfl
  · split
    · rfl
    · split
      · simp only [Store.put, Store.publish, Table.get?_insert, if_neg hne]
      · rfl

theorem onTime_increment (hkey : Key.startsWith Key.serviceRoot key = false) :
    (m.act now (.increment key)).onTime now = m.onTime now := by
  rw [onTime, onTime, jobs_act rfl]
  refine List.all_congr rfl ?_
  rintro (r | w)
  · dsimp only
    cases hroot : Key.startsWith Key.serviceRoot r.key with
    | false => simp only [Bool.not_false, Bool.or_true, Bool.true_or]
    | true =>
        have hne : r.key ≠ key := by
          rintro rfl
          exact absurd (hkey.symm.trans hroot) Bool.false_ne_true
        rw [get?_increment hne]
  · rfl

end

/-- The nodes that stand are published and renewed, each under its key, and nothing
else is under the service root. -/
structure Keeps (m : Memory) (standing : Table String Node) : Prop where
  isOpen : m.closed = false
  keyed : ∀ key n, standing.get? key = some n → n.key = key ∧ n.HasId64
  stored : ∀ key, Key.startsWith Key.serviceRoot key = true →
    m.store.value? key = (standing.get? key).map Node.encode
  renewed : ∀ key n, standing.get? key = some n →
    ∃ r, .renewal r ∈ m.jobs ∧ r.key = key ∧ r.cancelled = false
  renewals : ∀ r, .renewal r ∈ m.jobs → Key.startsWith Key.serviceRoot r.key = true →
    r.cancelled = true ∧ r.phase ≠ .awake ∨
      r.cancelled = false ∧ ∃ n, standing.get? r.key = some n ∧ r.value = n.encode

namespace Keeps

variable {m : Memory} {standing : Table String Node} {now : Instant}

theorem create (limit : Nat) : (create limit).Keeps ∅ where
  isOpen := rfl
  keyed := by
    intro key n hn
    cases hn
  stored := fun _ _ => rfl
  renewed := by
    intro key n hn
    cases hn
  renewals := by
    intro r hr
    cases hr

theorem startsWith_root (h : m.Keeps standing) {key : String} {n : Node}
    (hn : standing.get? key = some n) : Key.startsWith Key.serviceRoot key = true := by
  rw [← (h.keyed key n hn).1]
  exact Key.startsWith_root_service _ _

theorem others (h : m.Keeps standing) {a : Action} (hforeign : a.isForeign = true)
    (hheeds : m.heeds a = true) (htime : m.onTime now = true) : (m.act now a).Keeps standing where
  isOpen := isOpen_act h.isOpen (Action.ne_close_of_foreign hforeign) now
  keyed := h.keyed
  stored := by
    intro key hroot
    rw [← h.stored key hroot]
    rcases value_act m now a key with hsame | ⟨hgone, hnone⟩ | ⟨value, -, hwrites, -⟩ |
      ⟨_, r, -, hjob, hawake, rfl, hvalue⟩
    · exact hsame
    · rw [hnone]
      rcases hgone with rfl | hoverdue
      · exact absurd rfl (Action.not_cancels_of_foreign hforeign hroot)
      · rw [h.stored key hroot]
        cases hn : standing.get? key with
        | none => rfl
        | some n =>
            obtain ⟨r, hr, rfl, hcancelled⟩ := h.renewed key n hn
            exact absurd hoverdue (of_onTime htime hr hcancelled hroot).2
    · exact absurd hwrites (Action.not_writes_of_foreign hforeign hroot value)
    · rcases h.renewals r (List.mem_of_getElem? hjob) hroot with ⟨-, hasleep⟩ | ⟨-, n, hn, hencode⟩
      · exact absurd hawake hasleep
      · rw [hvalue, h.stored r.key hroot, hn, hencode]
        rfl
  renewed := by
    intro key n hn
    have hroot := h.startsWith_root hn
    obtain ⟨r, hr, rfl, hcancelled⟩ := h.renewed key n hn
    have hfree : m.isStopped r = false := by rw [isStopped, h.isOpen, hcancelled]; rfl
    obtain ⟨⟨deadline, hdeadline⟩, -⟩ := of_onTime htime hr hcancelled hroot
    obtain ⟨r', hr', hcontinues, hgoes⟩ :=
      renewal_survives hr hfree (Action.not_cancels_of_foreign hforeign hroot) hdeadline
    exact ⟨r', hr', hcontinues.key, hgoes⟩
  renewals := by
    intro r hr hroot
    rcases renewal_origin hr with ⟨r₀, hr₀, hbecomes⟩ | ⟨-, rfl, -, -⟩
    · have hroot₀ := hbecomes.key ▸ hroot
      rcases h.renewals r₀ hr₀ hroot₀ with ⟨hcancelled, hasleep⟩ | ⟨hcancelled, n, hn, hencode⟩
      · refine .inl ⟨hbecomes.cancelled hcancelled, fun hawake => ?_⟩
        rcases hbecomes.awake hawake with hbefore | ⟨i, rfl, hjob⟩
        · exact hasleep hbefore
        · simp [heeds, hjob, isStopped, hcancelled] at hheeds
      · right
        rw [hbecomes.key, hbecomes.value]
        refine ⟨?_, n, hn, hencode⟩
        rw [Bool.eq_false_iff]
        intro htold
        rcases hbecomes.told htold with hbefore | hcancels
        · exact absurd (hcancelled.symm.trans hbefore) Bool.false_ne_true
        · exact absurd hcancels (Action.not_cancels_of_foreign hforeign hroot₀)
    · exact absurd rfl (Action.not_cancels_of_foreign hforeign hroot)

/-- What the renewals are once those of a key that sleep are told to stop. -/
theorem renewals_cancelled (h : m.Keeps standing) {key : String} (hsleeps : m.Sleeps key)
    {r : Renewal} (hr : .renewal r ∈ m.jobs.map (cancelRenewal key))
    (hroot : Key.startsWith Key.serviceRoot r.key = true) :
    r.cancelled = true ∧ r.phase ≠ .awake ∨
      r.key ≠ key ∧ r.cancelled = false ∧
        ∃ n, standing.get? r.key = some n ∧ r.value = n.encode := by
  obtain ⟨r₀, hr₀, hcontinues, hphase, hcancelled, hother⟩ := mem_cancelled hr
  by_cases hkey : r.key = key
  · exact .inl ⟨hcancelled hkey, hphase ▸ hsleeps r₀ hr₀ (hcontinues.key ▸ hkey)⟩
  · obtain rfl := hother hkey
    rcases h.renewals r hr₀ hroot with hstopped | hgoes
    · exact .inl hstopped
    · exact .inr ⟨hkey, hgoes⟩

/-- The renewals of the other nodes go on when those of one key are told to stop. -/
theorem renewed_cancelled (h : m.Keeps standing) {key other : String} (hne : other ≠ key) {n : Node}
    (hn : standing.get? other = some n) :
    ∃ r, .renewal r ∈ m.jobs.map (cancelRenewal key) ∧ r.key = other ∧ r.cancelled = false := by
  obtain ⟨r, hr, rfl, hcancelled⟩ := h.renewed other n hn
  refine ⟨r, List.mem_map.mpr ⟨.renewal r, hr, ?_⟩, rfl, hcancelled⟩
  rw [cancelRenewal, if_neg hne]

/-- A registration replaces what stands at its key. Renewals of an earlier node there are
told to stop and sleep, so they do not bring it back. -/
theorem publish (h : m.Keeps standing) {n : Node} (hid : n.HasId64) (hsleeps : m.Sleeps n.key)
    (htime : m.onTime now = true) (ttl : Span) (deadline : Option Instant) :
    (m.renewing now n.key n.encode ttl deadline).Keeps (standing.insert n.key n) where
  isOpen := h.isOpen
  keyed := by
    intro key other hother
    rw [Table.get?_insert] at hother
    split at hother
    · obtain rfl := Option.some.inj hother
      exact ⟨(‹key = _›).symm, hid⟩
    · exact h.keyed key other hother
  stored := by
    intro key hroot
    have hswept := (h.others (a := .sweep) rfl rfl htime).stored key hroot
    rw [Table.get?_insert]
    by_cases hkey : key = n.key
    · subst hkey
      rw [if_pos rfl, renewing, Store.value?_put]
      rfl
    · rw [if_neg hkey, ← hswept, renewing, Store.value?_put_of_ne hkey]
      rfl
  renewed := by
    intro key other hother
    rw [Table.get?_insert] at hother
    split at hother
    · subst key
      exact ⟨_, List.mem_append_right _ (List.mem_singleton_self _), rfl, rfl⟩
    · obtain ⟨r, hr, hkey, hcancelled⟩ := h.renewed_cancelled ‹_› hother
      exact ⟨r, List.mem_append_left _ hr, hkey, hcancelled⟩
  renewals := by
    intro r hr hroot
    rw [Table.get?_insert]
    rcases List.mem_append.mp hr with hold | hnew
    · rcases h.renewals_cancelled hsleeps hold hroot with hstopped | ⟨hne, hgoes⟩
      · exact .inl hstopped
      · rw [if_neg hne]
        exact .inr hgoes
    · obtain rfl := MemoryJob.renewal.inj (List.mem_singleton.mp hnew)
      exact .inr ⟨rfl, n, if_pos rfl, rfl⟩

/-- A deletion takes the node and ends its renewal, as long as that one is not awake. -/
theorem withdraw (h : m.Keeps standing) {key : String} (hsleeps : m.Sleeps key) (now : Instant) :
    (m.act now (.delete key)).Keeps (standing.erase key) := by
  rw [act_delete h.isOpen]
  constructor
  case isOpen => exact h.isOpen
  case keyed =>
    intro other n hn
    rw [Table.get?_erase] at hn
    split at hn
    · cases hn
    · exact h.keyed other n hn
  case stored =>
    intro other hroot
    rw [Table.get?_erase]
    by_cases hkey : other = key
    · subst hkey
      rw [if_pos rfl, Store.value?_remove]
      rfl
    · rw [if_neg hkey, ← h.stored other hroot, Store.value?_remove_of_ne hkey]
  case renewed =>
    intro other n hn
    rw [Table.get?_erase] at hn
    split at hn
    · cases hn
    · exact h.renewed_cancelled ‹_› hn
  case renewals =>
    intro r hr hroot
    rw [Table.get?_erase]
    rcases h.renewals_cancelled hsleeps hr hroot with hstopped | ⟨hne, hgoes⟩
    · exact .inl hstopped
    · rw [if_neg hne]
      exact .inr hgoes

end Keeps

end Memory

namespace Publishing

structure World where
  memory : Memory
  registries : List Registry
  /-- The node that was last published under each key and not withdrawn since. -/
  standing : Table String Node

inductive Move where
  | register (index : Nat) (component address : String) (options : RegisterOptions)
  | unregister (index : Nat) (component : String)
  | backend (a : Memory.Action)

def publish (standing : Table String Node) (r : Registry) (component address : String)
    (options : RegisterOptions) : Except Failure Int → Table String Node
  | .ok id =>
      if options.isolate then standing
      else standing.insert (Key.service component address)
        (r.nodeFor component address options id)
  | .error _ => standing

def withdraw (standing : Table String Node) : Except Failure (Option Node) → Table String Node
  | .ok (some n) => standing.erase n.key
  | _ => standing

namespace World

def start (limit : Nat) (ttls : List Span) : World :=
  ⟨.create limit, ttls.map Registry.create, ∅⟩

def step (w : World) (now : Instant) : Move → World
  | .register i component address options =>
      match w.registries[i]? with
      | none => w
      | some r =>
          let (answer, r', memory) :=
            r.register (Memory.backend now) component address options w.memory
          ⟨memory, w.registries.set i r', publish w.standing r component address options answer⟩
  | .unregister i component =>
      match w.registries[i]? with
      | none => w
      | some r =>
          let (answer, r', memory) := r.unregister (Memory.backend now) component w.memory
          ⟨memory, w.registries.set i r', withdraw w.standing answer⟩
  | .backend a => { w with memory := w.memory.act now a }

def run (w : World) (moves : List (Instant × Move)) : World :=
  moves.foldl (fun w move => w.step move.1 move.2) w

/-- Every move of a run keeps to a rule where it is made. -/
def Along (rule : World → Instant → Move → Bool) : World → List (Instant × Move) → Prop
  | _, [] => True
  | w, move :: rest => rule w move.1 move.2 = true ∧ (w.step move.1 move.2).Along rule rest

def node? (w : World) (index : Nat) (component : String) : Option Node :=
  w.registries[index]?.bind (fun r => r.node? component)

/-- Renewals come in time and heed their stop, no renewal of the key in question is
awake, and others keep away. -/
def orderly (w : World) (now : Instant) (move : Move) : Bool :=
  w.memory.onTime now &&
    match move with
    | .register _ component address options =>
        options.isolate || w.memory.sleeps (Key.service component address)
    | .unregister i component => (w.node? i component).all (fun n => w.memory.sleeps n.key)
    | .backend a => a.isForeign && w.memory.heeds a

/-- A registered component and its key determine each other. -/
def steady (w : World) (_ : Instant) : Move → Bool
  | .register i component address options =>
      options.isolate || w.registries[i]?.all fun r =>
        r.nodes.all fun n => n.service = component ↔ n.key = Key.service component address
  | _ => true

/-- What a move that neither publishes nor withdraws does to the backend. -/
inductive Beside (m : Memory) (now : Instant) : Move → Memory → Prop where
  | idle (move : Move) : Beside m now move m
  | act (a : Memory.Action) : Beside m now (.backend a) (m.act now a)
  | count (i : Nat) (component address : String) (options : RegisterOptions) :
      Beside m now (.register i component address options)
        (m.act now (.increment (Key.nodeId component)))
  | sweep (i : Nat) (component address : String) (options : RegisterOptions) :
      Beside m now (.register i component address options)
        ((m.act now (.increment (Key.nodeId component))).act now .sweep)

/-- What a move does while the backend is open. -/
inductive Effect (w : World) (now : Instant) : Move → World → Prop where
  | beside {move : Move} {m : Memory} (h : Beside w.memory now move m) :
      Effect w now move { w with memory := m }
  | publish {i : Nat} {r : Registry} {component address : String} {options : RegisterOptions}
      {n : Node} {m : Memory} (ttl : Span) (deadline : Option Instant)
      (hr : w.registries[i]? = some r) (hisolate : options.isolate = false)
      (hservice : n.service = component) (hkey : n.key = Key.service component address)
      (hid : n.HasId64)
      (hm : m = (w.memory.act now (.increment (Key.nodeId component))).act now
        (.keepAlive n.key n.encode ttl))
      (hrenewing : m = (w.memory.act now (.increment (Key.nodeId component))).renewing now
        n.key n.encode ttl deadline) :
      Effect w now (.register i component address options)
        ⟨m, w.registries.set i { r with published := r.published.insert component n },
          w.standing.insert n.key n⟩
  | withdraw {i : Nat} {r : Registry} {component : String} {n : Node}
      (hr : w.registries[i]? = some r) (hn : r.published.get? component = some n) :
      Effect w now (.unregister i component)
        ⟨w.memory.act now (.delete n.key),
          w.registries.set i { r with published := r.published.erase component },
          w.standing.erase n.key⟩

section

variable {w : World} {now : Instant} {move : Move}

/-- While the backend is open a move publishes one node, withdraws one, or leaves the
registries alone. The code of registries is opened here; what follows splits on the effect. -/
theorem step_effect (hopen : w.memory.closed = false) (now : Instant) (move : Move) :
    Effect w now move (w.step now move) := by
  cases move with
  | backend a => exact .beside (.act a)
  | register i component address options =>
      cases hr : w.registries[i]? with
      | none =>
          simp only [step, hr]
          exact .beside (.idle _)
      | some r =>
          rcases r.register_cases w.memory now component address options with
            ⟨answer, m, hcall, hm, hisolated⟩ | ⟨id, deadline, hisolate, hid, hcall, hrenewing⟩
          · have hstanding : Publishing.publish w.standing r component address options answer =
                w.standing := by
              cases answer with
              | error failure => rfl
              | ok id => rw [Publishing.publish, if_pos (hisolated id rfl)]
            simp only [step, hr, hcall, hstanding, set_of_getElem? hr]
            rcases hm with rfl | rfl | rfl
            · exact .beside (.idle _)
            · exact .beside (.count i component address options)
            · exact .beside (.sweep i component address options)
          · have hkey := r.key_nodeFor component address options id
            simp only [step, hr, hcall, Publishing.publish, hisolate, Bool.false_eq_true, if_false]
            rw [← hkey] at hrenewing ⊢
            exact .publish _ deadline hr hisolate
              (r.service_nodeFor component address options id) hkey hid rfl hrenewing
  | unregister i component =>
      cases hr : w.registries[i]? with
      | none =>
          simp only [step, hr]
          exact .beside (.idle _)
      | some r =>
          rcases r.unregister_cases w.memory now component hopen with
            ⟨-, hcall⟩ | ⟨n, hn, hcall⟩
          · simp only [step, hr, hcall, Publishing.withdraw, set_of_getElem? hr]
            exact .beside (.idle _)
          · simp only [step, hr, hcall, Publishing.withdraw]
            exact .withdraw hr hn

/-- One orderly move keeps the nodes that stand published, and no others. -/
theorem keeps_step (h : w.memory.Keeps w.standing) (horderly : w.orderly now move = true) :
    (w.step now move).memory.Keeps (w.step now move).standing := by
  obtain ⟨htime, hrule⟩ := Bool.and_eq_true_iff.mp horderly
  have hcounted (component : String) :
      (w.memory.act now (.increment (Key.nodeId component))).Keeps w.standing ∧
        (w.memory.act now (.increment (Key.nodeId component))).onTime now = true := by
    have hkey := Key.startsWith_root_nodeId component
    refine ⟨h.others ?_ rfl htime, ?_⟩
    · simp only [Memory.Action.isForeign, hkey, Bool.not_false]
    · rw [Memory.onTime_increment hkey, htime]
  have heffect := step_effect h.isOpen now move
  generalize w.step now move = w' at heffect ⊢
  cases heffect with
  | beside hbeside =>
      cases hbeside with
      | idle => exact h
      | act a =>
          obtain ⟨hforeign, hheeds⟩ := Bool.and_eq_true_iff.mp hrule
          exact h.others hforeign hheeds htime
      | count i component address options => exact (hcounted component).1
      | sweep i component address options =>
          exact (hcounted component).1.others (a := .sweep) rfl rfl (hcounted component).2
  | publish ttl deadline hr hisolate hservice hkey hid hm hrenewing =>
      rename_i i r component address options n m
      simp only [hisolate, Bool.false_or, ← hkey, Memory.sleeps_iff] at hrule
      have hsleeps : (w.memory.act now (.increment (Key.nodeId component))).Sleeps n.key := by
        intro r hjob
        exact hrule r (Memory.jobs_act (a := .increment _) rfl ▸ hjob)
      have hkept := (hcounted component).1.publish hid hsleeps (hcounted component).2 ttl deadline
      rw [← hrenewing] at hkept
      exact hkept
  | withdraw hr hn =>
      rename_i i r component n
      have hnode : w.node? i component = some n := by
        rw [node?, hr]
        exact hn
      simp only [hnode, Option.all_some, Memory.sleeps_iff] at hrule
      exact h.withdraw hrule now

/-- Over an orderly run the nodes that stand are published and renewed all the time, and no
others. -/
theorem keeps_run {moves : List (Instant × Move)} (h : w.memory.Keeps w.standing)
    (horderly : w.Along orderly moves) : (w.run moves).memory.Keeps (w.run moves).standing := by
  induction moves generalizing w with
  | nil => exact h
  | cons move rest ih => exact ih (keeps_step h horderly.1) horderly.2

end

end World

/-- A registry lists the nodes that stand, each for its component. -/
structure Lists (r : Registry) (standing : Table String Node) : Prop where
  named : ∀ component n, r.published.get? component = some n → n.service = component
  mirrored : ∀ key n, standing.get? key = some n ↔
    r.published.get? n.service = some n ∧ n.key = key

namespace Lists

variable {r : Registry} {standing : Table String Node}

/-- A registry lists a node if that is what it has for the component of the node. -/
theorem mem_nodes (h : Lists r standing) {n : Node} :
    n ∈ r.nodes ↔ r.published.get? n.service = some n := by
  simp only [Registry.nodes, Table.values, List.mem_map, Prod.exists, exists_eq_right,
    ← Table.get?_eq_some_iff]
  constructor
  · rintro ⟨component, hn⟩
    rw [h.named component n hn]
    exact hn
  · exact fun hn => ⟨n.service, hn⟩

/-- A component and its key determine each other before and after. -/
theorem publish (h : Lists r standing) {n : Node}
    (hsteady : ∀ other ∈ r.nodes, other.service = n.service ↔ other.key = n.key) :
    Lists { r with published := r.published.insert n.service n } (standing.insert n.key n) where
  named := by
    intro component other hother
    rw [Table.get?_insert] at hother
    split at hother
    · obtain rfl := Option.some.inj hother
      exact (‹component = _›).symm
    · exact h.named component other hother
  mirrored := by
    intro key other
    rw [Table.get?_insert, Table.get?_insert]
    have hapart (hother : r.published.get? other.service = some other) :
        other.service = n.service ↔ other.key = n.key := hsteady other (h.mem_nodes.mpr hother)
    by_cases hkey : key = n.key
    · subst hkey
      rw [if_pos rfl]
      constructor
      · rintro heq
        obtain rfl := Option.some.inj heq
        exact ⟨if_pos rfl, rfl⟩
      · rintro ⟨hother, hsame⟩
        split at hother
        · exact hother
        · exact absurd ((hapart hother).mpr hsame) ‹_›
    · rw [if_neg hkey, h.mirrored]
      constructor
      · rintro ⟨hother, rfl⟩
        exact ⟨by rw [if_neg (fun hservice => hkey ((hapart hother).mp hservice)), hother], rfl⟩
      · rintro ⟨hother, rfl⟩
        split at hother
        · obtain rfl := Option.some.inj hother
          exact absurd rfl hkey
        · exact ⟨hother, rfl⟩

theorem withdraw (h : Lists r standing) {component : String} {n : Node}
    (hn : r.published.get? component = some n) :
    Lists { r with published := r.published.erase component } (standing.erase n.key) where
  named := by
    intro other node hnode
    rw [Table.get?_erase] at hnode
    split at hnode
    · cases hnode
    · exact h.named other node hnode
  mirrored := by
    intro key other
    obtain rfl := h.named component n hn
    have hstands := (h.mirrored n.key n).mpr ⟨hn, rfl⟩
    rw [Table.get?_erase, Table.get?_erase]
    by_cases hkey : key = n.key
    · subst hkey
      rw [if_pos rfl]
      constructor
      · rintro ⟨⟩
      · rintro ⟨hother, hsame⟩
        split at hother
        · cases hother
        · have hboth := (h.mirrored n.key other).mpr ⟨hother, hsame⟩
          obtain rfl := Option.some.inj (hboth.symm.trans hstands)
          exact absurd rfl ‹_›
    · rw [if_neg hkey, h.mirrored]
      have hapart (hother : r.published.get? other.service = some other) (hsame : other.key = key) :
          other.service ≠ n.service := by
        intro hservice
        rw [hservice, hn] at hother
        obtain rfl := Option.some.inj hother
        exact hkey hsame.symm
      constructor
      · rintro ⟨hother, hsame⟩
        exact ⟨by rw [if_neg (hapart hother hsame), hother], hsame⟩
      · rintro ⟨hother, hsame⟩
        split at hother
        · cases hother
        · exact ⟨hother, hsame⟩

end Lists

namespace World

variable {w : World} {now : Instant} {move : Move} {r : Registry}

/-- One move of the one registry, or of others. A steady one has each component on the list
at one key only. -/
theorem lists_step (hopen : w.memory.closed = false) (hone : w.registries = [r])
    (h : Lists r w.standing) (hsteady : w.steady now move = true) :
    ∃ r', (w.step now move).registries = [r'] ∧ Lists r' (w.step now move).standing := by
  have honly {i : Nat} {r' : Registry} (hr : w.registries[i]? = some r') : i = 0 ∧ r' = r := by
    rw [hone, List.getElem?_singleton] at hr
    split at hr
    · exact ⟨‹i = 0›, (Option.some.inj hr).symm⟩
    · cases hr
  have heffect := step_effect hopen now move
  generalize w.step now move = w' at heffect ⊢
  cases heffect with
  | beside hbeside => exact ⟨r, hone, h⟩
  | publish ttl deadline hr hisolate hservice hkey hid hm hrenewing =>
      obtain ⟨rfl, rfl⟩ := honly hr
      subst hservice
      simp only [steady, hisolate, hr, Bool.false_or, Option.all_some, List.all_eq_true,
        decide_eq_true_iff, ← hkey] at hsteady
      exact ⟨_, by rw [hone]; rfl, h.publish hsteady⟩
  | withdraw hr hn =>
      obtain ⟨rfl, rfl⟩ := honly hr
      exact ⟨_, by rw [hone]; rfl, h.withdraw hn⟩

/-- So over a steady run the registry lists exactly what stands. -/
theorem lists_run {moves : List (Instant × Move)} (hkeeps : w.memory.Keeps w.standing)
    (hone : w.registries = [r]) (h : Lists r w.standing) (horderly : w.Along orderly moves)
    (hsteady : w.Along steady moves) :
    ∃ r', (w.run moves).registries = [r'] ∧ Lists r' (w.run moves).standing := by
  induction moves generalizing w r with
  | nil => exact ⟨r, hone, h⟩
  | cons move rest ih =>
      obtain ⟨r', hone', h'⟩ := lists_step hkeeps.isOpen hone h hsteady.1
      exact ih (keeps_step hkeeps horderly.1) hone' h' horderly.2 hsteady.2

theorem run_append (w : World) (before later : List (Instant × Move)) :
    w.run (before ++ later) = (w.run before).run later := List.foldl_append

theorem node?_unregister (w : World) (now : Instant) (i : Nat) (component : String) :
    (w.step now (.unregister i component)).node? i component = none := by
  cases hr : w.registries[i]? with
  | none => simp only [step, hr, node?, Option.bind_none]
  | some r =>
      have hlength := (List.getElem?_eq_some_iff.mp hr).1
      simp only [step, hr, node?, List.getElem?_set_self hlength, Option.bind_some]
      exact r.node?_unregister component (Memory.backend now) w.memory

end World

/-- What one registry lists is what is stored and renewed under the service root, and
once a component is withdrawn, no key is its own: as long as renewals come in time
and heed their stop, others keep away, and a registered component and its key
determine each other. -/
theorem published_as_registered (limit : Nat) (ttl : Span) {moves : List (Instant × Move)}
    (horderly : (World.start limit [ttl]).Along World.orderly moves)
    (hsteady : (World.start limit [ttl]).Along World.steady moves) :
    let w := (World.start limit [ttl]).run moves
    ∃ r, w.registries = [r] ∧
      ∀ key, Key.startsWith Key.serviceRoot key = true →
        (∀ value, w.memory.store.value? key = some value ↔
          ∃ n ∈ r.nodes, n.key = key ∧ n.encode = value) ∧
        (w.memory.renews key = true ↔ ∃ n ∈ r.nodes, n.key = key) ∧
        ∀ before now component, moves = before ++ [(now, .unregister 0 component)] →
          w.memory.store.value? key ≠ none ∨ w.memory.renews key = true →
          ∃ n ∈ r.nodes, n.key = key ∧ n.service ≠ component := by
  intro w
  have hstart : (World.start limit [ttl]).memory.Keeps ∅ := Memory.Keeps.create limit
  have hkeeps : w.memory.Keeps w.standing := World.keeps_run hstart horderly
  have hempty : Lists (Registry.create ttl) ∅ := ⟨nofun, fun _ _ => ⟨nofun, nofun⟩⟩
  obtain ⟨r, hone, hlists⟩ := World.lists_run hstart rfl hempty horderly hsteady
  have hstands (key : String) (n : Node) :
      w.standing.get? key = some n ↔ n ∈ r.nodes ∧ n.key = key := by
    rw [hlists.mirrored, hlists.mem_nodes]
  refine ⟨r, hone, ?_⟩
  intro key hroot
  have hstored (value : String) : w.memory.store.value? key = some value ↔
      ∃ n ∈ r.nodes, n.key = key ∧ n.encode = value := by
    rw [hkeeps.stored key hroot, Option.map_eq_some_iff]
    constructor
    · rintro ⟨n, hn, hencode⟩
      exact ⟨n, ((hstands key n).mp hn).1, ((hstands key n).mp hn).2, hencode⟩
    · rintro ⟨n, hn, hkey, hencode⟩
      exact ⟨n, (hstands key n).mpr ⟨hn, hkey⟩, hencode⟩
  have hrenewed : w.memory.renews key = true ↔ ∃ n ∈ r.nodes, n.key = key := by
    rw [Memory.renews_iff hkeeps.isOpen]
    constructor
    · rintro ⟨job, hjob, rfl, hgoes⟩
      rcases hkeeps.renewals job hjob hroot with ⟨hcancelled, -⟩ | ⟨-, n, hn, -⟩
      · exact absurd (hgoes.symm.trans hcancelled) Bool.false_ne_true
      · exact ⟨n, (hstands job.key n).mp hn⟩
    · rintro ⟨n, hn, hkey⟩
      exact hkeeps.renewed key n ((hstands key n).mpr ⟨hn, hkey⟩)
  refine ⟨hstored, hrenewed, ?_⟩
  rintro before now component rfl hleft
  have hlisted : ∃ n ∈ r.nodes, n.key = key := by
    rcases hleft with hvalue | hrenews
    · obtain ⟨value, hvalue⟩ := Option.ne_none_iff_exists'.mp hvalue
      obtain ⟨n, hn, hkey, -⟩ := (hstored value).mp hvalue
      exact ⟨n, hn, hkey⟩
    · exact hrenewed.mp hrenews
  obtain ⟨n, hn, hkey⟩ := hlisted
  refine ⟨n, hn, hkey, ?_⟩
  rintro rfl
  have hgone : w.node? 0 n.service = none := by
    rw [show w = _ from World.run_append _ _ _]
    exact World.node?_unregister _ now 0 n.service
  rw [World.node?, hone] at hgone
  exact absurd (hgone.symm.trans (hlists.mem_nodes.mp hn)) nofun

def sampleOptions : RegisterOptions := ⟨false, none, []⟩

/-- Two components are registered, the first is renewed and then withdrawn. -/
def sampleMoves : List (Instant × Move) := [
  (⟨0⟩, .register 0 "a" "x" sampleOptions),
  (⟨0⟩, .register 0 "b" "y" sampleOptions),
  (⟨10 * nanosPerSecond⟩, .backend (.wake 0)),
  (⟨10 * nanosPerSecond⟩, .backend (.work 0)),
  (⟨11 * nanosPerSecond⟩, .unregister 0 "a"),
  (⟨11 * nanosPerSecond⟩, .backend .sweep)]

/-- After the first component is withdrawn the key of the second is the only one under the
root that is renewed, and it is what the registry lists. -/
theorem published_as_registered_withdrawn :
    let w₀ := World.start 8 [.ofSeconds 30]
    let w := w₀.run sampleMoves
    w₀.Along World.orderly sampleMoves ∧ w₀.Along World.steady sampleMoves ∧
      ∀ key, Key.startsWith Key.serviceRoot key = true →
        (w.memory.renews key = true ↔ key = "service/b/y") := by
  intro w₀ w
  have horderly : w₀.Along World.orderly sampleMoves := by
    refine ⟨?_, ?_, ?_, ?_, ?_, ?_, trivial⟩ <;> decide +kernel
  have hsteady : w₀.Along World.steady sampleMoves := by
    refine ⟨?_, ?_, ?_, ?_, ?_, ?_, trivial⟩ <;> decide +kernel
  refine ⟨horderly, hsteady, ?_⟩
  intro key hroot
  obtain ⟨r, hone, hkeys⟩ := published_as_registered 8 (.ofSeconds 30) horderly hsteady
  have hlisted : w.registries.map (fun r => r.nodes.map Node.key) = [["service/b/y"]] := by
    decide +kernel
  rw [(hkeys key hroot).2.1]
  rw [show w.registries = [r] from hone] at hlisted
  have hnodes := (List.cons.inj hlisted).1
  rw [← List.mem_singleton, ← hnodes, List.mem_map]

/-- A component that is registered at a second address leaves the first published and
renewed, unlisted, also when it is withdrawn. -/
theorem registered_twice :
    let moves := [((⟨0⟩ : Instant), Move.register 0 "a" "x" sampleOptions),
      (⟨0⟩, .register 0 "a" "y" sampleOptions)]
    let w := (World.start 8 [.ofSeconds 30]).run moves
    let w' := w.step ⟨0⟩ (.unregister 0 "a")
    w.orderly ⟨0⟩ (.unregister 0 "a") = true ∧
      w.registries.map (fun r => r.nodes.map Node.key) = [["service/a/y"]] ∧
      (w.memory.store.value? "service/a/x").isSome = true ∧
      w.memory.renews "service/a/x" = true ∧
      w'.registries.map (fun r => r.nodes.map Node.key) = [[]] ∧
      (w'.memory.store.value? "service/a/x").isSome = true ∧
      w'.memory.renews "service/a/x" = true := by
  decide +kernel

end Publishing

end Rollcall
