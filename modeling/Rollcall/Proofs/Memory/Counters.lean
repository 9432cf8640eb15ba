import Rollcall.Proofs.Key
import Rollcall.Proofs.Memory.Renewals
import Rollcall.Proofs.Text

/-!
Counters of a backend in memory. A counter is an entry like any other, decimal text
among entries that lapse, are renewed and are deleted. It has no deadline, so no sweep
takes it, and no renewal has its key; as long as nobody else writes the keys of
counters, each stands at the number of its increments. Main statements:
`Counted.others` and `Counted.increment`.
-/

namespace Rollcall

namespace Store

variable {s : Store} {key : String}

theorem get?_apply_of_not_touches {u : Update} (h : ¬ u.touches key) :
    (s.apply u).entries.get? key = s.entries.get? key := by
  cases u with
  | put other value deadline =>
      simp only [apply, put, publish, Table.get?_insert, if_neg (Ne.symm h)]
  | remove other =>
      simp only [apply, remove]
      cases s.entries.get? other with
      | none => rfl
      | some e => simp only [publish, Table.get?_erase, if_neg (Ne.symm h)]
  | extend other deadline =>
      simp only [apply, extend]
      cases s.entries.get? other with
      | none => rfl
      | some e => simp only [Table.get?_insert, if_neg (Ne.symm h)]
  | compact revision => rfl
  | refreshAll => rfl
  | watch scope version => rfl
  | receive id => rfl
  | drain id => rfl
  | dropWatch id => rfl
  | closeAll => rfl

/-- Updates that touch other keys only leave the entry of a key exactly as it is, its
version and deadline included. -/
theorem get?_applyAll_of_not_touches {us : List Update} (h : ∀ u ∈ us, ¬ u.touches key) :
    (s.applyAll us).entries.get? key = s.entries.get? key := by
  induction us generalizing s with
  | nil => rfl
  | cons u rest ih =>
      rw [applyAll_cons, ih (fun v hv => h v (List.mem_cons_of_mem _ hv)),
        get?_apply_of_not_touches (h u List.mem_cons_self)]

end Store

namespace Memory

variable {m : Memory} {now : Instant} {a : Action} {key : String}

theorem counter_bounds {s : Store} {n : Int} (h : counter s key = .ok n) :
    -0x8000000000000000 ≤ n ∧ n < 0x8000000000000000 := by
  unfold counter at h
  split at h
  · obtain rfl := Except.ok.inj h
    decide
  · split at h
    · rename_i hread
      obtain rfl := Except.ok.inj h
      exact Decimal.readInt64_bounds hread
    · cases h

/-- An increment counts on by one, or leaves everything as it is: on a closed backend,
where no number is stored, and at the greatest. -/
theorem increment_cases (m : Memory) (key : String) :
    m.closed = true ∧ m.increment key = (.error (.error .closed), m) ∨
    m.closed = false ∧
      ((∃ e, counter m.store key = .error e ∧ m.increment key = (.error (.error e), m)) ∨
        counter m.store key = .ok 0x7fffffffffffffff ∧ m.increment key = (.error .crash, m) ∨
        ∃ n, counter m.store key = .ok n ∧ -0x8000000000000000 ≤ n ∧ n + 1 < 0x8000000000000000 ∧
          m.increment key = (.ok (n + 1),
            { m with store := m.store.put key (Decimal.showInt (n + 1)) none })) := by
  cases hclosed : m.closed with
  | true => exact .inl ⟨rfl, by rw [increment, if_pos hclosed]⟩
  | false =>
      refine .inr ⟨rfl, ?_⟩
      simp only [increment, hclosed, Bool.false_eq_true, if_false]
      cases hcount : counter m.store key with
      | error e => exact .inl ⟨e, rfl, rfl⟩
      | ok n =>
          obtain ⟨hlow, hhigh⟩ := counter_bounds hcount
          by_cases hnext : n + 1 < 0x8000000000000000
          · exact .inr (.inr ⟨n, rfl, hlow, hnext, if_pos hnext⟩)
          · obtain rfl : n = 0x7fffffffffffffff := by omega
            exact .inr (.inl ⟨rfl, rfl⟩)

theorem extend_mem_updates {deadline : Option Instant}
    (h : .extend key deadline ∈ m.updates now a) :
    ∃ i r, a = .work i ∧ m.jobs[i]? = some (.renewal r) ∧ r.key = key := by
  cases origin h with
  | renewed ha hjob _ _ hu =>
      refine ⟨_, _, ha, hjob, ?_⟩
      rcases m.store.renewal_cases _ _ _ with hextend | hput
      · exact (Store.Update.extend.inj (hu.trans hextend)).1.symm
      · cases hu.trans hput
  | aside hu => exact absurd rfl (hu key)
  | expired _ hu | written _ _ _ hu | counted _ _ _ hu | deleted _ _ hu => cases hu

/-- An entry that nobody writes, deletes or renews and that is not overdue stays as it
is. -/
theorem get?_act_of_not_worked (hwrites : ∀ value, ¬ a.writes key value) (hdelete : a ≠ .delete key)
    (hfresh : key ∉ m.store.overdue now)
    (hworks : ∀ i r, a = .work i → m.jobs[i]? = some (.renewal r) → r.key ≠ key) :
    (m.act now a).store.entries.get? key = m.store.entries.get? key := by
  rw [store_act]
  refine Store.get?_applyAll_of_not_touches ?_
  intro u hu htouches
  cases u with
  | put k value deadline =>
      obtain rfl : k = key := htouches
      rcases put_mem_updates hu with ⟨-, hcaller⟩ | ⟨i, r, ha, hjob, -, hkey, -⟩
      · exact hwrites value hcaller
      · exact hworks i r ha hjob hkey
  | remove k =>
      obtain rfl : k = key := htouches
      rcases remove_mem_updates hu with hcaller | hoverdue
      · exact hdelete hcaller
      · exact hfresh hoverdue
  | extend k deadline =>
      obtain rfl : k = key := htouches
      obtain ⟨i, r, ha, hjob, hkey⟩ := extend_mem_updates hu
      exact hworks i r ha hjob hkey
  | _ => exact htouches

/-- The same from what can be seen before the action: nobody writes or deletes the key, it
is not overdue, and no renewal is under way for it, awake or asleep. -/
theorem get?_act (hwrites : ∀ value, ¬ a.writes key value) (hdelete : a ≠ .delete key)
    (hfresh : key ∉ m.store.overdue now) (hunrenewed : ∀ r, .renewal r ∈ m.jobs → r.key ≠ key) :
    (m.act now a).store.entries.get? key = m.store.entries.get? key :=
  get?_act_of_not_worked hwrites hdelete hfresh
    (fun _ r _ hjob => hunrenewed r (List.mem_of_getElem? hjob))

/-- A caller keeps off the keys that start with `root`, and does not close the
backend. -/
def Action.keepsOff (root : String) : Action → Bool
  | .set key _ _ | .keepAlive key _ _ | .delete key | .increment key => !Key.startsWith root key
  | .close => false
  | _ => true

section KeepsOff

variable {root : String}

/-- A caller who keeps off a root cannot write below it by any of the calls that write, an
increment included. -/
theorem Action.not_writes_of_keepsOff (h : a.keepsOff root = true)
    (hkey : Key.startsWith root key = true) (value : String) : ¬ a.writes key value := by
  intro hwrites
  cases a <;> simp_all [keepsOff, writes]

theorem Action.ne_delete_of_keepsOff (h : a.keepsOff root = true)
    (hkey : Key.startsWith root key = true) : a ≠ .delete key := by
  rintro rfl
  simp [keepsOff, hkey] at h

theorem Action.ne_close_of_keepsOff (h : a.keepsOff root = true) : a ≠ .close := by
  rintro rfl
  cases h

def Unrenewed (root : String) (m : Memory) : Prop :=
  ∀ r, .renewal r ∈ m.jobs → Key.startsWith root r.key = false

/-- No job begins to renew below a root that all callers keep off, so the counters, which
are never registered, are never renewed. -/
theorem Unrenewed.act (h : m.Unrenewed root) (hoff : a.keepsOff root = true) (now : Instant) :
    (m.act now a).Unrenewed root := by
  intro r hr
  rcases renewal_origin hr with ⟨r₀, hr₀, hbecomes⟩ | ⟨-, rfl, -⟩
  · rw [hbecomes.key]
    exact h r₀ hr₀
  · simpa only [Action.keepsOff, Bool.not_eq_true'] using hoff

end KeepsOff

/-- The counter under a key stands at a number: it is its decimal, for good, or has
not been written yet. -/
def StandsAt (m : Memory) (key : String) : Nat → Prop
  | 0 => m.store.entries.get? key = none
  | n + 1 => ∃ version,
      m.store.entries.get? key = some ⟨Decimal.showInt (n + 1 : Nat), version, none⟩

namespace StandsAt

variable {n : Nat}

theorem congr {m' : Memory} (h : m.StandsAt key n)
    (hentry : m'.store.entries.get? key = m.store.entries.get? key) : m'.StandsAt key n := by
  cases n with
  | zero => exact hentry.trans h
  | succ n =>
      obtain ⟨version, hfound⟩ := h
      exact ⟨version, hentry.trans hfound⟩

theorem not_overdue (h : m.StandsAt key n) (now : Instant) : key ∉ m.store.overdue now := by
  intro hoverdue
  obtain ⟨e, hentry, hlate⟩ := Store.mem_overdue.mp hoverdue
  cases n with
  | zero => exact absurd (hentry.symm.trans h) nofun
  | succ n =>
      obtain ⟨version, hfound⟩ := h
      obtain rfl := Option.some.inj (hentry.symm.trans hfound)
      cases hlate

theorem counter_eq (h : m.StandsAt key n) (hn : (n : Int) < 0x8000000000000000) :
    counter m.store key = .ok n := by
  cases n with
  | zero =>
      have hnone : m.store.entries.get? key = none := h
      simp only [counter, hnone, Int.natCast_zero]
  | succ n =>
      obtain ⟨version, hfound⟩ := h
      have hlimit : (Decimal.int64Limit : Int) = 0x8000000000000000 := rfl
      have hread := Decimal.readInt64_showInt (n := (n + 1 : Nat)) (by omega) (by omega)
      simp only [counter, hfound, hread]

/-- One increment: it answers the next number and leaves the counter there, as long as that
number still fits into 64 bits. -/
theorem increment_eq (h : m.StandsAt key n) (hopen : m.closed = false)
    (hn : (n : Int) + 1 < 0x8000000000000000) (now : Instant) :
    m.increment key = (.ok (n + 1), m.act now (.increment key)) ∧
      (m.act now (.increment key)).StandsAt key (n + 1) := by
  have hcall : m.increment key =
      (.ok (n + 1), { m with store := m.store.put key (Decimal.showInt (n + 1)) none }) := by
    simp only [increment, hopen, Bool.false_eq_true, if_false, h.counter_eq (by omega), hn, if_true]
  have hact : m.act now (.increment key) =
      { m with store := m.store.put key (Decimal.showInt (n + 1)) none } :=
    congrArg Prod.snd hcall
  refine ⟨by rw [hact, hcall], m.store.revision + 1, ?_⟩
  rw [hact]
  simp only [Store.put, Store.publish, Table.get?_insert, if_true, Int.natCast_succ]

end StandsAt

/-- The counter of every component stands at its number, on an open backend that
renews no counter. -/
structure Counted (m : Memory) (count : String → Nat) : Prop where
  isOpen : m.closed = false
  stands : ∀ component, m.StandsAt (Key.nodeId component) (count component)
  unrenewed : m.Unrenewed Key.nodeIdRoot

namespace Counted

variable {count : String → Nat}

theorem create (limit : Nat) : (create limit).Counted (fun _ => 0) where
  isOpen := rfl
  stands := fun _ => rfl
  unrenewed := nofun

theorem ne_nodeId (h : m.Counted count) (component : String) (r : Renewal)
    (hr : .renewal r ∈ m.jobs) : r.key ≠ Key.nodeId component := by
  intro hkey
  have hoff := h.unrenewed r hr
  rw [hkey, Key.startsWith_nodeIdRoot_nodeId] at hoff
  cases hoff

/-- Expiry, sweeps, renewals, compaction and other keys leave every counter alone. -/
theorem others (h : m.Counted count) (hoff : a.keepsOff Key.nodeIdRoot = true) (now : Instant) :
    (m.act now a).Counted count where
  isOpen := isOpen_act h.isOpen (Action.ne_close_of_keepsOff hoff) now
  stands := by
    intro component
    have hroot := Key.startsWith_nodeIdRoot_nodeId component
    exact (h.stands component).congr (get?_act (Action.not_writes_of_keepsOff hoff hroot)
      (Action.ne_delete_of_keepsOff hoff hroot) ((h.stands component).not_overdue now)
      (h.ne_nodeId component))
  unrenewed := h.unrenewed.act hoff now

/-- An increment takes the next number of its component, and of no other. -/
theorem increment (h : m.Counted count) (component : String)
    (hn : (count component : Int) + 1 < 0x8000000000000000) (now : Instant) :
    m.increment (Key.nodeId component) =
        (.ok (count component + 1), m.act now (.increment (Key.nodeId component))) ∧
      (m.act now (.increment (Key.nodeId component))).Counted
        (fun c => if c = component then count c + 1 else count c) := by
  obtain ⟨hcall, hstands⟩ := (h.stands component).increment_eq h.isOpen hn now
  refine ⟨hcall, isOpen_act (a := .increment _) h.isOpen nofun now, ?_, ?_⟩
  · intro other
    by_cases hother : other = component
    · subst hother
      rw [if_pos rfl]
      exact hstands
    · rw [if_neg hother]
      refine (h.stands other).congr (get?_act ?_ nofun ((h.stands other).not_overdue now)
        (h.ne_nodeId other))
      intro value hwrites
      exact hother (Key.nodeId_injective hwrites).symm
  · intro r hr
    rw [jobs_act rfl] at hr
    exact h.unrenewed r hr

end Counted

end Memory

end Rollcall
