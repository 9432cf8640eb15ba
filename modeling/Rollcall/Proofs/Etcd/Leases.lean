import Rollcall.Etcd.Client
import Rollcall.Proofs.Table

/-!
What requests do to the leases of a server and to the record of a key, and what
one step of a keeper may do to both. Main statement: `Keeper.step_outcome`.
-/

namespace Rollcall.Etcd

namespace Server

/-- The same records and leases; the rest may differ. -/
structure Agrees (s s' : Server) : Prop where
  revision : s'.revision = s.revision
  records : s'.records = s.records
  leases : s'.leases = s.leases
  nextLease : s'.nextLease = s.nextLease

/-- A lease that stands; zero, which is none, always does. -/
def Holds (s : Server) (lease : Int) : Prop := lease = 0 ∨ s.leases.contains lease = true

instance (s : Server) (lease : Int) : Decidable (s.Holds lease) :=
  inferInstanceAs (Decidable (_ ∨ _))

/-- The value that a key shows, and the lease that it is bound to. -/
def shown (s : Server) (key : String) : Option (Bytes × Int) :=
  (s.record? key).map (fun r => (r.value, r.lease))

/-- A key that was put under a lease: it shows the value, unless the lease is gone. -/
def Keeps (s : Server) (key value : String) (lease : Int) : Prop :=
  s.shown key = some (Text.utf8 value, lease) ∨ s.shown key = none ∧ ¬ s.Holds lease

section

variable {s s' m : Server} {lease other : Int}

theorem Agrees.refl (s : Server) : Agrees s s := ⟨rfl, rfl, rfl, rfl⟩

theorem Agrees.trans (h : Agrees s m) (h' : Agrees m s') : Agrees s s' :=
  ⟨h'.revision.trans h.revision, h'.records.trans h.records, h'.leases.trans h.leases,
    h'.nextLease.trans h.nextLease⟩

theorem Agrees.shown_eq (h : Agrees s s') (key : String) : s'.shown key = s.shown key := by
  rw [shown, shown, record?, record?, h.records]

theorem Agrees.holds_iff (h : Agrees s s') : s'.Holds lease ↔ s.Holds lease := by
  rw [Holds, Holds, h.leases]

/-- To note a request, and to use up a failure that was arranged for it, changes no record
and no lease. -/
theorem note_agrees (s : Server) (r : Request) : Agrees s (s.note r).2 := by
  unfold note
  simp only
  split <;> exact ⟨rfl, rfl, rfl, rfl⟩

theorem request_cases {α : Type} {r : Request} {answer : Server → Except String α × Server}
    {P : Except String α × Server → Prop} (hfailed : ∀ text m, Agrees s m → P (.error text, m))
    (hanswer : ∀ m, Agrees s m → P (answer m)) : P (request r answer s) := by
  have hagrees := note_agrees s r
  unfold request
  rcases hnote : s.note r with ⟨text | _, m⟩
  · rw [hnote] at hagrees
    exact hanswer m hagrees
  · rw [hnote] at hagrees
    exact hfailed _ m hagrees

def grant (s : Server) (ttl : Int) : Server :=
  { s with leases := s.leases.insert s.nextLease ttl, nextLease := s.nextLease + 1 }

/-- A lease that is asked for is refused, or it is the next one. -/
theorem requestLease_spec (ttl : Int) (s : Server) : ∃ m, Agrees s m ∧
    ((∃ text, s.requestLease ttl = (.error text, m)) ∨
      s.requestLease ttl = (.ok s.nextLease, m.grant ttl)) := by
  refine request_cases (P := fun out => ∃ m, Agrees s m ∧
    ((∃ text, out = (.error text, m)) ∨ out = (.ok s.nextLease, m.grant ttl))) ?_ ?_
  · intro text m hm
    exact ⟨m, hm, .inl ⟨text, rfl⟩⟩
  · intro m hm
    rw [← hm.nextLease]
    exact ⟨m, hm, .inr rfl⟩

theorem requestPut_spec (key value : String) (lease : Int) (s : Server) : ∃ m, Agrees s m ∧
    ((∃ text, s.requestPut key value lease = (.error text, m)) ∨
      s.requestPut key value lease =
        (.ok (), m.put (Text.utf8 key) (Text.utf8 value) lease)) := by
  refine request_cases (P := fun out => ∃ m, Agrees s m ∧ ((∃ text, out = (.error text, m)) ∨
    out = (.ok (), m.put (Text.utf8 key) (Text.utf8 value) lease))) ?_ ?_
  · intro text m hm
    exact ⟨m, hm, .inl ⟨text, rfl⟩⟩
  · intro m hm
    exact ⟨m, hm, .inr rfl⟩

theorem requestRevoke_spec (lease : Int) (s : Server) :
    Agrees s (s.requestRevoke lease).2 ∨
      ∃ m, Agrees s m ∧ m.dropLease lease = some (s.requestRevoke lease).2 := by
  refine request_cases (P := fun out => Agrees s out.2 ∨
    ∃ m, Agrees s m ∧ m.dropLease lease = some out.2) ?_ ?_
  · intro text m hm
    exact .inl hm
  · intro m hm
    cases hdrop : m.dropLease lease with
    | none => exact .inl hm
    | some s' => exact .inr ⟨m, hm, hdrop⟩

theorem requestKeeper_agrees (lease : Int) (s : Server) :
    Agrees s (s.requestKeeper lease).2 := by
  refine request_cases (P := fun out => Agrees s out.2) (fun _ _ hm => hm) ?_
  intro m hm
  split <;> exact hm

theorem requestRenewal_agrees (lease : Int) (s : Server) :
    Agrees s (s.requestRenewal lease).2 :=
  request_cases (P := fun out => Agrees s out.2) (fun _ _ hm => hm) (fun _ hm => hm)

theorem requestRenewed_agrees (lease : Int) (s : Server) :
    Agrees s (s.requestRenewed lease).2 := by
  refine request_cases (P := fun out => Agrees s out.2) (fun _ _ hm => hm) ?_
  intro m hm
  refine hm.trans ?_
  split <;> exact ⟨rfl, rfl, rfl, rfl⟩

/-- A put shows under its own key, with the lease that it is bound to. -/
theorem shown_put (s : Server) (key : String) (bytes value : Bytes) (lease : Int) :
    (s.put bytes value lease).shown key =
      if Text.utf8 key = bytes then some (value, lease) else s.shown key := by
  simp only [shown, record?, put, Table.get?_insert]
  split <;> rfl

theorem shown_delete (s : Server) {key : String} {bytes : Bytes} (h : bytes ≠ Text.utf8 key) :
    (s.delete bytes).shown key = s.shown key := by
  unfold delete
  split
  · simp only [shown, record?, Table.get?_erase, if_neg h.symm]
  · rfl

/-- A lease that is dropped was there; its records go with it, and no other lease does. -/
theorem dropLease_spec (h : s.dropLease lease = some s') :
    s.leases.contains lease = true ∧ s'.leases = s.leases.erase lease ∧
      s'.nextLease = s.nextLease ∧
      s'.records = s.records.filter (fun _ r => r.lease ≠ lease) := by
  unfold dropLease at h
  split at h
  · obtain rfl := Option.some.inj h
    exact ⟨by assumption, rfl, rfl, rfl⟩
  · cases h

theorem shown_dropLease (h : s.dropLease lease = some s') (key : String) :
    s'.shown key = (s.shown key).filter (fun r => r.2 ≠ lease) := by
  obtain ⟨-, -, -, hrecords⟩ := dropLease_spec h
  rw [shown, shown, record?, record?, hrecords, Table.get?_filter, Option.filter_map]
  rfl

theorem holds_dropLease (h : s.dropLease lease = some s') (hother : other ≠ lease) :
    s'.Holds other ↔ s.Holds other := by
  obtain ⟨-, hleases, -, -⟩ := dropLease_spec h
  simp only [Holds, hleases, Table.contains, Table.get?_erase, if_neg hother]

/-- A lease that is dropped is gone for good, since leases are numbered on. -/
theorem not_holds_dropLease (h : s.dropLease lease = some s') (hlease : lease ≠ 0) :
    ¬ s'.Holds lease := by
  obtain ⟨-, hleases, -, -⟩ := dropLease_spec h
  simp [Holds, hleases, Table.contains, Table.get?_erase, hlease]

theorem holds_grant {ttl : Int} (hlease : lease ≠ s.nextLease) :
    (s.grant ttl).Holds lease ↔ s.Holds lease := by
  simp only [Holds, grant, Table.contains, Table.get?_insert, if_neg hlease]

section

variable {key value : String}

theorem Keeps.congr (h : s.Keeps key value lease) (hshown : s'.shown key = s.shown key)
    (hholds : s'.Holds lease ↔ s.Holds lease) : s'.Keeps key value lease := by
  unfold Keeps
  rw [hshown, hholds]
  exact h

/-- As long as its lease stands a key that is kept shows its value. -/
theorem Keeps.shown_of_holds (h : s.Keeps key value lease) (hholds : s.Holds lease) :
    s.shown key = some (Text.utf8 value, lease) := by
  rcases h with hshown | ⟨-, hgone⟩
  · exact hshown
  · exact absurd hholds hgone

theorem Keeps.of_ne (h : s.Keeps key value lease) (hdrop : s.dropLease other = some s')
    (hne : lease ≠ other) : s'.shown key = s.shown key := by
  rw [shown_dropLease hdrop]
  rcases h with hshown | ⟨hnone, -⟩
  · simp [hshown, hne]
  · simp [hnone]

/-- A key stays kept whichever lease is dropped: with its own it is gone, and nothing has to
be shown any more. -/
theorem Keeps.dropLease (h : s.Keeps key value lease) (hdrop : s.dropLease other = some s')
    (hpositive : other ≠ 0) : s'.Keeps key value lease := by
  by_cases heq : lease = other
  · obtain rfl := heq
    right
    rw [shown_dropLease hdrop]
    refine ⟨?_, not_holds_dropLease hdrop hpositive⟩
    rcases h with hshown | ⟨hnone, -⟩
    · simp [hshown]
    · simp [hnone]
  · exact h.congr (h.of_ne hdrop heq) (holds_dropLease hdrop heq)

end

/-- A server whose leases are all from before the one that it will grant next. -/
structure Fresh (s : Server) : Prop where
  positive : 0 < s.nextLease
  granted : ∀ lease, s.leases.contains lease = true → 0 < lease ∧ lease < s.nextLease

structure Leads (key : String) (s s' : Server) : Prop where
  fresh : s'.Fresh
  grows : s.nextLease ≤ s'.nextLease
  keeps : ∀ value lease, lease < s.nextLease → s.Keeps key value lease → s'.Keeps key value lease

section

variable {key : String}

theorem Agrees.leads (key : String) (hf : s.Fresh) (h : Agrees s s') : s.Leads key s' where
  fresh := by
    refine ⟨by rw [h.nextLease]; exact hf.positive, ?_⟩
    rw [h.leases, h.nextLease]
    exact hf.granted
  grows := Int.le_of_eq h.nextLease.symm
  keeps := fun _ _ _ hkeeps => hkeeps.congr (h.shown_eq key) h.holds_iff

/-- Two changes that put nothing under a key, one after the other, put nothing under it. -/
theorem Leads.trans (h : s.Leads key m) (h' : m.Leads key s') : s.Leads key s' where
  fresh := h'.fresh
  grows := Int.le_trans h.grows h'.grows
  keeps := by
    intro value lease hlease hkeeps
    have := h.grows
    exact h'.keeps value lease (by omega) (h.keeps value lease hlease hkeeps)

/-- The lease that is granted is a new one, so it keeps no key yet. -/
theorem Fresh.grant (hf : s.Fresh) (ttl : Int) : s.Leads key (s.grant ttl) where
  fresh := by
    have hpositive := hf.positive
    refine ⟨by simp only [Server.grant]; omega, ?_⟩
    intro lease hlease
    simp only [Server.grant, Table.contains, Table.get?_insert] at hlease ⊢
    split at hlease
    · omega
    · have := hf.granted lease hlease
      omega
  grows := by
    simp only [Server.grant]
    omega
  keeps := fun _ _ hlease hkeeps => hkeeps.congr rfl (holds_grant (by omega))

theorem Fresh.dropLease (hf : s.Fresh) (h : s.dropLease lease = some s') : s.Leads key s' := by
  obtain ⟨hheld, hleases, hnext, -⟩ := dropLease_spec h
  have hpositive := (hf.granted lease hheld).1
  refine ⟨⟨by rw [hnext]; exact hf.positive, ?_⟩, Int.le_of_eq hnext.symm, ?_⟩
  · intro other hother
    rw [hnext]
    rw [hleases, Table.contains, Table.get?_erase] at hother
    split at hother
    · cases hother
    · exact hf.granted other hother
  · intro value other _ hkeeps
    exact hkeeps.dropLease h (by omega)

theorem Fresh.put (hf : s.Fresh) {bytes : Bytes} (hother : bytes ≠ Text.utf8 key) (value : Bytes)
    (lease : Int) : s.Leads key (s.put bytes value lease) :=
  ⟨⟨hf.positive, hf.granted⟩, Int.le_refl _, fun _ _ _ hkeeps =>
    hkeeps.congr (by rw [shown_put, if_neg hother.symm]) Iff.rfl⟩

theorem Fresh.delete (hf : s.Fresh) {bytes : Bytes} (hother : bytes ≠ Text.utf8 key) :
    s.Leads key (s.delete bytes) := by
  have hshown := shown_delete s hother
  unfold Server.delete at hshown ⊢
  split at hshown
  · rename_i hfound
    rw [if_pos hfound]
    exact ⟨⟨hf.positive, hf.granted⟩, Int.le_refl _, fun _ _ _ hkeeps =>
      hkeeps.congr hshown Iff.rfl⟩
  · rename_i hmissing
    rw [if_neg hmissing]
    exact (Agrees.refl s).leads key hf

end

end

end Server

namespace Keeper

/-- What a step may make of a keeper and its server: it writes or gives back only
a lease of its own. -/
inductive Outcome (k : Keeper) (s : Server) : Option Keeper → Server → Prop where
  | quiet {s' : Server} (session : Bool) (phase : KeeperPhase) (hs : s.Agrees s')
      (hphase : ∀ lease, phase ≠ .writing lease) :
      Outcome k s (some { k with session, phase }) s'
  | granted {m : Server} (ttl : Int) (hs : s.Agrees m) :
      Outcome k s (some { k with phase := .writing s.nextLease }) (m.grant ttl)
  | wrote {m : Server} {lease : Int} (now : Instant) (hs : s.Agrees m)
      (hphase : k.phase = .writing lease) :
      Outcome k s (some { k with lease := some lease, phase := Link.asleep now k.ttl })
        (m.put (Text.utf8 k.key) (Text.utf8 k.value) lease)
  | finished {s' : Server} (hs : s.Agrees s') : Outcome k s none s'
  | revoked {m s' : Server} {lease : Int} (hs : s.Agrees m) (hphase : k.phase = .revoking)
      (hlease : k.lease = some lease) (hdrop : m.dropLease lease = some s') : Outcome k s none s'

def left : Progress Keeper → Option Keeper
  | .again k | .rest k => some k
  | .finished => none

section

variable {k : Keeper} {s s' : Server} {now : Instant} {closed : Bool}

theorem quiet_sleep (hs : s.Agrees s') : Outcome k s (left (k.sleep now)) s' :=
  .quiet k.session _ hs (by intro lease h; cases h)

theorem quiet_startOver (hs : s.Agrees s') : Outcome k s (left k.startOver) s' :=
  .quiet false _ hs (by intro lease h; cases h)

/-- One step of a keeper, whatever it finds: it sleeps or asks on with the lease that it
has, asks for a new one, puts under the one that it was granted, or gives its own back and
ends. -/
theorem step_outcome (k : Keeper) (now : Instant) (closed : Bool) (s : Server) :
    Outcome k s (left (k.step now closed s).1) (k.step now closed s).2 := by
  have hsame := Server.Agrees.refl s
  obtain ⟨key, value, ttl, held, session, phase, cancelled⟩ := k
  cases phase with
  | asleep t =>
      simp only [step]
      split
      · split
        · exact .quiet session .revoking hsame (by simp)
        · exact .finished hsame
      · split
        · exact .quiet session (.asleep t) hsame (by simp)
        · split
          · exact quiet_sleep hsame
          · exact .quiet session _ hsame (by intro lease; split <;> simp)
  | opening =>
      cases held with
      | none => exact .finished hsame
      | some lease =>
          have hs := Server.requestKeeper_agrees lease s
          simp only [step]
          rcases hanswer : s.requestKeeper lease with ⟨text | _, m⟩ <;> rw [hanswer] at hs
          · exact quiet_startOver hs
          · exact .quiet true .asking hs (by simp)
  | asking =>
      cases held with
      | none => exact .finished hsame
      | some lease =>
          have hs := Server.requestRenewal_agrees lease s
          simp only [step]
          rcases hanswer : s.requestRenewal lease with ⟨text | _, m⟩ <;> rw [hanswer] at hs
          · exact quiet_startOver hs
          · exact .quiet session .reading hs (by simp)
  | reading =>
      cases held with
      | none => exact .finished hsame
      | some lease =>
          have hs := Server.requestRenewed_agrees lease s
          simp only [step]
          rcases hanswer : s.requestRenewed lease with ⟨text | left?, m⟩ <;> rw [hanswer] at hs
          · exact quiet_startOver hs
          · cases left? with
            | none => exact quiet_startOver hs
            | some rest =>
                simp only
                split
                · exact quiet_sleep hs
                · exact quiet_startOver hs
  | granting =>
      obtain ⟨m, hm, ⟨text, hanswer⟩ | hanswer⟩ := s.requestLease_spec ttl.leaseSeconds
      · simp only [step, hanswer]
        exact quiet_sleep hm
      · simp only [step, hanswer]
        exact .granted _ hm
  | writing lease =>
      obtain ⟨m, hm, ⟨text, hanswer⟩ | hanswer⟩ := s.requestPut_spec key value lease
      · simp only [step, hanswer]
        exact quiet_sleep hm
      · simp only [step, hanswer]
        exact .wrote now hm rfl
  | revoking =>
      cases held with
      | none => exact .finished hsame
      | some lease =>
          simp only [step]
          rcases s.requestRevoke_spec lease with hs | ⟨m, hm, hdrop⟩
          · exact .finished hs
          · exact .revoked hm rfl rfl hdrop

end

end Keeper

end Rollcall.Etcd
