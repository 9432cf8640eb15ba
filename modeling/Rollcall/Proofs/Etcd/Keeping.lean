import Rollcall.Proofs.Etcd.Calls
import Rollcall.Proofs.Replacing

/-!
What becomes of a key that calls keep alive. A call that has returned tells the
keepers before it to stop, but a keeper notices only when it sleeps; until then it
may still write its own value, and take the key away at its end with its own lease
(`lease_outlives_key`). A lease that is not its own it never ends, and a key that was
put under another one it leaves alone, unless it puts it itself. Main statement:
`stays_kept`.
-/

namespace Rollcall.Etcd.Keeping

def Stage.Has (stage : Stage) (lease : Int) : Prop :=
  match stage with
  | .writing held | .installing held => held = some lease
  | .kept k => k.lease = some lease ∨ k.phase = .writing lease
  | _ => False

structure Call.Sound (key : String) (owned : Int → Prop) (call : Call) : Prop where
  owned : ∀ lease, call.stage.Has lease → owned lease
  keeper : ∀ k, call.stage = .kept k → k.key = key ∧ k.value = call.value

def World.Owns (w : World) (i : Nat) (lease : Int) : Prop := w.owners.get? lease = some i

structure Inv (key : String) (w : World) : Prop where
  fresh : w.server.Fresh
  owners : ∀ lease i, w.Owns i lease → 0 < lease ∧ lease < w.server.nextLease
  calls : ∀ i (call : Call), w.calls[i]? = some call → call.Sound key (w.Owns i)
  last : ∀ i lease, w.last = some (i, lease) → ∃ value, w.value? i = some value ∧
    (lease = 0 ∨ w.Owns i lease) ∧ w.server.Keeps key value lease

/-- Where a step takes a call: to a lease that it has, or was just granted. -/
structure Leaves (key : String) (call : Call) (granted : Option Int) (stage : Stage) : Prop where
  has : ∀ lease, stage.Has lease → call.stage.Has lease ∨ granted = some lease
  keeper : ∀ k, stage = .kept k → k.key = key ∧ k.value = call.value

inductive Effect (key : String) (w : World) (i : Nat) (call : Call) : World → Prop where
  | idle : Effect key w i call w
  | quiet {server : Server} {stage : Stage} (hs : w.server.Agrees server)
      (hstage : Leaves key call none stage) :
      Effect key w i call { w with server, calls := w.calls.set i { call with stage } }
  | granted {m : Server} {stage : Stage} (ttl : Int) (hs : w.server.Agrees m)
      (hstage : Leaves key call (some w.server.nextLease) stage) :
      Effect key w i call
        { w with
          server := m.grant ttl
          calls := w.calls.set i { call with stage }
          owners := w.owners.insert w.server.nextLease i }
  | put {m : Server} {stage : Stage} {lease : Int} (hs : w.server.Agrees m)
      (hlease : lease = 0 ∨ call.stage.Has lease) (hstage : Leaves key call none stage) :
      Effect key w i call
        { w with
          server := m.put (Text.utf8 key) (Text.utf8 call.value) lease
          calls := w.calls.set i { call with stage }
          last := some (i, lease) }
  | dropped {m server : Server} {lease : Int} (hs : w.server.Agrees m)
      (hlease : call.stage.Has lease) (hdrop : m.dropLease lease = some server) :
      Effect key w i call { w with server, calls := w.calls.set i { call with stage := .ended } }
  | installed (now : Instant) {lease : Option Int} (hstage : call.stage = .installing lease) :
      Effect key w i call (w.install key now i call lease)

section After

variable {key : String} {w : World} {i : Nat} {call : Call} {put : Option Int} {stage : Stage}
variable {server : Server}

theorem after_agrees (hs : w.server.Agrees server) :
    w.after i call put stage server =
      { w with server, calls := w.calls.set i { call with stage } } := by
  have hnext : ¬ w.server.nextLease < server.nextLease := by
    have := hs.nextLease
    omega
  have hrevision : ¬ w.server.revision < server.revision := by
    have := hs.revision
    omega
  unfold World.after
  rw [if_neg hnext]
  cases put with
  | none => rfl
  | some lease => simp only [if_neg hrevision]

/-- A grant gives the lease to the call, and changes nothing that a key shows. -/
theorem after_grant (hs : w.server.Agrees server) (ttl : Int) :
    w.after i call put stage (server.grant ttl) =
      { w with
        server := server.grant ttl
        calls := w.calls.set i { call with stage }
        owners := w.owners.insert w.server.nextLease i } := by
  have hnext : w.server.nextLease < (server.grant ttl).nextLease := by
    have := hs.nextLease
    simp only [Server.grant]
    omega
  have hrevision : ¬ w.server.revision < (server.grant ttl).revision := by
    have := hs.revision
    simp only [Server.grant]
    omega
  unfold World.after
  rw [if_pos hnext]
  cases put with
  | none => rfl
  | some lease => simp only [if_neg hrevision]

/-- A put makes the key show its value under its lease, and the call is the last that put
it. -/
theorem after_put (hs : w.server.Agrees server) (bytes value : Bytes) (lease : Int) :
    w.after i call (some lease) stage (server.put bytes value lease) =
      { w with
        server := server.put bytes value lease
        calls := w.calls.set i { call with stage }
        last := some (i, lease) } := by
  have hnext : ¬ w.server.nextLease < (server.put bytes value lease).nextLease := by
    have := hs.nextLease
    simp only [Server.put]
    omega
  have hrevision : w.server.revision < (server.put bytes value lease).revision := by
    have := hs.revision
    simp only [Server.put]
    omega
  unfold World.after
  simp only [if_neg hnext, if_pos hrevision]

theorem after_drop {m : Server} {lease : Int} (hs : w.server.Agrees m)
    (hdrop : m.dropLease lease = some server) :
    w.after i call none stage server =
      { w with server, calls := w.calls.set i { call with stage } } := by
  obtain ⟨-, -, hdropped, -⟩ := Server.dropLease_spec hdrop
  have hnext : ¬ w.server.nextLease < server.nextLease := by
    have := hs.nextLease
    omega
  unfold World.after
  rw [if_neg hnext]

end After

section Effect

variable {key : String} {w : World} {i : Nat} {call : Call} {k : Keeper}

theorem leaves_failed (granted : Option Int) : Leaves key call granted .failed where
  has := fun _ h => h.elim
  keeper := fun _ h => by cases h

theorem leaves_ended (granted : Option Int) : Leaves key call granted .ended where
  has := fun _ h => h.elim
  keeper := fun _ h => by cases h

theorem told_of_outcome {s server : Server} {next : Option Keeper}
    (h : Keeper.Outcome k s next server) :
    next.map (fun k' => { k' with cancelled := k.cancelled }) = next := by
  cases h <;> rfl

/-- The step of a keeper, whether it heeds that it is told to stop or not. -/
theorem effect_of_outcome (hsound : call.Sound key (w.Owns i)) (hk : call.stage = .kept k)
    (told : Bool) {next : Option Keeper} {server : Server}
    (h : Keeper.Outcome { k with cancelled := told } w.server next server) :
    Effect key w i call (w.after i call (writes? k)
      (.of (next.map (fun k' => { k' with cancelled := k.cancelled }))) server) := by
  obtain ⟨hkey, hvalue⟩ := hsound.keeper k hk
  cases h with
  | quiet session phase hs hphase =>
      rw [after_agrees hs]
      refine .quiet hs ⟨?_, ?_⟩
      · intro lease hhas
        left
        rw [hk]
        rcases hhas with hheld | hwriting
        · exact .inl hheld
        · exact absurd hwriting (hphase lease)
      · intro k' hk'
        obtain rfl := Stage.kept.inj hk'
        exact ⟨hkey, hvalue⟩
  | granted ttl hs =>
      rw [after_grant hs]
      refine .granted ttl hs ⟨?_, ?_⟩
      · intro lease hhas
        rcases hhas with hheld | hwriting
        · left
          rw [hk]
          exact .inl hheld
        · right
          exact congrArg some (KeeperPhase.writing.inj hwriting)
      · intro k' hk'
        obtain rfl := Stage.kept.inj hk'
        exact ⟨hkey, hvalue⟩
  | wrote now hs hphase =>
      rename_i m lease
      have hwrites : writes? k = some lease := by
        simp only at hphase
        simp only [writes?, hphase]
      simp only [hwrites, hkey, hvalue]
      rw [after_put hs]
      have hhas : call.stage.Has lease := by
        rw [hk]
        exact .inr hphase
      refine .put hs (.inr hhas) ⟨?_, ?_⟩
      · intro other hother
        left
        rcases hother with hheld | hwriting
        · obtain rfl := Option.some.inj hheld
          exact hhas
        · cases hwriting
      · intro k' hk'
        obtain rfl := Stage.kept.inj hk'
        exact ⟨rfl, rfl⟩
  | finished hs =>
      rw [after_agrees hs]
      exact .quiet hs (leaves_ended none)
  | revoked hs hphase hlease hdrop =>
      have hwrites : writes? k = none := by
        simp only at hphase
        simp only [writes?, hphase]
      rw [hwrites, after_drop hs hdrop]
      refine .dropped hs ?_ hdrop
      rw [hk]
      exact .inl hlease

/-- One step of a call or of its keeper does one of the things that `Effect` lists, whatever
the server answers. Of a keeper's step this is what `step_outcome` says of it. -/
theorem proceed_effect (hsound : call.Sound key (w.Owns i)) (now : Instant) :
    Effect key w i call (w.proceed key now i call) := by
  unfold World.proceed
  cases hstage : call.stage with
  | granting =>
      obtain ⟨m, hm, ⟨text, hanswer⟩ | hanswer⟩ :=
        w.server.requestLease_spec call.ttl.leaseSeconds
      · simp only [hanswer, after_agrees hm]
        exact .quiet hm (leaves_failed none)
      · simp only [hanswer, after_grant hm]
        refine .granted _ hm ⟨?_, ?_⟩
        · intro lease hhas
          exact .inr hhas
        · intro k hk
          cases hk
  | writing held =>
      obtain ⟨m, hm, ⟨text, hanswer⟩ | hanswer⟩ :=
        w.server.requestPut_spec key call.value (held.getD 0)
      · simp only [hanswer, after_agrees hm]
        exact .quiet hm (leaves_failed none)
      · simp only [hanswer, after_put hm]
        refine .put hm ?_ ⟨?_, ?_⟩
        · cases held with
          | none => exact .inl rfl
          | some lease =>
              right
              rw [hstage]
              rfl
        · intro lease hhas
          left
          rw [hstage]
          exact hhas
        · intro k hk
          cases hk
  | installing held => exact .installed now hstage
  | failed => exact .idle
  | kept k =>
      have h := Keeper.step_outcome k now false w.server
      have heffect := effect_of_outcome hsound hstage k.cancelled h
      rw [told_of_outcome h] at heffect
      exact heffect
  | ended => exact .idle

/-- A keeper that wakes although it was told to stop may do the same. -/
theorem overlook_effect (hsound : call.Sound key (w.Owns i)) (now : Instant) :
    Effect key w i call (w.overlook now i call) := by
  unfold World.overlook
  split
  · rename_i k hk
    exact effect_of_outcome hsound hk false (Keeper.step_outcome _ now false w.server)
  · exact .idle

end Effect

section Invariant

variable {key : String} {w : World} {i : Nat} {call : Call}

theorem Inv.leads (h : Inv key w) {w' : World} (hserver : w.server.Leads key w'.server)
    (howners : ∀ lease j, w'.Owns j lease → w.Owns j lease ∨
      w.server.nextLease ≤ lease ∧ lease < w'.server.nextLease)
    (hcalls : ∀ j (call : Call), w'.calls[j]? = some call → call.Sound key (w'.Owns j))
    (hlast : w'.last = w.last)
    (hvalue : ∀ j value, w.value? j = some value → w'.value? j = some value)
    (hkept : ∀ lease j, w.Owns j lease → w'.Owns j lease) : Inv key w' where
  fresh := hserver.fresh
  owners := by
    have hgrows := hserver.grows
    have hpositive := h.fresh.positive
    intro lease j howns
    rcases howners lease j howns with hbefore | hgranted
    · have := h.owners lease j hbefore
      omega
    · omega
  calls := hcalls
  last := by
    intro j lease hj
    rw [hlast] at hj
    obtain ⟨value, hv, howns, hkeeps⟩ := h.last j lease hj
    have hlease : lease < w.server.nextLease := by
      rcases howns with rfl | howns
      · exact h.fresh.positive
      · exact (h.owners lease j howns).2
    refine ⟨value, hvalue j value hv, ?_, hserver.keeps value lease hlease hkeeps⟩
    rcases howns with hzero | howns
    · exact .inl hzero
    · exact .inr (hkept lease j howns)

theorem value_set {calls : List Call} {before : Call} (hbefore : calls[i]? = some before)
    (stage : Stage) (j : Nat) :
    ((calls.set i { before with stage })[j]?).map Call.value = (calls[j]?).map Call.value := by
  have hsame : (calls.set i { before with stage }).map Call.value = calls.map Call.value :=
    map_set_of_getElem? hbefore rfl
  rw [← List.getElem?_map, ← List.getElem?_map, hsame]

theorem Effect.value_eq (hcall : w.calls[i]? = some call) {w' : World}
    (heffect : Effect key w i call w') (j : Nat) : w'.value? j = w.value? j := by
  cases heffect with
  | idle => rfl
  | quiet hs hstage => exact value_set hcall _ j
  | granted ttl hs hstage => exact value_set hcall _ j
  | put hs hlease hstage => exact value_set hcall _ j
  | dropped hs hlease hdrop => exact value_set hcall _ j
  | installed now hstage =>
      have htold : (w.calls.map (Call.told key))[i]? = some (call.told key) := by
        rw [List.getElem?_map, hcall, Option.map_some]
      refine (value_set htold _ j).trans ?_
      rw [List.getElem?_map, Option.map_map]
      rfl

theorem sound_set {calls : List Call} {owned : Nat → Int → Prop}
    (h : ∀ j (call : Call), calls[j]? = some call → call.Sound key (owned j)) {changed : Call}
    (hchanged : changed.Sound key (owned i)) :
    ∀ j (call : Call), (calls.set i changed)[j]? = some call → call.Sound key (owned j) := by
  intro j other hother
  obtain ⟨rfl, rfl⟩ | ⟨-, hother⟩ := getElem?_set_cases hother
  · exact hchanged
  · exact h j other hother

/-- A call that goes on to a lease that it has, or was just granted, has no lease of
another. -/
theorem Leaves.sound {granted : Option Int} {stage : Stage} {owned owned' : Int → Prop}
    (h : Leaves key call granted stage) (hsound : call.Sound key owned)
    (howned : ∀ lease, owned lease ∨ granted = some lease → owned' lease) :
    ({ call with stage } : Call).Sound key owned' where
  owned := by
    intro lease hhas
    apply howned
    rcases h.has lease hhas with hbefore | hgranted
    · exact .inl (hsound.owned lease hbefore)
    · exact .inr hgranted
  keeper := h.keeper

theorem Call.Sound.mono {owned owned' : Int → Prop} (h : call.Sound key owned)
    (howned : ∀ lease, owned lease → owned' lease) : call.Sound key owned' :=
  ⟨fun lease hhas => howned lease (h.owned lease hhas), h.keeper⟩

theorem sound_told {owned : Int → Prop} (h : call.Sound key owned) :
    (call.told key).Sound key owned := by
  obtain ⟨value, ttl, stage⟩ := call
  cases stage with
  | kept k =>
      refine ⟨?_, ?_⟩
      · intro lease hhas
        apply h.owned lease
        simp only [Call.told, Stage.told] at hhas
        split at hhas <;> exact hhas
      · intro k' hk'
        simp only [Call.told, Stage.told, Stage.kept.injEq] at hk'
        obtain rfl := hk'
        have hk := h.keeper k rfl
        split <;> exact hk
  | granting | writing held | installing held | failed | ended => exact h

/-- A lease is granted to one call, so what the key is bound to is not touched. -/
theorem Inv.granted (h : Inv key w) (hcall : w.calls[i]? = some call) {m : Server} {stage : Stage}
    (ttl : Int) (hs : w.server.Agrees m)
    (hstage : Leaves key call (some w.server.nextLease) stage) :
    Inv key { w with
      server := m.grant ttl
      calls := w.calls.set i { call with stage }
      owners := w.owners.insert w.server.nextLease i } := by
  have hsound := h.calls i call hcall
  have hm := hs.leads key h.fresh
  have hnext := hs.nextLease
  -- what is granted is no lease that a call owns already
  have hkept : ∀ lease j, w.Owns j lease →
      (w.owners.insert w.server.nextLease i).get? lease = some j := by
    intro lease j howns
    have hbelow := h.owners lease j howns
    rw [Table.get?_insert, if_neg (by omega)]
    exact howns
  refine h.leads (hm.trans (hm.fresh.grant ttl)) ?_ ?_ rfl ?_ hkept
  · intro lease j howns
    simp only [World.Owns, Table.get?_insert] at howns
    split at howns
    · right
      simp only [Server.grant]
      omega
    · exact .inl howns
  · apply sound_set
    · intro j other hother
      exact (h.calls j other hother).mono (fun lease => hkept lease j)
    · apply hstage.sound hsound
      rintro lease (howns | hgranted)
      · exact hkept lease i howns
      · obtain rfl := Option.some.inj hgranted
        simp only [World.Owns, Table.get?_insert, if_true]
  · intro j value hv
    exact (value_set hcall _ j).trans hv

/-- The call that puts the key is from then on the last that did, under a lease of its own. -/
theorem Inv.put (h : Inv key w) (hcall : w.calls[i]? = some call) {m : Server} {stage : Stage}
    {lease : Int} (hs : w.server.Agrees m) (hlease : lease = 0 ∨ call.stage.Has lease)
    (hstage : Leaves key call none stage) :
    Inv key { w with
      server := m.put (Text.utf8 key) (Text.utf8 call.value) lease
      calls := w.calls.set i { call with stage }
      last := some (i, lease) } := by
  have hsound := h.calls i call hcall
  have hfresh := (hs.leads key h.fresh).fresh
  refine ⟨⟨hfresh.positive, hfresh.granted⟩, ?_, ?_, ?_⟩
  · intro other j howns
    have := h.owners other j howns
    have := hs.nextLease
    simp only [Server.put]
    omega
  · apply sound_set h.calls
    exact hstage.sound hsound (by simp)
  · intro j other hj
    obtain ⟨rfl, rfl⟩ := Prod.mk.inj (Option.some.inj hj)
    refine ⟨call.value, ?_, ?_, .inl ?_⟩
    · refine (value_set hcall _ i).trans ?_
      rw [hcall, Option.map_some]
    · rcases hlease with hzero | hhas
      · exact .inl hzero
      · exact .inr (hsound.owned lease hhas)
    · rw [Server.shown_put, if_pos rfl]

/-- A keeper that takes over tells those before it to stop; the server is not asked. -/
theorem Inv.installed (h : Inv key w) (hcall : w.calls[i]? = some call) (now : Instant)
    {lease : Option Int} (hstage : call.stage = .installing lease) :
    Inv key (w.install key now i call lease) := by
  have hsound := h.calls i call hcall
  have hsame := (Server.Agrees.refl w.server).leads key h.fresh
  refine h.leads hsame (fun _ _ howns => .inl howns) ?_ rfl ?_ (fun _ _ howns => howns)
  · apply sound_set
    · intro j other hother
      rw [List.getElem?_map] at hother
      obtain ⟨before, hbefore, rfl⟩ := Option.map_eq_some_iff.mp hother
      exact sound_told (h.calls j before hbefore)
    · refine ⟨?_, ?_⟩
      · rintro other (hheld | hwriting)
        · apply hsound.owned
          rw [hstage]
          exact hheld
        · cases hwriting
      · intro k hk
        obtain rfl := Stage.kept.inj hk
        exact ⟨rfl, rfl⟩
  · intro j value hv
    rw [(Effect.installed now hstage).value_eq hcall j, hv]

/-- Whatever a step may do keeps the invariant: the cases are those of `Effect`, each with a
lemma of its own. -/
theorem Inv.effect (h : Inv key w) (hcall : w.calls[i]? = some call) {w' : World}
    (heffect : Effect key w i call w') : Inv key w' := by
  have hsound := h.calls i call hcall
  have hvalue : ∀ j value, w.value? j = some value → w'.value? j = some value := by
    intro j value hv
    rw [heffect.value_eq hcall, hv]
  cases heffect with
  | idle => exact h
  | quiet hs hstage =>
      refine h.leads (hs.leads key h.fresh) (fun _ _ howns => .inl howns) ?_ rfl hvalue
        (fun _ _ howns => howns)
      apply sound_set h.calls
      exact hstage.sound hsound (by simp)
  | granted ttl hs hstage => exact h.granted hcall ttl hs hstage
  | put hs hlease hstage => exact h.put hcall hs hlease hstage
  | dropped hs hlease hdrop =>
      have hm := hs.leads key h.fresh
      refine h.leads (hm.trans (hm.fresh.dropLease hdrop)) (fun _ _ howns => .inl howns) ?_ rfl
        hvalue (fun _ _ howns => howns)
      apply sound_set h.calls
      exact (leaves_ended none).sound hsound (by simp)
  | installed now hstage => exact h.installed hcall now hstage

theorem inv_start (key : String) : Inv key .start where
  fresh := by
    refine ⟨by decide, ?_⟩
    intro lease hlease
    cases hlease
  owners := by
    intro lease i howns
    cases howns
  calls := by
    intro i call hcall
    cases hcall
  last := by
    intro i lease hlast
    cases hlast

/-- What other clients ask of the server puts nothing under the key. -/
theorem apply_leads {s : Server} (hf : s.Fresh) (t : Traffic) :
    s.Leads key (t.apply (Text.utf8 key) s) := by
  have hsame := (Server.Agrees.refl s).leads key hf
  cases t with
  | put other value lease =>
      simp only [Traffic.apply]
      split
      · exact hsame
      · exact hf.put (by assumption) value lease
  | delete other =>
      simp only [Traffic.apply]
      split
      · exact hsame
      · exact hf.delete (by assumption)
  | grant ttl => exact hf.grant ttl
  | fail method text times => exact Server.Agrees.leads key hf ⟨rfl, rfl, rfl, rfl⟩
  | endStreams times => exact Server.Agrees.leads key hf ⟨rfl, rfl, rfl, rfl⟩

theorem value_step (h : Inv key w) (move : Move) {j : Nat} {value : String}
    (hv : w.value? j = some value) : (w.step key move).value? j = some value := by
  cases move with
  | call other ttl =>
      have hbound : j < w.calls.length := by
        obtain ⟨call, hcall, -⟩ := Option.map_eq_some_iff.mp hv
        exact (List.getElem?_eq_some_iff.mp hcall).1
      simp only [World.value?, World.step, List.getElem?_append_left hbound]
      exact hv
  | advance now i =>
      simp only [World.step]
      cases hcall : w.calls[i]? with
      | none => exact hv
      | some call =>
          exact ((proceed_effect (h.calls i call hcall) now).value_eq hcall j).trans hv
  | overlook now i =>
      simp only [World.step]
      cases hcall : w.calls[i]? with
      | none => exact hv
      | some call =>
          exact ((overlook_effect (h.calls i call hcall) now).value_eq hcall j).trans hv
  | lose lease =>
      simp only [World.step]
      cases w.server.dropLease lease <;> exact hv
  | others t => exact hv

/-- One move: a call or its keeper steps, a call is made, a lease is lost, or others ask
something. -/
theorem Inv.step (h : Inv key w) (move : Move) : Inv key (w.step key move) := by
  cases move with
  | call value ttl =>
      have hsame := (Server.Agrees.refl w.server).leads key h.fresh
      refine h.leads hsame (fun _ _ howns => .inl howns) ?_ rfl
        (fun _ _ hv => value_step h (.call value ttl) hv) (fun _ _ howns => howns)
      intro j call hcall
      simp only [World.step, List.getElem?_append] at hcall
      split at hcall
      · exact h.calls j call hcall
      · obtain rfl := List.mem_singleton.mp (List.mem_of_getElem? hcall)
        refine ⟨?_, ?_⟩
        · intro lease hhas
          simp only at hhas
          split at hhas
          · cases hhas
          · exact hhas.elim
        · intro k hk
          simp only at hk
          split at hk <;> cases hk
  | advance now i =>
      simp only [World.step]
      cases hcall : w.calls[i]? with
      | none => exact h
      | some call => exact h.effect hcall (proceed_effect (h.calls i call hcall) now)
  | overlook now i =>
      simp only [World.step]
      cases hcall : w.calls[i]? with
      | none => exact h
      | some call => exact h.effect hcall (overlook_effect (h.calls i call hcall) now)
  | lose lease =>
      simp only [World.step]
      cases hdrop : w.server.dropLease lease with
      | none => exact h
      | some server =>
          exact h.leads (h.fresh.dropLease hdrop) (fun _ _ howns => .inl howns) h.calls rfl
            (fun _ _ hv => hv) (fun _ _ howns => howns)
  | others t =>
      exact h.leads (apply_leads h.fresh t) (fun _ _ howns => .inl howns) h.calls rfl
        (fun _ _ hv => hv) (fun _ _ howns => howns)

theorem value_run (h : Inv key w) (moves : List Move) {j : Nat} {value : String}
    (hv : w.value? j = some value) : (w.run key moves).value? j = some value := by
  induction moves generalizing w with
  | nil => exact hv
  | cons move rest ih => exact ih (h.step move) (value_step h move hv)

/-- Any interleaving keeps the invariant. The main result is read off it, move by move. -/
theorem Inv.run (h : Inv key w) (moves : List Move) : Inv key (w.run key moves) := by
  induction moves generalizing w with
  | nil => exact h
  | cons move rest ih => exact ih (h.step move)

/-- A step of another call that does not put leaves the key and the lease that it
was put under alone: what it gives back is its own. -/
theorem Effect.spares (h : Inv key w) (hcall : w.calls[i]? = some call) {w' : World}
    (heffect : Effect key w i call w') {j : Nat} {lease : Int} (hlast : w.last = some (j, lease))
    (hne : i ≠ j) (hunput : w'.last = w.last) :
    w'.server.shown key = w.server.shown key ∧
      (w'.server.Holds lease ↔ w.server.Holds lease) := by
  obtain ⟨value, -, howns, hkeeps⟩ := h.last j lease hlast
  cases heffect with
  | idle => exact ⟨rfl, Iff.rfl⟩
  | quiet hs hstage => exact ⟨hs.shown_eq key, hs.holds_iff⟩
  | granted ttl hs hstage =>
      have hbelow : lease ≠ w.server.nextLease := by
        have hpositive := h.fresh.positive
        rcases howns with hzero | howns
        · omega
        · have := h.owners lease j howns
          omega
      rw [← hs.nextLease] at hbelow
      exact ⟨hs.shown_eq key, (Server.holds_grant hbelow).trans hs.holds_iff⟩
  | put hs hlease hstage =>
      rw [hlast] at hunput
      exact absurd (Prod.mk.inj (Option.some.inj hunput)).1 hne
  | dropped hs hlease hdrop =>
      rename_i m server dropped
      have hdropped := (h.calls i call hcall).owned dropped hlease
      have hother : lease ≠ dropped := by
        have hpositive := h.owners dropped i hdropped
        rcases howns with hzero | howns
        · omega
        · rintro rfl
          exact hne (Option.some.inj (hdropped.symm.trans howns))
      have hkeeps' : m.Keeps key value lease := hkeeps.congr (hs.shown_eq key) hs.holds_iff
      exact ⟨(hkeeps'.of_ne hdrop hother).trans (hs.shown_eq key),
        (Server.holds_dropLease hdrop hother).trans hs.holds_iff⟩
  | installed now hstage => exact ⟨rfl, Iff.rfl⟩

end Invariant

/-- The call whose step, or whose keeper's step, a move is. -/
def Move.actor? : Move → Option Nat
  | .advance _ i | .overlook _ i => some i
  | _ => none

/-- A move that makes no new call and overlooks nothing. -/
def Move.isHeeding : Move → Bool
  | .call .. | .overlook .. => false
  | _ => true

/-- A step of another call or its keeper, if it does not put the key, leaves what the key
shows and whether its lease stands. Only a lease of its own is ever given back. -/
theorem step_spares {key : String} {w : World} (h : Inv key w) {move : Move} {i j : Nat}
    {lease : Int} (hlast : w.last = some (i, lease)) (hactor : move.actor? = some j) (hne : j ≠ i)
    (hunput : (w.step key move).last = w.last) :
    (w.step key move).server.shown key = w.server.shown key ∧
      ((w.step key move).server.Holds lease ↔ w.server.Holds lease) := by
  cases move with
  | call value ttl => cases hactor
  | lose lost => cases hactor
  | others t => cases hactor
  | advance now j' =>
      obtain rfl := Option.some.inj hactor
      simp only [World.step] at hunput ⊢
      cases hcall : w.calls[j']? with
      | none => exact ⟨rfl, Iff.rfl⟩
      | some call =>
          rw [hcall] at hunput
          exact (proceed_effect (h.calls j' call hcall) now).spares h hcall hlast hne hunput
  | overlook now j' =>
      obtain rfl := Option.some.inj hactor
      simp only [World.step] at hunput ⊢
      cases hcall : w.calls[j']? with
      | none => exact ⟨rfl, Iff.rfl⟩
      | some call =>
          rw [hcall] at hunput
          exact (overlook_effect (h.calls j' call hcall) now).spares h hcall hlast hne hunput

def Stage.hasReturned : Stage → Bool
  | .kept _ | .ended => true
  | _ => false

def World.hasReturned (w : World) (i : Nat) : Bool :=
  w.calls[i]?.any (fun call => call.stage.hasReturned)

theorem hasReturned_iff {w : World} {i : Nat} : w.hasReturned i = true ↔
    ∃ call, w.calls[i]? = some call ∧ call.stage.hasReturned = true := by
  simp only [World.hasReturned, Option.any_eq_true]

/-- Nothing is under way; a keeper that is left sleeps or gives its lease back. -/
def Stage.Idle : Stage → Prop
  | .failed | .ended => True
  | .kept k => k.phase = .revoking ∨ ∃ t, k.phase = .asleep t
  | _ => False

/-- Nothing is under way, and a keeper that is left has been told to stop. -/
def Stage.AtRest (stage : Stage) : Prop :=
  stage.Idle ∧ ∀ k, stage = .kept k → k.cancelled = true

structure Settled (w : World) (i : Nat) : Prop where
  returned : w.hasReturned i = true
  others : ∀ j (call : Call), j ≠ i → w.calls[j]? = some call → call.stage.AtRest

section Settled

variable {key : String} {w : World} {i : Nat} {call : Call}

theorem last_after (w : World) (i : Nat) (call : Call) (put : Option Int) (stage : Stage)
    (server : Server) :
    (w.after i call put stage server).last = w.last ∨
      ∃ lease, put = some lease ∧ (w.after i call put stage server).last = some (i, lease) := by
  unfold World.after
  cases put with
  | none => exact .inl rfl
  | some lease =>
      simp only
      split
      · exact .inr ⟨lease, rfl, rfl⟩
      · exact .inl rfl

/-- A keeper at rest goes no other way than to its end. It was told to stop before it went
to sleep or gave its lease back, so it does not come to another round. -/
theorem step_at_rest {k : Keeper} (hrest : (Stage.kept k).AtRest) (now : Instant) (s : Server) :
    (Stage.of (Keeper.left (k.step now false s).1)).AtRest := by
  have hended : Stage.AtRest .ended := ⟨trivial, fun _ h => by cases h⟩
  obtain ⟨key, value, ttl, held, session, phase, cancelled⟩ := k
  obtain ⟨hidle, htold⟩ := hrest
  obtain rfl : cancelled = true := htold _ rfl
  obtain rfl | ⟨t, rfl⟩ := hidle
  · cases held <;> exact hended
  · cases held with
    | none => exact hended
    | some lease =>
        refine ⟨.inl rfl, ?_⟩
        intro k hk
        obtain rfl := Stage.kept.inj hk
        rfl

/-- A keeper that sleeps or gives its lease back comes to rest once it is told to stop. -/
theorem told_at_rest {key : String} {owned : Int → Prop} (hsound : call.Sound key owned)
    (hidle : call.stage.Idle) : (call.stage.told key).AtRest := by
  cases hstage : call.stage with
  | kept k =>
      rw [hstage] at hidle
      have hkey : k.key = key := (hsound.keeper k hstage).1
      refine ⟨?_, ?_⟩
      · simp only [Stage.told, if_pos hkey]
        exact hidle
      · intro k' hk'
        simp only [Stage.told, if_pos hkey, Stage.kept.injEq] at hk'
        rw [← hk']
  | failed | ended => exact ⟨trivial, fun _ h => by cases h⟩
  | granting | writing held | installing held =>
      rw [hstage] at hidle
      exact hidle.elim

/-- A call that returns while no other is under way settles: with its return it tells the
keepers of the others to stop. -/
theorem settled_of_return (h : Inv key w) (hcall : w.calls[i]? = some call) {lease : Option Int}
    (hstage : call.stage = .installing lease)
    (hidle : ∀ j (other : Call), j ≠ i → w.calls[j]? = some other → other.stage.Idle)
    (now : Instant) : Settled (w.step key (.advance now i)) i := by
  have hstep : w.step key (.advance now i) = w.install key now i call lease := by
    simp only [World.step, hcall, World.proceed, hstage]
  rw [hstep]
  have htold : (w.calls.map (Call.told key))[i]? = some (call.told key) := by
    rw [List.getElem?_map, hcall, Option.map_some]
  have hbound := (List.getElem?_eq_some_iff.mp htold).1
  refine ⟨hasReturned_iff.mpr ⟨_, List.getElem?_set_self hbound, rfl⟩, ?_⟩
  intro j other hne hother
  have hbefore : (w.calls.map (Call.told key))[j]? = some other :=
    (List.getElem?_set_ne hne.symm).symm.trans hother
  rw [List.getElem?_map] at hbefore
  obtain ⟨before, hj, rfl⟩ := Option.map_eq_some_iff.mp hbefore
  exact told_at_rest (h.calls j before hj) (hidle j before hne hj)

theorem returned_of (next : Option Keeper) : (Stage.of next).hasReturned = true := by
  cases next <;> rfl

/-- The call that has settled stays so while its keeper goes on, and it may put the key. -/
theorem Settled.own (h : Settled w i) (put : Option Int) {stage : Stage}
    (hstage : stage.hasReturned = true) (server : Server) : Settled (w.after i call put stage server) i where
  returned := by
    obtain ⟨before, hbefore, -⟩ := hasReturned_iff.mp h.returned
    refine hasReturned_iff.mpr ⟨{ call with stage }, ?_, hstage⟩
    exact List.getElem?_set_self (List.getElem?_eq_some_iff.mp hbefore).1
  others := by
    intro j other hne hother
    obtain ⟨hown, -⟩ | ⟨-, hunchanged⟩ := getElem?_set_cases hother
    · exact absurd hown hne
    · exact h.others j other hne hunchanged

/-- While another call only goes on to rest, the key is put by nobody else. -/
theorem Settled.other (h : Settled w i) {j : Nat} (hne : j ≠ i) (put : Option Int) {stage : Stage}
    (hstage : stage.AtRest) (server : Server) : Settled (w.after j call put stage server) i where
  returned := by
    obtain ⟨own, hown, hreturned⟩ := hasReturned_iff.mp h.returned
    refine hasReturned_iff.mpr ⟨own, ?_, hreturned⟩
    exact (List.getElem?_set_ne hne).trans hown
  others := by
    intro j' other hne' hother
    obtain ⟨-, rfl⟩ | ⟨-, hother⟩ := getElem?_set_cases hother
    · exact hstage
    · exact h.others j' other hne' hother

theorem Settled.proceed (h : Settled w i) {j : Nat} (hcall : w.calls[j]? = some call)
    (now : Instant) :
    Settled (w.proceed key now j call) i ∧
      ((w.proceed key now j call).last = w.last ∨
        ∃ lease, (w.proceed key now j call).last = some (i, lease)) := by
  by_cases heq : j = i
  · obtain rfl := heq
    obtain ⟨own, hown, hreturned⟩ := hasReturned_iff.mp h.returned
    obtain rfl : own = call := Option.some.inj (hown.symm.trans hcall)
    unfold World.proceed
    cases hstage : own.stage with
    | kept k =>
        refine ⟨h.own _ (returned_of _) _, ?_⟩
        rcases last_after w j own (writes? k) (.of (Keeper.left (k.step now false w.server).1))
          (k.step now false w.server).2 with hsame | ⟨lease, -, hput⟩
        · exact .inl hsame
        · exact .inr ⟨lease, hput⟩
    | ended => exact ⟨h, .inl rfl⟩
    | granting | writing held | installing held | failed =>
        rw [hstage] at hreturned
        cases hreturned
  · have hrest := h.others j call heq hcall
    unfold World.proceed
    cases hstage : call.stage with
    | kept k =>
        rw [hstage] at hrest
        have hwrites : writes? k = none := by
          obtain ⟨hphase | ⟨t, hphase⟩, -⟩ := hrest <;> simp only [writes?, hphase]
        refine ⟨h.other heq _ (step_at_rest hrest now w.server) _, .inl ?_⟩
        simp only [World.after, hwrites]
    | failed | ended => exact ⟨h, .inl rfl⟩
    | granting | writing held | installing held =>
        rw [hstage] at hrest
        exact hrest.1.elim

theorem Settled.step (key : String) (h : Settled w i) {move : Move} (hheeds : move.isHeeding = true) :
    Settled (w.step key move) i ∧
      ((w.step key move).last = w.last ∨ ∃ lease, (w.step key move).last = some (i, lease)) := by
  cases move with
  | call value ttl => cases hheeds
  | overlook now j => cases hheeds
  | advance now j =>
      simp only [World.step]
      cases hcall : w.calls[j]? with
      | none => exact ⟨h, .inl rfl⟩
      | some call => exact h.proceed hcall now
  | lose lease =>
      simp only [World.step]
      cases w.server.dropLease lease with
      | none => exact ⟨h, .inl rfl⟩
      | some server => exact ⟨⟨h.returned, h.others⟩, .inl rfl⟩
  | others t => exact ⟨⟨h.returned, h.others⟩, .inl rfl⟩

/-- From then on only the call itself, or its keeper, puts the key. -/
theorem Settled.run (h : Settled w i) {moves : List Move}
    (hheeds : ∀ move ∈ moves, move.isHeeding = true) {lease : Int}
    (hlast : w.last = some (i, lease)) :
    ∃ lease', (w.run key moves).last = some (i, lease') := by
  induction moves generalizing w lease with
  | nil => exact ⟨lease, hlast⟩
  | cons move rest ih =>
      obtain ⟨hsettled, hstep⟩ := h.step key (hheeds move List.mem_cons_self)
      have hrest : ∀ move ∈ rest, move.isHeeding = true := fun move member =>
        hheeds move (List.mem_cons_of_mem _ member)
      rcases hstep with hsame | ⟨lease', hput⟩
      · exact ih hsettled hrest (hsame.trans hlast)
      · exact ih hsettled hrest hput

end Settled

/-- In any interleaving, while the key was put last by one call, or by its keeper
when it wrote again: the key shows the value of the call as long as the lease of
that put stands. No step of another call or its keeper ends that lease or changes
the key, unless it puts the key itself. None will once the others are at rest: the
key shows the value as long as the lease stands under which the call or its keeper
put it last. -/
theorem stays_kept (key : String) (moves : List Move) {i : Nat} {value : String} {lease : Int}
    (hvalue : (World.start.run key moves).value? i = some value)
    (hlast : (World.start.run key moves).last = some (i, lease)) :
    let w := World.start.run key moves
    (w.server.Holds lease → w.server.shown key = some (Text.utf8 value, lease)) ∧
    (∀ move j, move.actor? = some j → j ≠ i → (w.step key move).last = w.last →
      (w.step key move).server.shown key = w.server.shown key ∧
        ((w.step key move).server.Holds lease ↔ w.server.Holds lease)) ∧
    (Settled w i → ∀ after, (∀ move ∈ after, move.isHeeding = true) →
      ∃ lease', (w.run key after).last = some (i, lease') ∧
        ((w.run key after).server.Holds lease' →
          (w.run key after).server.shown key = some (Text.utf8 value, lease'))) := by
  intro w
  have hinv : Inv key w := (inv_start key).run moves
  have hshown (after : List Move) {lease' : Int} (hput : (w.run key after).last = some (i, lease'))
      (hholds : (w.run key after).server.Holds lease') :
      (w.run key after).server.shown key = some (Text.utf8 value, lease') := by
    obtain ⟨value', hvalue', -, hkeeps⟩ := (hinv.run after).last i lease' hput
    obtain rfl : value = value' :=
      Option.some.inj ((value_run hinv after hvalue).symm.trans hvalue')
    exact hkeeps.shown_of_holds hholds
  refine ⟨?_, ?_, ?_⟩
  · intro hholds
    exact hshown [] hlast hholds
  · intro move j hactor hne hunput
    exact step_spares hinv hlast hactor hne hunput
  · intro hsettled after hheeds
    obtain ⟨lease', hput⟩ := hsettled.run hheeds hlast
    exact ⟨lease', hput, hshown after hput⟩

def sampleCall (value : String) (now : Instant) (i : Nat) : List Move :=
  .call value (.ofSeconds 9) :: List.replicate 3 (.advance now i)

/-- A second call, after which the keeper of the first gives its lease back. -/
def supersededMoves : List Move := sampleCall "a" ⟨0⟩ 0 ++ sampleCall "b" ⟨0⟩ 1

theorem settled_superseded : Settled (World.start.run "k" supersededMoves) 1 where
  returned := rfl
  others := by
    intro j call hne hcall
    match j, hne with
    | 0, _ =>
        obtain rfl := Option.some.inj hcall
        refine ⟨.inr ⟨_, rfl⟩, ?_⟩
        intro k hk
        obtain rfl := Stage.kept.inj hk
        rfl
    | j + 2, _ => cases hcall

/-- A second call returns while the keeper of the first sleeps. That keeper then ends and
gives its lease back, and the key shows the second value under the second lease. -/
theorem stays_kept_superseded :
    let after : List Move := List.replicate 2 (.advance ⟨0⟩ 0)
    let w := (World.start.run "k" supersededMoves).run "k" after
    w.server.leases.contains 1 = false ∧ w.server.shown "k" = some (Text.utf8 "b", 2) := by
  intro after w
  have hvalue : (World.start.run "k" supersededMoves).value? 1 = some "b" := by decide +kernel
  have hsuperseded : (World.start.run "k" supersededMoves).last = some (1, 2) := by
    decide +kernel
  obtain ⟨-, -, hsettled⟩ := stays_kept "k" supersededMoves hvalue hsuperseded
  obtain ⟨lease, hlast, hshown⟩ := hsettled settled_superseded after (by decide)
  have hput : w.last = some (1, 2) := by decide +kernel
  obtain ⟨-, rfl⟩ := Prod.mk.inj (Option.some.inj (hput.symm.trans hlast))
  exact ⟨by decide +kernel, hshown (by decide +kernel)⟩

def renewalTime : Instant := ⟨3 * nanosPerSecond⟩

/-- The lease of the call itself does not keep the key. Its keeper may have put the
key again, under a lease that is lost before the first one; and a keeper that is
inside a round when its successor returns puts its own value, and takes it away
again with its lease. -/
theorem lease_outlives_key :
    let kept := World.start.run "k" (sampleCall "a" ⟨0⟩ 0)
    let moved := kept.run "k" (.others (.fail "keeper.keep_alive" "unavailable" 1) ::
      List.replicate 5 (.advance renewalTime 0))
    let lost := moved.run "k" [.lose 2]
    let writing := kept.run "k" (.lose 1 :: List.replicate 3 (.advance renewalTime 0))
    let returned := writing.run "k" (sampleCall "b" renewalTime 1)
    let overwritten := returned.run "k" [.advance renewalTime 0]
    let gone := overwritten.run "k" (List.replicate 2 (.advance renewalTime 0))
    (kept.hasReturned 0 = true ∧ kept.last = some (0, 1) ∧
      kept.server.shown "k" = some (Text.utf8 "a", 1) ∧
      lost.server.Holds 1 ∧ lost.server.shown "k" = none) ∧
    (returned.hasReturned 1 = true ∧ returned.last = some (1, 3) ∧
      returned.server.shown "k" = some (Text.utf8 "b", 3) ∧
      overwritten.server.Holds 3 ∧
      overwritten.server.shown "k" = some (Text.utf8 "a", 2) ∧
      gone.server.Holds 3 ∧ gone.server.shown "k" = none) := by
  decide +kernel

end Rollcall.Etcd.Keeping
