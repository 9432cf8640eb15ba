import Rollcall.Proofs.Pool.Sharing

/-!
What a shared pool can be trusted with, however its gets and closes interleave. A
connection is in one place at a time: with the get that made it, in the pool, with a close
that has removed it, or disconnected. Main statements: `Inv.did`, that each step keeps to
this, and `pool_safe`.
-/

namespace Rollcall

namespace Pooling

variable {σ γ : Type}

inductive Place where
  | get (j : Nat)
  | pool (target : String)
  | close (k : Nat)
  | gone (n : Nat)

/-- No connection is in two places, and those yet to come are in none. -/
structure Apart (held : Place → Option (Dialed γ)) (attempts : Nat) : Prop where
  numbered : ∀ {p d}, held p = some d → d.serial < attempts
  once : ∀ {p q d e}, held p = some d → held q = some e → d.serial = e.serial → p = q

namespace Apart

variable {held held' : Place → Option (Dialed γ)} {attempts : Nat}

theorem sub (h : Apart held attempts) (hsub : ∀ p d, held' p = some d → held p = some d) :
    Apart held' attempts :=
  ⟨fun hp => h.numbered (hsub _ _ hp), fun hp hq => h.once (hsub _ _ hp) (hsub _ _ hq)⟩

/-- A connection that goes from one place to another, and leaves the first, stays apart from
the others. -/
theorem move (h : Apart held attempts) (source goal : Place)
    (hmove : ∀ p d, held' p = some d →
      (p = goal ∧ held source = some d) ∨ (p ≠ source ∧ held p = some d)) :
    Apart held' attempts where
  numbered {p d} hp := by
    obtain ⟨-, hd⟩ | ⟨-, hd⟩ := hmove p d hp
    · exact h.numbered hd
    · exact h.numbered hd
  once {p q d e} hp hq hserial := by
    obtain ⟨rfl, hd⟩ | ⟨hother, hd⟩ := hmove p d hp
    · obtain ⟨rfl, -⟩ | ⟨hother, he⟩ := hmove q e hq
      · rfl
      · exact absurd (h.once he hd hserial.symm) hother
    · obtain ⟨-, he⟩ | ⟨-, he⟩ := hmove q e hq
      · exact absurd (h.once hd he hserial) hother
      · exact h.once hd he hserial

/-- A new connection has the next number, so it is in one place only, wherever it is put. -/
theorem fresh (h : Apart held attempts) (goal : Place)
    (hfresh : ∀ p d, held' p = some d → (p = goal ∧ d.serial = attempts) ∨ held p = some d) :
    Apart held' (attempts + 1) where
  numbered {p d} hp := by
    obtain ⟨-, hd⟩ | hd := hfresh p d hp
    · exact hd ▸ Nat.lt_succ_self _
    · exact Nat.lt_succ_of_lt (h.numbered hd)
  once {p q d e} hp hq hserial := by
    obtain ⟨rfl, hd⟩ | hd := hfresh p d hp
    · obtain ⟨rfl, -⟩ | he := hfresh q e hq
      · rfl
      · exact absurd (hserial.symm.trans hd) (Nat.ne_of_lt (h.numbered he))
    · obtain ⟨-, he⟩ | he := hfresh q e hq
      · exact absurd (hserial.trans he) (Nat.ne_of_lt (h.numbered hd))
      · exact h.once hd he hserial

end Apart

def Event.gone? : Event γ → Option (Dialed γ)
  | .disconnected _ d => some d
  | _ => none

/-- What an event leaves in the pool for a target, if it is about that target. -/
def Event.leaves? (target : String) : Event γ → Option (Option (Dialed γ))
  | .inserted _ d => if d.target = target then some (some d) else none
  | .removed _ d => if d.target = target then some none else none
  | _ => none

/-- The connection last inserted for a target, unless one has been removed since. -/
def pooled? (target : String) (log : List (Event γ)) : Option (Dialed γ) :=
  log.foldl (fun entry event => (event.leaves? target).getD entry) none

/-- The last event of a target decides what the log leaves in the pool for it. -/
theorem pooled?_concat (target : String) (log : List (Event γ)) (event : Event γ) :
    pooled? target (log ++ [event]) = (event.leaves? target).getD (pooled? target log) := by
  rw [pooled?, List.foldl_append]
  rfl

/-- After an insertion that nothing about that target follows, the pool has what was
inserted. -/
theorem pooled?_inserted {target : String} {d : Dialed γ} (htarget : d.target = target)
    (before : List (Event γ)) (i : Nat) {after : List (Event γ)}
    (hafter : ∀ event ∈ after, event.leaves? target = none) :
    pooled? target (before ++ .inserted i d :: after) = some d := by
  have hstays : ∀ entry : Option (Dialed γ),
      after.foldl (fun entry event => (event.leaves? target).getD entry) entry = entry := by
    intro entry
    induction after with
    | nil => rfl
    | cons event after ih =>
        rw [List.foldl_cons, hafter event List.mem_cons_self, Option.getD_none]
        exact ih fun event hevent => hafter event (List.mem_cons_of_mem _ hevent)
  rw [pooled?, List.foldl_append, List.foldl_cons, Event.leaves?, if_pos htarget, hstays]
  rfl

namespace World

def disconnected (w : World σ γ) : List (Dialed γ) := w.log.filterMap Event.gone?

def at? (w : World σ γ) : Place → Option (Dialed γ)
  | .get j => w.gets[j]?.bind Get.held?
  | .pool target => w.pool.connections.get? target
  | .close k => w.closes[k]?.bind Closing.held?
  | .gone n => w.disconnected[n]?

end World

section

variable {α β : Type} {items : List α} {f : α → Option β} {i j : Nat} {a a' x : α} {y : β}

theorem of_mem_concat (h : x ∈ items ++ [a]) (hne : x ≠ a) : x ∈ items :=
  (List.mem_append.mp h).resolve_right fun hlast => hne (List.mem_singleton.mp hlast)

theorem of_bind_set (h : ((items.set j a')[i]?).bind f = some y) :
    (i = j ∧ f a' = some y) ∨ (i ≠ j ∧ items[i]?.bind f = some y) := by
  obtain ⟨x, hx, hy⟩ := Option.bind_eq_some_iff.mp h
  obtain ⟨hij, rfl⟩ | ⟨hij, hx⟩ := getElem?_set_cases hx
  · exact .inl ⟨hij, hy⟩
  · exact .inr ⟨hij, Option.bind_eq_some_iff.mpr ⟨x, hx, hy⟩⟩

theorem of_bind_concat (hnone : f a = none) (h : ((items ++ [a])[i]?).bind f = some y) :
    items[i]?.bind f = some y := by
  obtain ⟨x, hx, hy⟩ := Option.bind_eq_some_iff.mp h
  obtain rfl | hx := getElem?_concat_cases hx
  · rw [hnone] at hy
    cases hy
  · exact Option.bind_eq_some_iff.mpr ⟨x, hx, hy⟩

end

/-- An event that disconnects nothing leaves the list of those that are gone. -/
theorem gone_of_concat {log : List (Event γ)} {event : Event γ} (hnone : event.gone? = none)
    {n : Nat} {d : Dialed γ} (h : ((log ++ [event]).filterMap Event.gone?)[n]? = some d) :
    (log.filterMap Event.gone?)[n]? = some d := by
  rwa [List.filterMap_append, List.filterMap_cons_none hnone, List.filterMap_nil,
    List.append_nil] at h

section

variable {w : World σ γ}

theorem Apart.set_get (hapart : Apart w.at? w.attempts) (j : Nat) {get' : Get γ}
    (hheld : get'.held? = none) :
    Apart ({ w with gets := w.gets.set j get' } : World σ γ).at? w.attempts := by
  refine hapart.sub fun p d hp => ?_
  cases p with
  | get i =>
      obtain ⟨-, hd⟩ | ⟨-, hd⟩ := of_bind_set hp
      · rw [hheld] at hd
        cases hd
      · exact hd
  | pool | close | gone => exact hp

theorem Apart.set_close (hapart : Apart w.at? w.attempts) (k : Nat) {closing' : Closing γ}
    (hheld : closing'.held? = none) :
    Apart ({ w with closes := w.closes.set k closing' } : World σ γ).at? w.attempts := by
  refine hapart.sub fun p d hp => ?_
  cases p with
  | close i =>
      obtain ⟨-, hd⟩ | ⟨-, hd⟩ := of_bind_set hp
      · rw [hheld] at hd
        cases hd
      · exact hd
  | get | pool | gone => exact hp

/-- A get that connects holds its connection, and nobody else does. -/
theorem Apart.dials (hapart : Apart w.at? w.attempts) {j : Nat} {get : Get γ} {target : String}
    (hget : w.gets[j]? = some get) (state : σ) (failures : Nat)
    {outcome : Except Error (Dialed γ)} (hnew : ∀ d, outcome = .ok d → d.serial = w.attempts) :
    Apart ({ w with
      state
      attempts := w.attempts + 1
      gets := w.gets.set j ⟨target, some (.connecting failures outcome)⟩
      log := w.log ++ [.dialed j outcome] } : World σ γ).at? (w.attempts + 1) := by
  refine hapart.fresh (.get j) fun p d hp => ?_
  cases p with
  | get i =>
      obtain ⟨rfl, hd⟩ | ⟨-, hd⟩ := of_bind_set hp
      · cases outcome with
        | error e => cases hd
        | ok made =>
            cases hd
            exact .inl ⟨rfl, hnew _ rfl⟩
      · exact .inr hd
  | pool | close => exact .inr hp
  | gone n => exact .inr (gone_of_concat rfl hp)

/-- A connection goes from its get into the pool, and another may leave there. -/
theorem Apart.inserts (hapart : Apart w.at? w.attempts) {j : Nat} {target : String}
    {failures : Nat} {made : Dialed γ}
    (hget : w.gets[j]? = some ⟨target, some (.connecting failures (.ok made))⟩) :
    Apart ({ w with
      pool := ⟨w.pool.connections.insert target made⟩
      gets := w.gets.set j ⟨target, some (.finished (.ok made))⟩
      log := w.log ++ [.inserted j made] } : World σ γ).at? w.attempts := by
  have hsource : w.at? (.get j) = some made := by
    rw [World.at?, hget]
    rfl
  refine hapart.move (.get j) (.pool target) fun p d hp => ?_
  cases p with
  | get i =>
      obtain ⟨-, hd⟩ | ⟨hij, hd⟩ := of_bind_set hp
      · cases hd
      · exact .inr ⟨fun heq => hij (Place.get.inj heq), hd⟩
  | pool target' =>
      rw [World.at?, Table.get?_insert] at hp
      split at hp
      · rename_i heq
        cases hp
        exact .inl ⟨congrArg Place.pool heq, hsource⟩
      · exact .inr ⟨by simp, hp⟩
  | close => exact .inr ⟨by simp, hp⟩
  | gone n => exact .inr ⟨by simp, gone_of_concat rfl hp⟩

/-- A close takes a connection out of the pool into its own hands. -/
theorem Apart.removes (hapart : Apart w.at? w.attempts) {k : Nat} {target : String}
    {closing : Closing γ} {taken : Dialed γ} (hclose : w.closes[k]? = some closing)
    (htaken : w.pool.connections.get? target = some taken) (rest : List String) :
    Apart ({ w with
      pool := ⟨w.pool.connections.erase target⟩
      closes := w.closes.set k (.disconnecting taken rest)
      log := w.log ++ [.removed k taken] } : World σ γ).at? w.attempts := by
  refine hapart.move (.pool target) (.close k) fun p d hp => ?_
  cases p with
  | get => exact .inr ⟨by simp, hp⟩
  | pool target' =>
      rw [World.at?, Table.get?_erase] at hp
      split at hp
      · cases hp
      · rename_i hother
        exact .inr ⟨fun heq => hother (Place.pool.inj heq), hp⟩
  | close i =>
      obtain ⟨rfl, hd⟩ | ⟨-, hd⟩ := of_bind_set hp
      · cases hd
        exact .inl ⟨rfl, htaken⟩
      · exact .inr ⟨by simp, hd⟩
  | gone n => exact .inr ⟨by simp, gone_of_concat rfl hp⟩

/-- From there it is disconnected, and in no place any more but the list of those that are
gone. -/
theorem Apart.disconnects (hapart : Apart w.at? w.attempts) {k : Nat} {given : Dialed γ}
    {rest : List String} (hclose : w.closes[k]? = some (.disconnecting given rest)) :
    Apart ({ w with
      closes := w.closes.set k (.removing rest)
      log := w.log ++ [.disconnected k given] } : World σ γ).at? w.attempts := by
  have hsource : w.at? (.close k) = some given := by
    rw [World.at?, hclose]
    rfl
  refine hapart.move (.close k) (.gone w.disconnected.length) fun p d hp => ?_
  cases p with
  | get | pool => exact .inr ⟨by simp, hp⟩
  | close i =>
      obtain ⟨-, hd⟩ | ⟨hik, hd⟩ := of_bind_set hp
      · cases hd
      · exact .inr ⟨fun heq => hik (Place.close.inj heq), hd⟩
  | gone n =>
      have hgone : (w.disconnected ++ [given])[n]? = some d := by
        rw [← hp, World.at?, World.disconnected, World.disconnected, List.filterMap_append]
        rfl
      rw [List.getElem?_append] at hgone
      split at hgone
      · exact .inr ⟨by simp, hgone⟩
      · rename_i hn
        obtain ⟨hlast, hvalue⟩ := List.getElem?_eq_some_iff.mp hgone
        rw [List.length_singleton] at hlast
        rw [List.getElem_singleton] at hvalue
        have hend : n = w.disconnected.length := by omega
        exact .inl ⟨congrArg Place.gone hend, hvalue ▸ hsource⟩

/-- Every step keeps connections apart. Each kind of step is one of the lemmas before. -/
theorem Did.apart {c : Connector σ γ} {w' : World σ γ} (h : Did c w w')
    (hapart : Apart w.at? w.attempts) : Apart w'.at? w'.attempts := by
  cases h with
  | begins target =>
      refine hapart.sub fun p d hp => ?_
      cases p with
      | get i => exact of_bind_concat rfl hp
      | pool | close | gone => exact hp
  | turns _ _ _ hheld _ => exact hapart.set_get _ hheld
  | finds _ _ => exact hapart.set_get _ rfl
  | dials hget state hmade => exact hapart.dials hget state _ fun d hd => (hmade d hd).1
  | inserts hget => exact hapart.inserts hget
  | lists targets =>
      refine hapart.sub fun p d hp => ?_
      cases p with
      | close i => exact of_bind_concat rfl hp
      | get | pool | gone => exact hp
  | skips _ => exact hapart.set_close _ rfl
  | removes hclose htaken => exact hapart.removes hclose htaken _
  | disconnects hclose => exact hapart.disconnects hclose
  | changes state => exact hapart

end

structure MadeFor (c : Connector σ γ) (log : List (Event γ)) (target : String)
    (d : Dialed γ) : Prop where
  target_eq : d.target = target
  dialed : ∃ i, .dialed i (.ok d) ∈ log
  connects : ∃ state, (c.connect target state).1 = .ok d.connection

theorem MadeFor.mono {c : Connector σ γ} {log log' : List (Event γ)} {target : String}
    {d : Dialed γ} (h : MadeFor c log target d) (hlog : log ⊆ log') :
    MadeFor c log' target d :=
  ⟨h.target_eq, h.dialed.imp fun _ hi => hlog hi, h.connects⟩

/-- What holds however the gets and closes have interleaved. -/
structure Inv (c : Connector σ γ) (w : World σ γ) : Prop where
  apart : Apart w.at? w.attempts
  entries : ∀ target, w.pool.connections.get? target = pooled? target w.log
  cached : ∀ {target d}, w.pool.connections.get? target = some d → MadeFor c w.log target d
  made : ∀ {j : Nat} {get : Get γ} {d}, w.gets[j]? = some get →
    get.held? = some d ∨ get.given? = some d → MadeFor c w.log get.target d
  /-- A get that has not looked yet has not dialed. -/
  looked : ∀ {j : Nat} {outcome}, .dialed j outcome ∈ w.log →
    ∃ get, w.gets[j]? = some get ∧ get.isLooking = false
  removed : ∀ {k : Nat} {closing : Closing γ} {d}, w.closes[k]? = some closing →
    closing.held? = some d → .removed k d ∈ w.log
  preceded : ∀ {before k d after}, w.log = before ++ .disconnected k d :: after →
    .removed k d ∈ before

theorem Inv.start (c : Connector σ γ) (state : σ) : Inv c (World.start state) where
  apart := by
    have hnowhere : ∀ p, (World.start state : World σ γ).at? p = none := fun p => by
      cases p <;> rfl
    have hnone : ∀ {p d}, (World.start state : World σ γ).at? p ≠ some d := fun {p d} hp =>
      nomatch (hnowhere p).symm.trans hp
    exact ⟨fun hp => absurd hp hnone, fun hp => absurd hp hnone⟩
  entries _ := rfl
  cached h := nomatch h
  made h := nomatch h
  looked h := nomatch h
  removed h := nomatch h
  preceded {before k d after} h := by cases before <;> cases h

section

variable {c : Connector σ γ} {w w' : World σ γ}

theorem Did.log (h : Did c w w') : w.log ⊆ w'.log := by
  cases h with
  | dials | inserts | removes | disconnects => exact List.subset_append_left _ _
  | begins | turns | finds | lists | skips | changes => exact List.Subset.refl _

/-- What the pool has for each target is what the log leaves there. -/
theorem Inv.entries_did (hinv : Inv c w) (h : Did c w w') (target : String) :
    w'.pool.connections.get? target = pooled? target w'.log := by
  cases h with
  | begins | turns | finds | lists | skips | changes => exact hinv.entries target
  | dials | disconnects =>
      rw [pooled?_concat]
      exact hinv.entries target
  | @inserts j target' _ d hget =>
      have htarget : d.target = target' := (hinv.made hget (.inl rfl)).target_eq
      rw [pooled?_concat, Event.leaves?, htarget, Table.get?_insert]
      by_cases heq : target = target'
      · rw [if_pos heq, if_pos heq.symm, Option.getD_some]
      · rw [if_neg heq, if_neg (Ne.symm heq), Option.getD_none, hinv.entries]
  | @removes k target' _ d _ hd =>
      rw [pooled?_concat, Event.leaves?, (hinv.cached hd).target_eq, Table.get?_erase]
      by_cases heq : target = target'
      · rw [if_pos heq, if_pos heq.symm, Option.getD_some]
      · rw [if_neg heq, if_neg (Ne.symm heq), Option.getD_none, hinv.entries]

theorem Inv.cached_did (hinv : Inv c w) (h : Did c w w') {target : String} {d : Dialed γ}
    (hd : w'.pool.connections.get? target = some d) : MadeFor c w'.log target d := by
  suffices MadeFor c w.log target d from this.mono h.log
  cases h with
  | begins | turns | finds | dials | lists | skips | disconnects | changes => exact hinv.cached hd
  | inserts hget =>
      rw [Table.get?_insert] at hd
      split at hd
      · rename_i heq
        cases hd
        exact heq ▸ hinv.made hget (.inl rfl)
      · exact hinv.cached hd
  | removes _ _ =>
      rw [Table.get?_erase] at hd
      split at hd
      · cases hd
      · exact hinv.cached hd

theorem Inv.made_did (hinv : Inv c w) (h : Did c w w') {i : Nat} {get : Get γ} {d : Dialed γ}
    (hi : w'.gets[i]? = some get) (hd : get.held? = some d ∨ get.given? = some d) :
    MadeFor c w'.log get.target d := by
  have hlog := h.log
  cases h with
  | begins =>
      obtain rfl | hi := getElem?_concat_cases hi
      · cases hd <;> contradiction
      · exact (hinv.made hi hd).mono hlog
  | turns hget _ _ hheld hgiven =>
      obtain ⟨-, rfl⟩ | ⟨-, hi⟩ := getElem?_set_cases hi
      · rw [hheld, hgiven] at hd
        cases hd <;> contradiction
      · exact (hinv.made hi hd).mono hlog
  | finds hget hfound =>
      obtain ⟨-, rfl⟩ | ⟨-, hi⟩ := getElem?_set_cases hi
      · obtain hd | hd := hd
        · cases hd
        · cases hd
          exact (hinv.cached hfound).mono hlog
      · exact (hinv.made hi hd).mono hlog
  | @dials j target failures hget state outcome hmade =>
      obtain ⟨-, rfl⟩ | ⟨-, hi⟩ := getElem?_set_cases hi
      · cases outcome with
        | error e => cases hd <;> contradiction
        | ok made =>
            obtain hd | hd := hd
            · cases hd
              obtain ⟨-, htarget, hconnects⟩ := hmade _ rfl
              exact ⟨htarget, ⟨j, List.mem_append_right _ List.mem_cons_self⟩, _, hconnects⟩
            · cases hd
      · exact (hinv.made hi hd).mono hlog
  | inserts hget =>
      obtain ⟨-, rfl⟩ | ⟨-, hi⟩ := getElem?_set_cases hi
      · obtain hd | hd := hd
        · cases hd
        · cases hd
          exact (hinv.made hget (.inl rfl)).mono hlog
      · exact (hinv.made hi hd).mono hlog
  | lists | skips | removes | disconnects | changes => exact (hinv.made hi hd).mono hlog

/-- A get that has made an attempt looks no more: it looks once, before its first one. -/
theorem Inv.looked_did (hinv : Inv c w) (h : Did c w w') {i : Nat}
    {outcome : Except Error (Dialed γ)} (hi : .dialed i outcome ∈ w'.log) :
    ∃ get, w'.gets[i]? = some get ∧ get.isLooking = false := by
  -- What a get is set to is past looking, so it is enough that the event is an old one.
  have hset : ∀ {j : Nat} {get : Get γ}, get.isLooking = false → .dialed i outcome ∈ w.log →
      ∃ get', (w.gets.set j get)[i]? = some get' ∧ get'.isLooking = false := by
    intro j get hlooked hold
    obtain ⟨get', hget', hlooked'⟩ := hinv.looked hold
    obtain ⟨-, hi⟩ | ⟨-, hi⟩ := getElem?_set_of_some hget' j get
    · exact ⟨get, hi, hlooked⟩
    · exact ⟨get', hi, hlooked'⟩
  cases h with
  | begins =>
      obtain ⟨get, hget, hlooked⟩ := hinv.looked hi
      exact ⟨get, getElem?_concat_of_some hget _, hlooked⟩
  | turns _ _ hlooked _ _ => exact hset hlooked hi
  | finds => exact hset rfl hi
  | @dials j target failures hget state outcome' _ =>
      obtain hi | hi := List.mem_append.mp hi
      · exact hset rfl hi
      · cases List.mem_singleton.mp hi
        exact ⟨_, List.getElem?_set_self (List.getElem?_eq_some_iff.mp hget).1, rfl⟩
  | inserts _ => exact hset rfl (of_mem_concat hi (by simp))
  | lists | skips | changes => exact hinv.looked hi
  | removes | disconnects => exact hinv.looked (of_mem_concat hi (by simp))

theorem Inv.removed_did (hinv : Inv c w) (h : Did c w w') {i : Nat} {closing : Closing γ}
    {d : Dialed γ} (hi : w'.closes[i]? = some closing) (hd : closing.held? = some d) :
    .removed i d ∈ w'.log := by
  have hlog := h.log
  cases h with
  | lists =>
      obtain rfl | hi := getElem?_concat_cases hi
      · cases hd
      · exact hlog (hinv.removed hi hd)
  | skips hclose =>
      obtain ⟨-, rfl⟩ | ⟨-, hi⟩ := getElem?_set_cases hi
      · cases hd
      · exact hlog (hinv.removed hi hd)
  | removes hclose _ =>
      obtain ⟨rfl, rfl⟩ | ⟨-, hi⟩ := getElem?_set_cases hi
      · cases hd
        exact List.mem_append_right _ List.mem_cons_self
      · exact hlog (hinv.removed hi hd)
  | disconnects hclose =>
      obtain ⟨-, rfl⟩ | ⟨-, hi⟩ := getElem?_set_cases hi
      · cases hd
      · exact hlog (hinv.removed hi hd)
  | begins | turns | finds | dials | inserts | changes => exact hlog (hinv.removed hi hd)

theorem preceded_concat {log : List (Event γ)} {event : Event γ}
    (hlog : ∀ {before k d after}, log = before ++ .disconnected k d :: after →
      .removed k d ∈ before)
    (hevent : ∀ k d, event = .disconnected k d → .removed k d ∈ log)
    {before after : List (Event γ)} {k : Nat} {d : Dialed γ}
    (h : log ++ [event] = before ++ .disconnected k d :: after) : .removed k d ∈ before := by
  obtain rfl | ⟨after, last, rfl⟩ := after.eq_nil_or_concat
  · obtain ⟨rfl, heq⟩ := List.append_inj' h rfl
    exact hevent k d (List.cons.inj heq).1
  · rw [List.concat_eq_append, ← List.cons_append, ← List.append_assoc] at h
    exact hlog (List.append_inj' h rfl).1

/-- A connection is disconnected by the close that has removed it before. -/
theorem Inv.preceded_did (hinv : Inv c w) (h : Did c w w') {before after : List (Event γ)}
    {k : Nat} {d : Dialed γ} (hlog : w'.log = before ++ .disconnected k d :: after) :
    .removed k d ∈ before := by
  cases h with
  | begins | turns | finds | lists | skips | changes => exact hinv.preceded hlog
  | dials | inserts | removes =>
      refine preceded_concat hinv.preceded ?_ hlog
      rintro _ _ ⟨⟩
  | disconnects hclose =>
      refine preceded_concat hinv.preceded ?_ hlog
      rintro _ _ ⟨⟩
      exact hinv.removed hclose rfl

/-- One step of any get or close keeps the invariant, part by part. -/
theorem Inv.did (hinv : Inv c w) (h : Did c w w') : Inv c w' where
  apart := h.apart hinv.apart
  entries := hinv.entries_did h
  cached := hinv.cached_did h
  made := hinv.made_did h
  looked := hinv.looked_did h
  removed := hinv.removed_did h
  preceded := hinv.preceded_did h

theorem Did.finished (h : Did c w w') {i : Nat} {target : String}
    {result : Except Error (Dialed γ)} (hi : w.gets[i]? = some ⟨target, some (.finished result)⟩) :
    w'.gets[i]? = some ⟨target, some (.finished result)⟩ ∧
      ∀ outcome, .dialed i outcome ∈ w'.log → .dialed i outcome ∈ w.log := by
  -- Another get is set, since this one is not at a stage that does anything.
  have hset : ∀ {j : Nat} {get : Get γ} (get' : Get γ), w.gets[j]? = some get →
      get.result? = none → i ≠ j ∧
        (w.gets.set j get')[i]? = some ⟨target, some (.finished result)⟩ := by
    intro j get get' hget hopen
    obtain ⟨rfl, -⟩ | hother := getElem?_set_of_some hi j get'
    · rw [hget] at hi
      cases hi
      cases hopen
    · exact hother
  cases h with
  | begins => exact ⟨getElem?_concat_of_some hi _, fun _ h => h⟩
  | turns hget hopen _ _ _ => exact ⟨(hset _ hget hopen).2, fun _ h => h⟩
  | finds hget _ => exact ⟨(hset _ hget rfl).2, fun _ h => h⟩
  | dials hget _ _ =>
      obtain ⟨hij, hstays⟩ := hset _ hget rfl
      exact ⟨hstays, fun _ h => of_mem_concat h fun heq => hij (Event.dialed.inj heq).1⟩
  | inserts hget => exact ⟨(hset _ hget rfl).2, fun _ h => of_mem_concat h (by simp)⟩
  | lists | skips | changes => exact ⟨hi, fun _ h => h⟩
  | removes | disconnects => exact ⟨hi, fun _ h => of_mem_concat h (by simp)⟩

/-- A connection that has been disconnected is nowhere else, neither in the pool nor with a
get or another close, since no connection is in two places. -/
theorem Inv.serial_ne (hinv : Inv c w) {d e : Dialed γ} (hd : d ∈ w.disconnected) {p : Place}
    (he : w.at? p = some e) (hp : ∀ n, p ≠ .gone n) : e.serial ≠ d.serial := by
  intro heq
  obtain ⟨n, hn⟩ := List.mem_iff_getElem?.mp hd
  exact hp n (hinv.apart.once he (q := .gone n) hn heq)

theorem Inv.shuns_did (hinv : Inv c w) (h : Did c w w') {d : Dialed γ} (hd : d ∈ w.disconnected)
    {i : Nat} (hi : ∀ e, w.gets[i]?.bind Get.given? = some e → e.serial ≠ d.serial)
    {e : Dialed γ} (he : w'.gets[i]?.bind Get.given? = some e) : e.serial ≠ d.serial := by
  cases h with
  | begins => exact hi e (of_bind_concat rfl he)
  | turns hget _ _ _ hnone =>
      obtain ⟨-, hgiven⟩ | ⟨-, he⟩ := of_bind_set he
      · rw [hnone] at hgiven
        cases hgiven
      · exact hi e he
  | @finds j target found hget hfound =>
      obtain ⟨-, hgiven⟩ | ⟨-, he⟩ := of_bind_set he
      · cases hgiven
        exact hinv.serial_ne hd (p := .pool target) hfound (by simp)
      · exact hi e he
  | dials hget =>
      obtain ⟨-, hgiven⟩ | ⟨-, he⟩ := of_bind_set he
      · cases hgiven
      · exact hi e he
  | @inserts j _ _ made hget =>
      obtain ⟨-, hgiven⟩ | ⟨-, he⟩ := of_bind_set he
      · cases hgiven
        exact hinv.serial_ne hd (p := .get j) (by rw [World.at?, hget]; rfl) (by simp)
      · exact hi e he
  | lists | skips | removes | disconnects | changes => exact hi e he

/-- No connection is disconnected twice, since each is in one place among those that are
gone. -/
theorem Inv.nodup_disconnected (hinv : Inv c w) : (w.disconnected.map Dialed.serial).Nodup := by
  rw [List.Nodup, List.pairwise_map, List.pairwise_iff_getElem]
  intro m n hm hn hmn heq
  have hplace := hinv.apart.once (p := .gone m) (q := .gone n)
    (List.getElem?_eq_getElem hm) (List.getElem?_eq_getElem hn) heq
  exact Nat.ne_of_lt hmn (Place.gone.inj hplace)

theorem Did.mem_disconnected (h : Did c w w') {d : Dialed γ} (hd : d ∈ w.disconnected) :
    d ∈ w'.disconnected := by
  obtain ⟨event, hevent, hgone⟩ := List.mem_filterMap.mp hd
  exact List.mem_filterMap.mpr ⟨event, h.log hevent, hgone⟩

end

section

variable {c : Connector σ γ} {b : Backoff} {w : World σ γ}

/-- Any interleaving of any number of gets and closes keeps the invariant. -/
theorem Inv.run (hinv : Inv c w) (moves : List (Move σ)) : Inv c (w.run c b moves) := by
  induction moves generalizing w with
  | nil => exact hinv
  | cons move moves ih => exact ih (hinv.did (step_did c b w move))

/-- A get that has finished stays so, and makes no attempt any more. -/
theorem run_finished {i : Nat} {target : String} {result : Except Error (Dialed γ)}
    (hi : w.gets[i]? = some ⟨target, some (.finished result)⟩) (moves : List (Move σ)) :
    (w.run c b moves).gets[i]? = some ⟨target, some (.finished result)⟩ ∧
      ∀ outcome, .dialed i outcome ∈ (w.run c b moves).log → .dialed i outcome ∈ w.log := by
  induction moves generalizing w with
  | nil => exact ⟨hi, fun _ h => h⟩
  | cons move moves ih =>
      obtain ⟨hstep, hbefore⟩ := (step_did c b w move).finished hi
      obtain ⟨hrun, hlater⟩ := ih hstep
      exact ⟨hrun, fun outcome h => hbefore outcome (hlater outcome h)⟩

/-- Whatever happens after a disconnection, no get that is not done yet ends with what was
disconnected. -/
theorem Inv.shuns_run (hinv : Inv c w) {d : Dialed γ} (hd : d ∈ w.disconnected) {i : Nat}
    (hi : ∀ e, w.gets[i]?.bind Get.given? = some e → e.serial ≠ d.serial)
    (moves : List (Move σ)) {e : Dialed γ}
    (he : (w.run c b moves).gets[i]?.bind Get.given? = some e) : e.serial ≠ d.serial := by
  induction moves generalizing w with
  | nil => exact hi e he
  | cons move moves ih =>
      have hdid := step_did c b w move
      exact ih (hinv.did hdid) (hdid.mem_disconnected hd) (fun e => hinv.shuns_did hdid hd hi) he

theorem work_found {j : Nat} {target : String} {d : Dialed γ}
    (hget : w.gets[j]? = some ⟨target, some .looking⟩)
    (hd : w.pool.connections.get? target = some d) (now : Instant) (spread : Float) :
    w.step c b (.work j now spread) =
      { w with gets := w.gets.set j ⟨target, some (.finished (.ok d))⟩ } := by
  simp only [World.step, hget, Option.map_some, Option.getD_some, World.workGet, Getting.step,
    Pool.answer?, hd, did, Option.toList_none, List.append_nil]

end

section

variable (c : Connector σ γ) (b : Backoff) (w : World σ γ)

/-- A step of a get leaves the pool alone, unless it ends the get with a connection. -/
theorem work_pool (j : Nat) (now : Instant) (spread : Float) :
    (w.step c b (.work j now spread)).pool = w.pool ∨ ∃ target d,
      (w.step c b (.work j now spread)).gets[j]? = some ⟨target, some (.finished (.ok d))⟩ := by
  rw [World.step]
  cases hget : w.gets[j]? with
  | none => exact .inl rfl
  | some get =>
      obtain ⟨target, stage?⟩ := get
      rw [Option.map_some, Option.getD_some]
      cases stage? with
      | none => exact .inl rfl
      | some g =>
          rw [World.workGet]
          split
          · rename_i g' pool state attempts hstep
            obtain hpool | ⟨d, rfl⟩ := Getting.step_pool hstep
            · exact .inl hpool
            · exact .inr ⟨target, d, List.getElem?_set_self (List.getElem?_eq_some_iff.mp hget).1⟩
          · exact .inl rfl

theorem step_disconnected (move : Move σ) :
    (w.step c b move).disconnected = w.disconnected ∨ ∃ k, move = .clear k := by
  cases move with
  | get | close | beside => exact .inl rfl
  | clear k => exact .inr ⟨k, rfl⟩
  | work j now spread =>
      refine .inl ?_
      rw [World.step]
      cases w.gets[j]? with
      | none => rfl
      | some get =>
          obtain ⟨target, stage?⟩ := get
          rw [Option.map_some, Option.getD_some]
          cases stage? with
          | none => rfl
          | some g =>
              rw [World.workGet]
              split
              · rename_i g' _ _ _ _
                have hdid : (did j g g').toList.filterMap Event.gone? = [] := by
                  rw [did.eq_def]
                  split <;> rfl
                rw [World.disconnected, List.filterMap_append, hdid, List.append_nil]
                rfl
              · rfl

end

/-- However gets and closes interleave: what the pool has, and what a get has ended with,
was made for its target; a get that looks after an insertion, with no other and no removal
since, ends with what was inserted and never dials; one that fails leaves the pool as it
is at each of its steps; a connection is disconnected at most once, by a close that has
removed it before, and is not in the pool again; and no get that has not ended by then
ends with it. -/
theorem pool_safe (c : Connector σ γ) (b : Backoff) (state : σ) (moves : List (Move σ)) :
    let w := (World.start state).run c b moves
    (∀ target d, w.pool.connections.get? target = some d ∨
        (∃ j : Nat, w.gets[j]? = some ⟨target, some (.finished (.ok d))⟩) →
      MadeFor c w.log target d) ∧
    (∀ target, w.pool.connections.get? target = pooled? target w.log) ∧
    (∀ before i d after target, w.log = before ++ .inserted i d :: after → d.target = target →
      (∀ event ∈ after, event.leaves? target = none) →
      ∀ j : Nat, w.gets[j]? = some ⟨target, some .looking⟩ → ∀ now spread later,
        let w' := w.run c b (.work j now spread :: later)
        w'.gets[j]? = some ⟨target, some (.finished (.ok d))⟩ ∧
          ∀ outcome, .dialed j outcome ∉ w'.log) ∧
    (∀ j now spread later target e,
      (w.run c b (.work j now spread :: later)).gets[j]? =
        some ⟨target, some (.finished (.error e))⟩ →
      (w.step c b (.work j now spread)).pool = w.pool) ∧
    (w.disconnected.map Dialed.serial).Nodup ∧
    (∀ move, (w.step c b move).disconnected = w.disconnected ∨ ∃ k, move = .clear k) ∧
    (∀ before k d after, w.log = before ++ .disconnected k d :: after →
      .removed k d ∈ before) ∧
    (∀ d ∈ w.disconnected, ∀ target e, w.pool.connections.get? target = some e →
      e.serial ≠ d.serial) ∧
    ∀ d ∈ w.disconnected, ∀ j : Nat, w.gets[j]?.bind Get.given? = none →
      ∀ later target e, (w.run c b later).gets[j]? = some ⟨target, some (.finished (.ok e))⟩ →
        e.serial ≠ d.serial := by
  intro w
  have hinv : Inv c w := (Inv.start c state).run moves
  refine ⟨?_, hinv.entries, ?_, ?_, hinv.nodup_disconnected, step_disconnected c b w,
    fun _ _ _ _ => hinv.preceded, ?_, ?_⟩
  · rintro target d (hd | ⟨j, hj⟩)
    · exact hinv.cached hd
    · exact hinv.made hj (.inr rfl)
  · intro before i d after target hlog htarget hafter j hj now spread later
    have hentry : w.pool.connections.get? target = some d := by
      rw [hinv.entries, hlog]
      exact pooled?_inserted htarget before i hafter
    have hwork := work_found (c := c) (b := b) hj hentry now spread
    have hended : (w.step c b (.work j now spread)).gets[j]? =
        some ⟨target, some (.finished (.ok d))⟩ := by
      rw [hwork]
      exact List.getElem?_set_self (List.getElem?_eq_some_iff.mp hj).1
    obtain ⟨hstays, hdialed⟩ := run_finished hended later
    refine ⟨hstays, fun outcome hin => ?_⟩
    have hbefore := hdialed outcome hin
    rw [hwork] at hbefore
    obtain ⟨get, hget, hlooked⟩ := hinv.looked hbefore
    rw [hj] at hget
    cases hget
    cases hlooked
  · intro j now spread later target e he
    obtain hsame | ⟨target', d, hd⟩ := work_pool c b w j now spread
    · exact hsame
    · cases he.symm.trans (run_finished hd later).1
  · intro d hd target e he
    exact hinv.serial_ne hd (p := .pool target) he (by simp)
  · intro d hd j hj later target e he
    have hgiven : (w.run c b later).gets[j]?.bind Get.given? = some e := by
      rw [he]
      rfl
    exact hinv.shuns_run hd (fun e he => nomatch hj.symm.trans he) later hgiven

/-- Connections are numbers, and one target cannot be connected to. -/
def sampleConnector : Connector Nat Nat where
  validate _ := .ok ()
  connect target n := if target = "b" then (.error (.connect target ""), n) else (.ok n, n + 1)

def sampleBackoff : Backoff := .create 1 .zero .zero

/-- Two gets connect to one target, the last to insert wins, and a third is about to
look. A fourth has failed once at another target. -/
def sampleMoves : List (Move Nat) := [
  .get "a", .get "a", .work 0 ⟨0⟩ 0, .work 1 ⟨0⟩ 0, .work 1 ⟨0⟩ 0, .work 0 ⟨0⟩ 0,
  .work 0 ⟨0⟩ 0, .work 1 ⟨0⟩ 0, .get "a", .get "b", .work 3 ⟨0⟩ 0, .work 3 ⟨0⟩ 0]

/-- A close takes the connection out, and a get begins before it disconnects it. -/
def sampleClosing : List (Move Nat) := [.close ["a"], .clear 0, .get "a", .clear 0]

/-- Two gets dial one target and the later insertion wins; it is what a third get finds, and
after a close has disconnected it no get ends with it. -/
theorem pool_safe_dialed_twice :
    let last : Dialed Nat := ⟨0, "a", 0⟩
    let w := (World.start 0).run sampleConnector sampleBackoff sampleMoves
    let closed := (World.start 0).run sampleConnector sampleBackoff (sampleMoves ++ sampleClosing)
    MadeFor sampleConnector w.log "a" last ∧
      (w.run sampleConnector sampleBackoff [.work 2 ⟨0⟩ 0]).gets[2]? =
        some ⟨"a", some (.finished (.ok last))⟩ ∧
      (w.step sampleConnector sampleBackoff (.work 3 ⟨0⟩ 0)).pool = w.pool ∧
      last ∈ closed.disconnected ∧
      ∀ later target e, (closed.run sampleConnector sampleBackoff later).gets[4]? =
        some ⟨target, some (.finished (.ok e))⟩ → e.serial ≠ 0 := by
  intro last w closed
  obtain ⟨hmade, -, hfinds, hfails, -⟩ := pool_safe sampleConnector sampleBackoff 0 sampleMoves
  obtain ⟨-, -, -, -, -, -, -, -, hgone⟩ :=
    pool_safe sampleConnector sampleBackoff 0 (sampleMoves ++ sampleClosing)
  have hlast : last ∈ closed.disconnected := List.mem_cons_self
  refine ⟨hmade "a" last (.inl rfl), ?_, hfails 3 ⟨0⟩ 0 [] "b" _ rfl, hlast,
    hgone last hlast 4 rfl⟩
  have hlog : w.log =
      [.dialed 1 (.ok last), .dialed 0 (.ok ⟨1, "a", 1⟩), .inserted 0 ⟨1, "a", 1⟩] ++
        .inserted 1 last :: [.dialed 3 (.error (.connect "b" ""))] := rfl
  exact (hfinds _ 1 last _ "a" hlog rfl (by simp [Event.leaves?]) 2 rfl ⟨0⟩ 0 []).1

end Pooling

end Rollcall
