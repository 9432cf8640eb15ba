import Rollcall.Pool
import Rollcall.Proofs.Replacing
import Rollcall.Proofs.Table

/-!
A pool that many gets and closes share. A get goes on by its own steps, a close takes
the targets of its list one after the other out of the pool and then disconnects what it
took; between any two steps others may go on. Every connection carries the number of the
attempt that made it, and a log keeps who attempted, inserted, removed and disconnected.
Main statements: `step_did`, all that a step can do, and `closing_uninterrupted`, that a
close which nothing interrupts is the one of a pool.
-/

namespace Rollcall

namespace Getting

variable {σ γ : Type}

theorem afterFailure_cases {b : Backoff} {spread : Float} {now : Instant} {failures : Nat}
    {e : Error} {g : Getting γ} (h : afterFailure b spread now failures e = some g) :
    g = .finished (.error e) ∨ ∃ t, g = .resting (failures + 1) t := by
  rw [afterFailure] at h
  split at h
  · exact .inl (Option.some.inj h).symm
  · obtain ⟨delay, -, rfl⟩ := Option.map_eq_some_iff.mp h
    exact .inr ⟨_, rfl⟩

/-- A get changes the pool only by the step that ends it with a connection. -/
theorem step_pool {c : Connector σ γ} {b : Backoff} {spread : Float} {target : String}
    {now : Instant} {g g' : Getting γ} {s s' : Shared σ γ}
    (h : g.step c b spread target now s = some (g', s')) :
    s'.pool = s.pool ∨ ∃ connection, g' = .finished (.ok connection) := by
  cases g with
  | looking =>
      simp only [step] at h
      split at h <;> cases h <;> exact .inl rfl
  | dialing failures =>
      cases h
      exact .inl rfl
  | connecting failures outcome =>
      cases outcome with
      | ok connection =>
          cases h
          exact .inr ⟨connection, rfl⟩
      | error e =>
          obtain ⟨_, -, heq⟩ := Option.map_eq_some_iff.mp h
          cases heq
          exact .inl rfl
  | resting failures t =>
      cases h
      exact .inl rfl
  | finished result =>
      cases h
      exact .inl rfl

end Getting

namespace Pooling

variable {σ γ : Type}

/-- A connection, as the attempt with this number made it for its target. -/
structure Dialed (γ : Type) where
  serial : Nat
  target : String
  connection : γ

def numbered (c : Connector σ γ) : Connector (σ × Nat) (Dialed γ) where
  validate := c.validate
  connect target s :=
    let (outcome, state) := c.connect target s.1
    (outcome.map (fun connection => ⟨s.2, target, connection⟩), state, s.2 + 1)

/-- A get, at its stage unless it has crashed. -/
structure Get (γ : Type) where
  target : String
  stage? : Option (Getting (Dialed γ))

/-- A close takes a connection out of the pool before it disconnects it. -/
inductive Closing (γ : Type) where
  | removing (targets : List String)
  | disconnecting (d : Dialed γ) (targets : List String)

inductive Event (γ : Type) where
  | dialed (j : Nat) (outcome : Except Error (Dialed γ))
  | inserted (j : Nat) (d : Dialed γ)
  | removed (k : Nat) (d : Dialed γ)
  | disconnected (k : Nat) (d : Dialed γ)

def did (j : Nat) : Getting (Dialed γ) → Getting (Dialed γ) → Option (Event γ)
  | .dialing _, .connecting _ outcome => some (.dialed j outcome)
  | .connecting _ (.ok d), _ => some (.inserted j d)
  | _, _ => none

inductive Move (σ : Type) where
  | get (target : String)
  /-- A step of a get, at an instant, with what chance adds to its delay. -/
  | work (j : Nat) (now : Instant) (spread : Float)
  /-- A close begins. It lists the targets while others change the pool, so that any
  list may come of it. -/
  | close (targets : List String)
  | clear (k : Nat)
  /-- What connecting depends on changes by itself. -/
  | beside (state : σ)

structure World (σ γ : Type) where
  pool : Pool (Dialed γ)
  state : σ
  attempts : Nat
  gets : List (Get γ)
  closes : List (Closing γ)
  log : List (Event γ)

namespace World

def start (state : σ) : World σ γ := ⟨.empty, state, 0, [], [], []⟩

def workGet (w : World σ γ) (c : Connector σ γ) (b : Backoff) (j : Nat) (now : Instant)
    (spread : Float) : Get γ → World σ γ
  | ⟨target, some g⟩ =>
      match g.step (numbered c) b spread target now ⟨w.pool, w.state, w.attempts⟩ with
      | some (g', ⟨pool, state, attempts⟩) =>
          { w with
            pool, state, attempts
            gets := w.gets.set j ⟨target, some g'⟩
            log := w.log ++ (did j g g').toList }
      | none => { w with gets := w.gets.set j ⟨target, none⟩ }
  | ⟨_, none⟩ => w

def clearOne (w : World σ γ) (k : Nat) : Closing γ → World σ γ
  | .removing [] => w
  | .removing (target :: rest) =>
      match w.pool.connections.get? target with
      | none => { w with closes := w.closes.set k (.removing rest) }
      | some d =>
          { w with
            pool := ⟨w.pool.connections.erase target⟩
            closes := w.closes.set k (.disconnecting d rest)
            log := w.log ++ [.removed k d] }
  | .disconnecting d rest =>
      { w with
        closes := w.closes.set k (.removing rest)
        log := w.log ++ [.disconnected k d] }

def step (c : Connector σ γ) (b : Backoff) (w : World σ γ) : Move σ → World σ γ
  | .get target => { w with gets := w.gets ++ [⟨target, some .looking⟩] }
  | .work j now spread => ((w.gets[j]?).map (w.workGet c b j now spread)).getD w
  | .close targets => { w with closes := w.closes ++ [.removing targets] }
  | .clear k => ((w.closes[k]?).map (w.clearOne k)).getD w
  | .beside state => { w with state }

def run (c : Connector σ γ) (b : Backoff) (w : World σ γ) (moves : List (Move σ)) : World σ γ :=
  moves.foldl (step c b) w

end World

def Get.held? : Get γ → Option (Dialed γ)
  | ⟨_, some (.connecting _ (.ok d))⟩ => some d
  | _ => none

def Get.result? : Get γ → Option (Except Error (Dialed γ))
  | ⟨_, some (.finished result)⟩ => some result
  | _ => none

def Get.given? (get : Get γ) : Option (Dialed γ) := get.result?.bind Except.toOption

def Get.isLooking : Get γ → Bool
  | ⟨_, some .looking⟩ => true
  | _ => false

/-- The connection that a close has removed and not yet disconnected. -/
def Closing.held? : Closing γ → Option (Dialed γ)
  | .disconnecting d _ => some d
  | .removing _ => none

/-- All that a step can do. -/
inductive Did (c : Connector σ γ) (w : World σ γ) : World σ γ → Prop where
  | begins (target : String) : Did c w { w with gets := w.gets ++ [⟨target, some .looking⟩] }
  /-- A get goes on, or ends, without a connection. -/
  | turns {j : Nat} {get get' : Get γ} (hget : w.gets[j]? = some get)
      (hopen : get.result? = none) (hlooked : get'.isLooking = false)
      (hheld : get'.held? = none) (hgiven : get'.given? = none) :
      Did c w { w with gets := w.gets.set j get' }
  | finds {j : Nat} {target : String} {d : Dialed γ}
      (hget : w.gets[j]? = some ⟨target, some .looking⟩)
      (hd : w.pool.connections.get? target = some d) :
      Did c w { w with gets := w.gets.set j ⟨target, some (.finished (.ok d))⟩ }
  | dials {j : Nat} {target : String} {failures : Nat}
      (hget : w.gets[j]? = some ⟨target, some (.dialing failures)⟩) (state : σ)
      {outcome : Except Error (Dialed γ)}
      (hmade : ∀ d, outcome = .ok d → d.serial = w.attempts ∧ d.target = target ∧
        (c.connect target w.state).1 = .ok d.connection) :
      Did c w { w with
        state
        attempts := w.attempts + 1
        gets := w.gets.set j ⟨target, some (.connecting failures outcome)⟩
        log := w.log ++ [.dialed j outcome] }
  | inserts {j : Nat} {target : String} {failures : Nat} {d : Dialed γ}
      (hget : w.gets[j]? = some ⟨target, some (.connecting failures (.ok d))⟩) :
      Did c w { w with
        pool := ⟨w.pool.connections.insert target d⟩
        gets := w.gets.set j ⟨target, some (.finished (.ok d))⟩
        log := w.log ++ [.inserted j d] }
  | lists (targets : List String) :
      Did c w { w with closes := w.closes ++ [.removing targets] }
  | skips {k : Nat} {target : String} {rest : List String}
      (hclose : w.closes[k]? = some (.removing (target :: rest))) :
      Did c w { w with closes := w.closes.set k (.removing rest) }
  | removes {k : Nat} {target : String} {rest : List String} {d : Dialed γ}
      (hclose : w.closes[k]? = some (.removing (target :: rest)))
      (hd : w.pool.connections.get? target = some d) :
      Did c w { w with
        pool := ⟨w.pool.connections.erase target⟩
        closes := w.closes.set k (.disconnecting d rest)
        log := w.log ++ [.removed k d] }
  | disconnects {k : Nat} {d : Dialed γ} {rest : List String}
      (hclose : w.closes[k]? = some (.disconnecting d rest)) :
      Did c w { w with
        closes := w.closes.set k (.removing rest)
        log := w.log ++ [.disconnected k d] }
  | changes (state : σ) : Did c w { w with state }

section

variable (c : Connector σ γ) (b : Backoff) (w : World σ γ)

/-- What one step of a get does to the shared pool, with everything that it shows. Other
modules split on these cases. -/
theorem workGet_did {j : Nat} {get : Get γ} (hget : w.gets[j]? = some get) (now : Instant)
    (spread : Float) : Did c w (w.workGet c b j now spread get) := by
  obtain ⟨target, stage?⟩ := get
  cases stage? with
  | none => exact .changes w.state
  | some g =>
      simp only [World.workGet]
      cases g with
      | looking =>
          simp only [Getting.step, Pool.answer?]
          cases hfound : w.pool.connections.get? target with
          | some d =>
              simp only [did, Option.toList_none, List.append_nil]
              exact .finds hget hfound
          | none =>
              cases (numbered c).validate target with
              | ok _ =>
                  simp only [did, Option.toList_none, List.append_nil]
                  exact .turns hget rfl rfl rfl rfl
              | error e =>
                  simp only [did, Option.toList_none, List.append_nil]
                  exact .turns hget rfl rfl rfl rfl
      | dialing failures =>
          simp only [Getting.step, numbered, did, Option.toList_some]
          refine .dials hget _ ?_
          intro d hd
          cases houtcome : (c.connect target w.state).1 with
          | error e => rw [houtcome] at hd; cases hd
          | ok connection => rw [houtcome] at hd; cases hd; exact ⟨rfl, rfl, rfl⟩
      | connecting failures outcome =>
          cases outcome with
          | ok d => exact .inserts hget
          | error e =>
              simp only [Getting.step]
              cases hfailure : Getting.afterFailure b spread now failures e with
              | none => exact .turns hget rfl rfl rfl rfl
              | some g =>
                  simp only [Option.map_some, did, Option.toList_none, List.append_nil]
                  rcases Getting.afterFailure_cases hfailure with rfl | ⟨t, rfl⟩
                  · exact .turns hget rfl rfl rfl rfl
                  · exact .turns hget rfl rfl rfl rfl
      | resting failures t =>
          simp only [Getting.step]
          split
          · simp only [did, Option.toList_none, List.append_nil]
            exact .turns hget rfl rfl rfl rfl
          · simp only [did, Option.toList_none, List.append_nil]
            exact .turns hget rfl rfl rfl rfl
      | finished result =>
          simp only [Getting.step, did, Option.toList_none, List.append_nil, set_of_getElem? hget]
          exact .changes w.state

/-- A close first lists what the pool has, then removes and disconnects one connection after
the other. -/
theorem clearOne_did {k : Nat} {closing : Closing γ} (hclose : w.closes[k]? = some closing) :
    Did c w (w.clearOne k closing) := by
  cases closing with
  | disconnecting d rest => exact .disconnects hclose
  | removing targets =>
      cases targets with
      | nil => exact .changes w.state
      | cons target rest =>
          rw [World.clearOne]
          cases hfound : w.pool.connections.get? target with
          | none => exact .skips hclose
          | some d => exact .removes hclose hfound

theorem step_did (move : Move σ) : Did c w (w.step c b move) := by
  cases move with
  | get target => exact .begins target
  | work j now spread =>
      rw [World.step]
      cases hget : w.gets[j]? with
      | none => exact .changes w.state
      | some get => exact workGet_did c b w hget now spread
  | close targets => exact .lists targets
  | clear k =>
      rw [World.step]
      cases hclose : w.closes[k]? with
      | none => exact .changes w.state
      | some closing => exact clearOne_did c w hclose
  | beside state => exact .changes state

theorem rows_erase_head {t : Table String (Dialed γ)} {key : String} {d : Dialed γ}
    {rest : List (String × Dialed γ)} (hrows : t.rows = (key, d) :: rest) :
    (t.erase key).rows = rest := by
  have hascending := t.ascending
  rw [hrows] at hascending
  obtain ⟨hhead, -⟩ := List.pairwise_cons.mp hascending
  have hothers : rest.filter (fun row => decide (row.1 ≠ key)) = rest := by
    refine List.filter_eq_self.mpr fun row hrow => decide_eq_true fun heq => ?_
    exact Std.lt_irrefl (heq ▸ hhead row hrow)
  show t.rows.filter (fun row => decide (row.1 ≠ key)) = rest
  rw [hrows, List.filter_cons_of_neg (by simp)]
  exact hothers

/-- A close that lists what the pool holds takes all of it, in order. -/
theorem run_clear {k : Nat} {rows : List (String × Dialed γ)}
    (hclose : w.closes[k]? = some (.removing (rows.map Prod.fst)))
    (hrows : w.pool.connections.rows = rows) :
    w.run c b (List.replicate (2 * rows.length) (.clear k)) =
      { w with
        pool := .empty
        closes := w.closes.set k (.removing [])
        log := w.log ++ rows.flatMap (fun row => [.removed k row.2, .disconnected k row.2]) } := by
  induction rows generalizing w with
  | nil =>
      have hpool : w.pool = .empty := congrArg Pool.mk
        (Table.isEmpty_iff.mp (List.isEmpty_iff.mpr hrows))
      rw [List.map_nil] at hclose
      rw [List.flatMap_nil, List.append_nil, set_of_getElem? hclose, ← hpool]
      rfl
  | cons row rest ih =>
      obtain ⟨target, d⟩ := row
      have hfound : w.pool.connections.get? target = some d :=
        Table.get?_eq_some_iff.mpr (hrows ▸ List.mem_cons_self)
      have hk := (List.getElem?_eq_some_iff.mp hclose).1
      have hremoved : w.step c b (.clear k) = { w with
          pool := ⟨w.pool.connections.erase target⟩
          closes := w.closes.set k (.disconnecting d (rest.map Prod.fst))
          log := w.log ++ [.removed k d] } := by
        simp only [World.step, hclose, List.map_cons, Option.map_some, Option.getD_some,
          World.clearOne, hfound]
      have hgiven : (w.step c b (.clear k)).step c b (.clear k) = { w with
          pool := ⟨w.pool.connections.erase target⟩
          closes := w.closes.set k (.removing (rest.map Prod.fst))
          log := w.log ++ [.removed k d, .disconnected k d] } := by
        rw [hremoved]
        simp only [World.step, List.getElem?_set_self hk, Option.map_some, Option.getD_some,
          World.clearOne, List.set_set, List.append_assoc, List.cons_append, List.nil_append]
      have hrest := ih ((w.step c b (.clear k)).step c b (.clear k))
        (by rw [hgiven]; exact List.getElem?_set_self hk)
        (by rw [hgiven]; exact rows_erase_head hrows)
      have hmoves : List.replicate (2 * (rest.length + 1)) (Move.clear k : Move σ) =
          .clear k :: .clear k :: List.replicate (2 * rest.length) (.clear k) := rfl
      rw [List.length_cons, hmoves]
      refine hrest.trans ?_
      simp only [hgiven, List.set_set, List.flatMap_cons, List.append_assoc]

/-- A close that nothing interrupts is that of the pool: it disconnects what the pool had,
in the order of the targets, and leaves it empty. -/
theorem closing_uninterrupted :
    let k := w.closes.length
    let (given, pool) := w.pool.close
    (w.step c b (.close w.pool.connections.keys)).run c b
        (List.replicate (2 * w.pool.size) (.clear k)) =
      { w with
        pool
        closes := w.closes ++ [.removing []]
        log := w.log ++ given.flatMap (fun d => [.removed k d, .disconnected k d]) } := by
  intro k
  have hclose : (w.step c b (.close w.pool.connections.keys)).closes[k]? =
      some (.removing (w.pool.connections.rows.map Prod.fst)) := List.getElem?_concat_length
  refine (run_clear c b _ hclose rfl).trans ?_
  simp only [World.step, List.set_append_right _ _ (Nat.le_refl _), k, Nat.sub_self,
    List.set_cons_zero, Table.values, List.flatMap_map]

end

end Pooling

end Rollcall
