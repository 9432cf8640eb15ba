import Mathlib.Data.List.Basic
import Rollcall.Proofs.Memory.Limits
import Rollcall.Proofs.Registry.Calls
import Rollcall.Proofs.Replacing

/-!
The ids that registries give out. Any number of registries share one open backend in
memory; a registration first checks its time to live and counts, then publishes, a
withdrawal first forgets its node, then deletes its key, and between these halves
others may run, as may sweeps, renewals and compaction. A registration counts in its
first half, so the calls are in the order of their increments. Main statements:
`ids_count_up` and, that halves which nothing interrupts are the calls of a registry,
`register_uninterrupted` and `unregister_uninterrupted`.
-/

namespace Rollcall

namespace Registry

variable {σ : Type}

/-- The first half of a registration: its check, and its id. -/
def claim (b : Backend σ) (component : String) (options : RegisterOptions) (r : Registry) (s : σ) :
    Except Failure Int × σ :=
  if !options.isolate && (options.ttl.getD r.defaultTtl).isZero then
    (.error (.error (.config ("registration ttl for " ++ component ++ " must be positive"))), s)
  else (b.increment (Key.nodeId component)).exec s

/-- The second half, of a registration that is not isolated. -/
def announce (b : Backend σ) (component address : String) (options : RegisterOptions) (id : Int)
    (r : Registry) (s : σ) : Except Failure Int × Registry × σ :=
  let ttl := options.ttl.getD r.defaultTtl
  let node := r.nodeFor component address options id
  match (b.keepAlive (Key.service component address) node.encode ttl).exec s with
  | (.error f, s) => (.error f, r, s)
  | (.ok (), s) => (.ok id, { r with published := r.published.insert component node }, s)

/-- A registration is its two halves: the check with the id, and then, unless it is
isolated, the publication. -/
theorem register_eq (b : Backend σ) (component address : String) (options : RegisterOptions)
    (r : Registry) (s : σ) :
    r.register b component address options s =
      match r.claim b component options s with
      | (.error f, s) => (.error f, r, s)
      | (.ok id, s) =>
          if options.isolate then (.ok id, r, s)
          else r.announce b component address options id s := by
  unfold register claim
  dsimp only
  split
  · rfl
  · rcases (b.increment (Key.nodeId component)).exec s with ⟨failure | id, s'⟩ <;> rfl

/-- The first half of a withdrawal: the node whose key is to be deleted. -/
def forget (component : String) (r : Registry) : Option Node × Registry :=
  match r.published.get? component with
  | none => (none, r)
  | some node => (some node, { r with published := r.published.erase component })

end Registry

namespace Numbering

structure Request (n : Nat) where
  registry : Fin n
  component : String
  address : String
  options : RegisterOptions

def Request.ttl {n : Nat} (ttls : Vector Span n) (q : Request n) : Span :=
  q.options.ttl.getD ttls[q.registry]

/-- What is published must live for a while. -/
def Request.isRefused {n : Nat} (ttls : Vector Span n) (q : Request n) : Bool :=
  !q.options.isolate && (q.ttl ttls).isZero

/-- A call of register: the id that it has taken, and its answer once it is over. -/
structure Call (n : Nat) where
  request : Request n
  id? : Option Int
  answer? : Option (Except Failure Int)

/-- After its first half a call is over if it failed or publishes nothing. -/
def Call.claimed {n : Nat} (q : Request n) : Except Failure Int → Call n
  | .error f => ⟨q, none, some (.error f)⟩
  | .ok id => ⟨q, some id, if q.options.isolate then some (.ok id) else none⟩

def Call.returned? {n : Nat} (call : Call n) : Option Int :=
  call.answer?.bind Except.toOption

inductive Move (n : Nat) where
  | register (q : Request n)
  /-- The second half of a registration. -/
  | announce (j : Nat)
  | unregister (registry : Fin n) (component : String)
  /-- The second half of a withdrawal. -/
  | delete (j : Nat)
  | backend (a : Memory.Action)

def Move.request? {n : Nat} : Move n → Option (Request n)
  | .register q => some q
  | _ => none

/-- Nobody but the registries writes the keys of counters, and the backend is not
closed. -/
def Move.keepsOff {n : Nat} : Move n → Bool
  | .backend a => a.keepsOff Key.nodeIdRoot
  | _ => true

/-- The calls are in the order in which they were made; `leaving` are the keys of
nodes that are forgotten and not yet deleted. -/
structure World (n : Nat) where
  memory : Memory
  registries : Vector Registry n
  calls : List (Call n)
  leaving : List String

def requests {n : Nat} (moves : List (Instant × Move n)) : List (Request n) :=
  moves.filterMap (fun move => move.2.request?)

def countUp (k : Nat) : List Int := (List.range k).map (fun j : Nat => (j : Int) + 1)

namespace World

variable {n : Nat}

def start (limit : Nat) (ttls : Vector Span n) : World n :=
  ⟨.create limit, ttls.map Registry.create, [], []⟩

/-- A call that has counted publishes its node, once. -/
def announceCall (w : World n) (now : Instant) (j : Nat) : Call n → World n
  | ⟨q, some id, none⟩ =>
      let (answer, r, memory) := w.registries[q.registry].announce (Memory.backend now)
        q.component q.address q.options id w.memory
      { w with
        memory
        registries := w.registries.set q.registry r
        calls := w.calls.set j ⟨q, some id, some answer⟩ }
  | _ => w

def step (w : World n) (now : Instant) : Move n → World n
  | .register q =>
      let (claimed, memory) := w.registries[q.registry].claim (Memory.backend now)
        q.component q.options w.memory
      { w with memory, calls := w.calls ++ [.claimed q claimed] }
  | .announce j =>
      match w.calls[j]? with
      | some call => w.announceCall now j call
      | none => w
  | .unregister i component =>
      let (node?, r) := w.registries[i].forget component
      { w with
        registries := w.registries.set i r
        leaving := w.leaving ++ (node?.map Node.key).toList }
  | .delete j =>
      match w.leaving[j]? with
      | some key =>
          { w with memory := w.memory.act now (.delete key), leaving := w.leaving.eraseIdx j }
      | none => w
  | .backend a => { w with memory := w.memory.act now a }

def run (w : World n) (moves : List (Instant × Move n)) : World n :=
  moves.foldl (fun w move => w.step move.1 move.2) w

def callsOf (w : World n) (component : String) : List (Call n) :=
  w.calls.filter (fun call => call.request.component = component)

/-- The ids that the calls for a component have taken, in the order of their
increments. -/
def idsOf (w : World n) (component : String) : List Int :=
  (w.callsOf component).filterMap Call.id?

def returnedTo (w : World n) (component : String) : List Int :=
  (w.callsOf component).filterMap Call.returned?

end World

section

variable {n : Nat} {ttls : Vector Span n}

/-- Where a call may stand: refused without an id, or with an id that it has yet to
publish, has returned, or fails to publish because its deadline lies beyond the
clock. -/
inductive Call.Accounted (ttls : Vector Span n) : Call n → Prop where
  | refused (q : Request n) (h : q.isRefused ttls = true) :
      Accounted ttls ⟨q, none, some (.error (.error
        (.config ("registration ttl for " ++ q.component ++ " must be positive"))))⟩
  | counted (q : Request n) (id : Int) (h : q.isRefused ttls = false)
      (hpublishes : q.options.isolate = false) : Accounted ttls ⟨q, some id, none⟩
  | returned (q : Request n) (id : Int) (h : q.isRefused ttls = false) :
      Accounted ttls ⟨q, some id, some (.ok id)⟩
  | beyond (q : Request n) (id : Int) (h : q.isRefused ttls = false) (now : Instant)
      (hclock : Memory.deadline? now (q.ttl ttls) = .error .crash) :
      Accounted ttls ⟨q, some id, some (.error .crash)⟩

/-- The calls that have taken an id are exactly those that were not refused. -/
theorem Call.Accounted.id?_isSome {call : Call n} (h : call.Accounted ttls) :
    call.id?.isSome = !call.request.isRefused ttls := by
  cases h with
  | refused q hrefused => rw [hrefused]; rfl
  | counted q id hadmitted hpublishes => rw [hadmitted]; rfl
  | returned q id hadmitted => rw [hadmitted]; rfl
  | beyond q id hadmitted now hclock => rw [hadmitted]; rfl

/-- Every call has counted or was refused, and the calls for a component have taken
the first numbers, as many as its counter says. -/
structure Inv (ttls : Vector Span n) (asked : List (Request n)) (w : World n) : Prop where
  counted : w.memory.Counted (fun component => (w.idsOf component).length)
  ids : ∀ component, w.idsOf component = countUp (w.idsOf component).length
  asked : w.calls.map Call.request = asked
  accounted : ∀ call ∈ w.calls, call.Accounted ttls
  leaving : ∀ key ∈ w.leaving, Key.startsWith Key.nodeIdRoot key = false
  ttls : ∀ i : Fin n, w.registries[i].defaultTtl = ttls[i]

variable {asked : List (Request n)} {w : World n} {now : Instant}

theorem countUp_succ (k : Nat) : countUp (k + 1) = countUp k ++ [(k : Int) + 1] := by
  rw [countUp, List.range_succ, List.map_append]
  rfl

/-- On a new backend no call has been made and every counter is at zero. -/
theorem Inv.start (limit : Nat) (ttls : Vector Span n) : Inv ttls [] (.start limit ttls) where
  counted := Memory.Counted.create limit
  ids := fun _ => rfl
  asked := rfl
  accounted := nofun
  leaving := nofun
  ttls := by
    intro i
    simp only [World.start, Fin.getElem_fin, Vector.getElem_map, Registry.create]

/-- Calls with the same ids for the same components count the same. -/
theorem idsOf_congr {w' : World n}
    (h : w'.calls.map (fun call => (call.request, call.id?)) =
      w.calls.map (fun call => (call.request, call.id?))) (component : String) :
    w'.idsOf component = w.idsOf component := by
  have hids (calls : List (Call n)) :
      (calls.filter (fun call => call.request.component = component)).filterMap Call.id? =
        ((calls.map (fun call => (call.request, call.id?))).filter
          (fun entry => entry.1.component = component)).filterMap Prod.snd := by
    rw [List.filter_map, List.filterMap_map]
    rfl
  rw [World.idsOf, World.idsOf, World.callsOf, World.callsOf, hids, hids, h]

theorem idsOf_append (w : World n) (memory : Memory) (call : Call n) (component : String) :
    ({ w with memory, calls := w.calls ++ [call] } : World n).idsOf component =
      w.idsOf component ++
        if call.request.component = component then call.id?.toList else [] := by
  simp only [World.idsOf, World.callsOf, List.filter_append, List.filterMap_append]
  congr 1
  by_cases hcomponent : call.request.component = component
  · simp only [List.filter_cons, hcomponent, decide_true, if_true, List.filter_nil]
    cases hid : call.id? <;> simp only [List.filterMap, hid, Option.toList]
  · simp only [List.filter_cons, hcomponent, decide_false, Bool.false_eq_true, if_false,
      List.filter_nil, List.filterMap]

/-- A refused registration takes no id and leaves the backend as it is. -/
theorem claim_refused (h : Inv ttls asked w) {q : Request n} (hrefused : q.isRefused ttls = true) :
    w.registries[q.registry].claim (Memory.backend now) q.component q.options w.memory =
      (.error (.error
        (.config ("registration ttl for " ++ q.component ++ " must be positive"))), w.memory) := by
  rw [Request.isRefused, Request.ttl, ← h.ttls] at hrefused
  rw [Registry.claim, if_pos hrefused]

/-- A registration that is admitted counts its component on, and does nothing else in its
first half. -/
theorem claim_admitted (h : Inv ttls asked w) {q : Request n}
    (hadmitted : q.isRefused ttls = false) :
    w.registries[q.registry].claim (Memory.backend now) q.component q.options w.memory =
      w.memory.increment (Key.nodeId q.component) := by
  rw [Request.isRefused, Request.ttl, ← h.ttls] at hadmitted
  rw [Registry.claim, if_neg (Bool.eq_false_iff.mp hadmitted)]
  rfl

theorem length_idsOf_le (w : World n) (component : String) :
    (w.idsOf component).length ≤ w.calls.length :=
  Nat.le_trans (List.length_filterMap_le _ _) (List.length_filter_le _ _)

/-- A call that begins takes the next number of its component or is refused. There must be
room left in 64 bits, which the bound on the number of calls gives. -/
theorem Inv.register (h : Inv ttls asked w) (q : Request n)
    (hfew : (asked.length : Int) + 1 < 0x8000000000000000) :
    Inv ttls (asked ++ [q]) (w.step now (.register q)) := by
  have hasked (call : Call n) (hcall : call.request = q) :
      (w.calls ++ [call]).map Call.request = asked ++ [q] := by
    rw [List.map_append, h.asked, List.map_singleton, hcall]
  have haccounted {call : Call n} (hcall : call.Accounted ttls) :
      ∀ call' ∈ w.calls ++ [call], call'.Accounted ttls := by
    intro call' hmem
    rcases List.mem_append.mp hmem with hold | hnew
    · exact h.accounted call' hold
    · rw [List.mem_singleton.mp hnew]
      exact hcall
  cases hrefused : q.isRefused ttls with
  | true =>
      simp only [World.step, claim_refused h hrefused]
      have hids (failure : Failure) (component : String) :
          ({ w with calls := w.calls ++ [.claimed q (.error failure)] } : World n).idsOf component =
            w.idsOf component := by
        rw [idsOf_append w w.memory]
        exact (congrArg _ (ite_self [])).trans (List.append_nil _)
      refine ⟨?_, ?_, hasked _ rfl, haccounted (.refused q hrefused), h.leaving, h.ttls⟩
      · simp only [hids]
        exact h.counted
      · simp only [hids]
        exact h.ids
  | false =>
      have hlength : (w.idsOf q.component).length ≤ asked.length := by
        rw [← h.asked, List.length_map]
        exact length_idsOf_le w q.component
      obtain ⟨hcall, hcounted⟩ := h.counted.increment q.component (by omega) now
      simp only [World.step, claim_admitted h hrefused, hcall]
      let id : Int := (w.idsOf q.component).length + 1
      have hids (component : String) :
          ({ w with
              memory := w.memory.act now (.increment (Key.nodeId q.component))
              calls := w.calls ++ [.claimed q (.ok id)] } : World n).idsOf component =
            w.idsOf component ++ if q.component = component then [id] else [] :=
        idsOf_append w _ (.claimed q (.ok id)) component
      refine ⟨?_, ?_, hasked _ rfl, haccounted ?_, h.leaving, h.ttls⟩
      · refine cast (congrArg (Memory.Counted _) (funext fun component => ?_)) hcounted
        rw [hids]
        by_cases hcomponent : component = q.component
        · subst hcomponent
          rw [if_pos rfl, if_pos rfl, List.length_append, List.length_singleton]
        · rw [if_neg hcomponent, if_neg (Ne.symm hcomponent), List.append_nil]
      · intro component
        rw [hids]
        by_cases hcomponent : q.component = component
        · subst hcomponent
          rw [if_pos rfl, List.length_append, List.length_singleton, countUp_succ,
            ← h.ids q.component]
        · rw [if_neg hcomponent, List.append_nil]
          exact h.ids component
      · rw [Call.claimed]
        cases hisolate : q.options.isolate with
        | true => exact .returned q id hrefused
        | false => exact .counted q id hrefused hisolate

theorem Inv.beside (h : Inv ttls asked w) {w' : World n}
    (hmemory : w'.memory = w.memory ∨ ∃ (now : Instant) (a : Memory.Action),
      a.keepsOff Key.nodeIdRoot = true ∧ w'.memory = w.memory.act now a)
    (hcalls : w'.calls.map (fun call => (call.request, call.id?)) =
      w.calls.map (fun call => (call.request, call.id?)))
    (haccounted : ∀ call ∈ w'.calls, call.Accounted ttls)
    (hleaving : ∀ key ∈ w'.leaving, Key.startsWith Key.nodeIdRoot key = false)
    (hregistries : ∀ i : Fin n, w'.registries[i].defaultTtl = w.registries[i].defaultTtl) :
    Inv ttls asked w' := by
  have hids := idsOf_congr hcalls
  constructor
  case counted =>
    simp only [hids]
    rcases hmemory with hsame | ⟨now, a, hoff, hacts⟩
    · rw [hsame]
      exact h.counted
    · rw [hacts]
      exact h.counted.others hoff now
  case ids =>
    simp only [hids]
    exact h.ids
  case asked =>
    rw [← h.asked]
    have hrequests := congrArg (List.map Prod.fst) hcalls
    simpa only [List.map_map, Function.comp_def] using hrequests
  case accounted => exact haccounted
  case leaving => exact hleaving
  case ttls => exact fun i => (hregistries i).trans (h.ttls i)

/-- On an open backend a node is published unless its deadline lies beyond the clock. -/
theorem announce_cases {m : Memory} (hopen : m.closed = false) (r : Registry) (now : Instant)
    (component address : String) (options : RegisterOptions) (id : Int) :
    let ttl := options.ttl.getD r.defaultTtl
    ∃ value published, r.announce (Memory.backend now) component address options id m =
      ((Memory.deadline? now ttl).map (fun _ => id), { r with published },
        m.act now (.keepAlive (Key.service component address) value ttl)) := by
  intro ttl
  let value := (r.nodeFor component address options id).encode
  have hcall : ((Memory.backend now).keepAlive (Key.service component address) value ttl).exec m =
      ((Memory.deadline? now ttl).map (fun _ => ()),
        m.act now (.keepAlive (Key.service component address) value ttl)) := by
    refine Prod.ext ?_ rfl
    simp only [Memory.backend, Call.of, Call.exec, Memory.keepAlive, Memory.set, hopen,
      Bool.false_eq_true, if_false]
    cases Memory.deadline? now ttl <;> rfl
  simp only [Registry.announce]
  refine ⟨value, ?_⟩
  rw [hcall]
  cases Memory.deadline? now ttl with
  | error failure => exact ⟨r.published, rfl⟩
  | ok deadline => exact ⟨_, rfl⟩

theorem keepsOff_service (component address value : String) (ttl : Span) :
    (Memory.Action.keepAlive (Key.service component address) value ttl).keepsOff
      Key.nodeIdRoot = true := by
  rw [Memory.Action.keepsOff, Key.startsWith_nodeIdRoot_service]
  rfl

/-- The second half of a registration answers with the id of the first. -/
theorem step_announce (h : Inv ttls asked w) {j : Nat} {q : Request n} {id : Int}
    (hcall : w.calls[j]? = some ⟨q, some id, none⟩) (now : Instant) :
    ∃ value published, w.step now (.announce j) =
      { w with
        memory :=
          w.memory.act now (.keepAlive (Key.service q.component q.address) value (q.ttl ttls))
        registries := w.registries.set q.registry ⟨ttls[q.registry], published⟩
        calls := w.calls.set j
          ⟨q, some id, some ((Memory.deadline? now (q.ttl ttls)).map (fun _ => id))⟩ } := by
  obtain ⟨value, published, hannounce⟩ := announce_cases h.counted.isOpen
    w.registries[q.registry] now q.component q.address q.options id
  rw [h.ttls] at hannounce
  refine ⟨value, published, ?_⟩
  simp only [World.step, hcall, World.announceCall, hannounce]
  rfl

/-- The second half of a call may come at any later time; it takes no id. -/
theorem Inv.announce (h : Inv ttls asked w) (j : Nat) :
    Inv ttls asked (w.step now (.announce j)) := by
  cases hfound : w.calls[j]? with
  | none =>
      simp only [World.step, hfound]
      exact h
  | some call =>
      have haccounted := h.accounted call (List.mem_of_getElem? hfound)
      cases haccounted with
      | refused q hrefused =>
          simp only [World.step, hfound, World.announceCall]
          exact h
      | returned q id hadmitted =>
          simp only [World.step, hfound, World.announceCall]
          exact h
      | beyond q id hadmitted earlier hclock =>
          simp only [World.step, hfound, World.announceCall]
          exact h
      | counted q id hadmitted hpublishes =>
          obtain ⟨value, published, hstep⟩ := step_announce h hfound now
          rw [hstep]
          have hoff := keepsOff_service q.component q.address value (q.ttl ttls)
          refine h.beside (.inr ⟨now, _, hoff, rfl⟩) ?_ ?_ h.leaving ?_
          · exact map_set_of_getElem? hfound rfl
          · intro call hmem
            rcases List.mem_or_eq_of_mem_set hmem with hold | rfl
            · exact h.accounted call hold
            · cases hclock : Memory.deadline? now (q.ttl ttls) with
              | ok deadline => exact .returned q id hadmitted
              | error failure =>
                  obtain rfl := Memory.deadline?_error hclock
                  exact .beyond q id hadmitted now hclock
          · intro i
            simp only [Fin.getElem_fin, Vector.getElem_set]
            split
            · rename_i hsame
              obtain rfl : q.registry = i := Fin.ext hsame
              exact (h.ttls q.registry).symm
            · rfl

theorem forget_ttl (r : Registry) (component : String) :
    (r.forget component).2.defaultTtl = r.defaultTtl := by
  unfold Registry.forget
  split <;> rfl

theorem Inv.unregister (h : Inv ttls asked w) (i : Fin n) (component : String) :
    Inv ttls asked (w.step now (.unregister i component)) := by
  refine h.beside (.inl rfl) rfl h.accounted ?_ ?_
  · intro key hkey
    rcases List.mem_append.mp hkey with hold | hnew
    · exact h.leaving key hold
    · obtain ⟨node, -, rfl⟩ := Option.map_eq_some_iff.mp (Option.mem_toList.mp hnew)
      exact Key.startsWith_nodeIdRoot_service _ _
  · intro j
    simp only [World.step, Fin.getElem_fin, Vector.getElem_set]
    split
    · rename_i hsame
      obtain rfl : i = j := Fin.ext hsame
      exact forget_ttl w.registries[i] component
    · rfl

theorem Inv.delete (h : Inv ttls asked w) (j : Nat) :
    Inv ttls asked (w.step now (.delete j)) := by
  cases hfound : w.leaving[j]? with
  | none =>
      simp only [World.step, hfound]
      exact h
  | some key =>
      simp only [World.step, hfound]
      have hkey := h.leaving key (List.mem_of_getElem? hfound)
      have hoff : (Memory.Action.delete key).keepsOff Key.nodeIdRoot = true := by
        rw [Memory.Action.keepsOff, hkey]
        rfl
      exact h.beside (.inr ⟨now, _, hoff, rfl⟩) rfl h.accounted
        (fun other hother => h.leaving other (List.mem_of_mem_eraseIdx hother)) (fun _ => rfl)

/-- One move of any kind, if others keep off the counters and there are not too many calls. -/
theorem Inv.step (h : Inv ttls asked w) {move : Move n} (hoff : move.keepsOff = true)
    (hfew : ((asked ++ move.request?.toList).length : Int) < 0x7fffffffffffffff) :
    Inv ttls (asked ++ move.request?.toList) (w.step now move) := by
  cases move with
  | register q =>
      have hlength : (asked ++ [q]).length = asked.length + 1 := List.length_append
      simp only [Move.request?, Option.toList_some, hlength] at hfew
      exact h.register q (by omega)
  | announce j =>
      simp only [Move.request?, Option.toList_none, List.append_nil]
      exact h.announce j
  | unregister i component =>
      simp only [Move.request?, Option.toList_none, List.append_nil]
      exact h.unregister i component
  | delete j =>
      simp only [Move.request?, Option.toList_none, List.append_nil]
      exact h.delete j
  | backend a =>
      simp only [Move.request?, Option.toList_none, List.append_nil]
      exact h.beside (.inr ⟨now, a, hoff, rfl⟩) rfl h.accounted h.leaving (fun _ => rfl)

theorem requests_cons (move : Instant × Move n) (rest : List (Instant × Move n)) :
    requests (move :: rest) = move.2.request?.toList ++ requests rest := by
  rw [requests, List.filterMap_cons]
  cases move.2.request? <;> rfl

/-- Any interleaving of the halves of all calls, with whatever others do in between. -/
theorem Inv.run (h : Inv ttls asked w) {moves : List (Instant × Move n)}
    (hoff : ∀ move ∈ moves, move.2.keepsOff = true)
    (hfew : ((asked ++ requests moves).length : Int) < 0x7fffffffffffffff) :
    Inv ttls (asked ++ requests moves) (w.run moves) := by
  induction moves generalizing w asked with
  | nil =>
      rw [requests, List.filterMap_nil, List.append_nil]
      exact h
  | cons move rest ih =>
      rw [requests_cons, ← List.append_assoc] at hfew ⊢
      have hfirst : ((asked ++ move.2.request?.toList).length : Int) < 0x7fffffffffffffff := by
        rw [List.length_append] at hfew
        omega
      exact ih (h.step (hoff move List.mem_cons_self) hfirst)
        (fun other hother => hoff other (List.mem_cons_of_mem _ hother)) hfew

theorem Inv.length_idsOf (h : Inv ttls asked w) (component : String) :
    (w.idsOf component).length =
      (asked.filter (fun q => q.component = component && !q.isRefused ttls)).length := by
  rw [World.idsOf, World.callsOf, List.length_filterMap_eq_countP, List.countP_filter, ← h.asked,
    ← List.countP_eq_length_filter, List.countP_map]
  refine List.countP_congr ?_
  intro call hcall
  rw [(h.accounted call hcall).id?_isSome, Function.comp_apply, Bool.and_comm]

/-- Where every call has succeeded or was refused, the ids taken are those returned. -/
theorem Inv.returnedTo_eq (h : Inv ttls asked w) {component : String}
    (hover : ∀ call ∈ w.callsOf component,
      call.answer? ≠ none ∧ call.answer? ≠ some (.error .crash)) :
    w.returnedTo component = w.idsOf component := by
  refine List.filterMap_congr ?_
  intro call hcall
  obtain ⟨hanswered, hdone⟩ := hover call hcall
  cases h.accounted call (List.mem_filter.mp hcall).1 with
  | refused q hrefused => rfl
  | counted q id hadmitted hpublishes => exact absurd rfl hanswered
  | returned q id hadmitted => rfl
  | beyond q id hadmitted earlier hclock => exact absurd rfl hdone

end

/-- For every component the ids that its registrations take, in the order of their
increments, are the numbers from one on, as many as there are that were not refused:
whatever else the registries, their components and the backend do, as long as nobody
else writes the keys of counters and there are not too many. A registration returns
its id, unless its deadline lies beyond the clock, and one that is refused for its
time to live takes none and leaves the backend as it is. -/
theorem ids_count_up {n : Nat} (limit : Nat) (ttls : Vector Span n)
    {moves : List (Instant × Move n)} (hoff : ∀ move ∈ moves, move.2.keepsOff = true)
    (hfew : ((requests moves).length : Int) < 0x7fffffffffffffff) :
    let w := (World.start limit ttls).run moves
    w.calls.map Call.request = requests moves ∧
      (∀ call ∈ w.calls, call.Accounted ttls) ∧
      (∀ component,
        let counted := (requests moves).filter
          (fun q => q.component = component && !q.isRefused ttls)
        w.idsOf component = countUp counted.length ∧
          ((∀ call ∈ w.callsOf component,
            call.answer? ≠ none ∧ call.answer? ≠ some (.error .crash)) →
              w.returnedTo component = countUp counted.length)) ∧
      (∀ now q, q.isRefused ttls = true → (w.step now (.register q)).memory = w.memory) ∧
      ∀ now j q id, w.calls[j]? = some ⟨q, some id, none⟩ →
        (w.step now (.announce j)).calls[j]? =
          some ⟨q, some id, some ((Memory.deadline? now (q.ttl ttls)).map (fun _ => id))⟩ := by
  intro w
  have hw : Inv ttls (requests moves) w := (Inv.start limit ttls).run hoff hfew
  refine ⟨hw.asked, hw.accounted, ?_, ?_, ?_⟩
  · intro component counted
    have hids : w.idsOf component = countUp counted.length := by
      rw [hw.ids, hw.length_idsOf]
    exact ⟨hids, fun hover => (hw.returnedTo_eq hover).trans hids⟩
  · intro now q hrefused
    simp only [World.step, claim_refused hw hrefused]
  · intro now j q id hcall
    obtain ⟨value, published, hstep⟩ := step_announce hw hcall now
    rw [hstep]
    exact List.getElem?_set_self (List.getElem?_eq_some_iff.mp hcall).1

/-- Two registries number two components: one id is isolated, one registration is
refused, and between its halves another registry counts, a node is withdrawn and
swept, and the history is compacted. -/
def sampleMoves : List (Instant × Move 2) := [
  (⟨0⟩, .register ⟨0, "a", "x", ⟨false, none, []⟩⟩),
  (⟨0⟩, .register ⟨1, "a", "y", ⟨true, none, []⟩⟩),
  (⟨0⟩, .announce 0),
  (⟨1⟩, .register ⟨1, "b", "z", ⟨false, some .zero, []⟩⟩),
  (⟨1⟩, .register ⟨1, "b", "z", ⟨false, none, []⟩⟩),
  (⟨1⟩, .unregister 0 "a"),
  (⟨2⟩, .backend (.compact 3)),
  (⟨2⟩, .register ⟨0, "a", "x", ⟨false, none, []⟩⟩),
  (⟨3⟩, .announce 3),
  (⟨3⟩, .delete 0),
  (⟨90 * nanosPerSecond⟩, .backend .sweep),
  (⟨90 * nanosPerSecond⟩, .announce 4)]

/-- Component a is given one, two and three by two registries, with one id isolated, and b
is given one. The call that was refused has taken none. -/
theorem ids_count_up_shared :
    let ttls : Vector Span 2 := #v[.ofSeconds 30, .ofSeconds 60]
    let w := (World.start 8 ttls).run sampleMoves
    (∀ move ∈ sampleMoves, move.2.keepsOff = true) ∧
      ((requests sampleMoves).length : Int) < 0x7fffffffffffffff ∧
      w.returnedTo "a" = [1, 2, 3] ∧ w.returnedTo "b" = [1] ∧
      w.memory.store.value? "node_id/b" = some "1" := by
  intro ttls w
  have hoff : ∀ move ∈ sampleMoves, move.2.keepsOff = true := by decide +kernel
  have hfew : ((requests sampleMoves).length : Int) < 0x7fffffffffffffff := by decide +kernel
  obtain ⟨-, -, hids, -⟩ := ids_count_up 8 ttls hoff hfew
  have ha := (hids "a").2 (by decide +kernel)
  have hb := (hids "b").2 (by decide +kernel)
  refine ⟨hoff, hfew, ha.trans ?_, hb.trans ?_, ?_⟩ <;> decide +kernel

section

variable {n : Nat} (w : World n) (now : Instant)

/-- A registration that nothing interrupts is one call of its registry. -/
theorem register_uninterrupted (q : Request n) :
    let (answer, r, memory) := w.registries[q.registry].register (Memory.backend now)
      q.component q.address q.options w.memory
    let w' := (w.step now (.register q)).step now (.announce w.calls.length)
    w'.memory = memory ∧ w'.registries = w.registries.set q.registry r ∧ w'.leaving = w.leaving ∧
      ∃ id?, w'.calls = w.calls ++ [⟨q, id?, some answer⟩] := by
  have hsame : w.registries.set q.registry w.registries[q.registry] = w.registries :=
    Vector.set_getElem_self _
  have hlast (call : Call n) : (w.calls ++ [call])[w.calls.length]? = some call :=
    List.getElem?_concat_length
  rw [Registry.register_eq]
  simp only [World.step, hlast]
  rcases w.registries[q.registry].claim (Memory.backend now) q.component q.options w.memory with
    ⟨failure | id, memory⟩
  · simp only [Call.claimed, World.announceCall, hsame]
    exact ⟨trivial, trivial, trivial, none, rfl⟩
  · cases hisolate : q.options.isolate with
    | true =>
        simp only [Call.claimed, World.announceCall, hisolate, if_true, hsame]
        exact ⟨trivial, trivial, trivial, some id, rfl⟩
    | false =>
        simp only [Call.claimed, World.announceCall, hisolate, Bool.false_eq_true, if_false]
        refine ⟨trivial, trivial, trivial, some id, ?_⟩
        rw [List.set_append_right _ _ (Nat.le_refl _), Nat.sub_self]
        rfl

/-- So is a withdrawal whose two halves follow each other, as long as the backend is open. -/
theorem unregister_uninterrupted (hopen : w.memory.closed = false) (i : Fin n)
    (component : String) :
    let (_, r, memory) := w.registries[i].unregister (Memory.backend now) component w.memory
    (w.step now (.unregister i component)).step now (.delete w.leaving.length) =
      { w with memory, registries := w.registries.set i r } := by
  rcases w.registries[i].unregister_cases w.memory now component hopen with
    ⟨hnone, hcall⟩ | ⟨node, hnode, hcall⟩
  · have hlast : w.leaving[w.leaving.length]? = none := List.getElem?_eq_none (Nat.le_refl _)
    simp only [hcall, World.step, Registry.forget, hnone, Option.map_none, Option.toList_none,
      List.append_nil, hlast]
  · have hlast : (w.leaving ++ [node.key])[w.leaving.length]? = some node.key :=
      List.getElem?_concat_length
    simp only [hcall, World.step, Registry.forget, hnode, Option.map_some, Option.toList_some,
      hlast, List.eraseIdx_append_of_length_le (Nat.le_refl _), Nat.sub_self, List.eraseIdx,
      List.append_nil]

end

end Numbering

end Rollcall
