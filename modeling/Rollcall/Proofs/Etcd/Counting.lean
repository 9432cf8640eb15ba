import Rollcall.Proofs.Etcd.Calls
import Rollcall.Proofs.Etcd.Counter

/-!
Any number of clients that raise one counter: every read and every transaction is
one move, in any interleaving, and nobody else writes the key. A call that nothing
interrupts is a call of its client. Main statements: `increments_count_up` and
`increment_uninterrupted`.
-/

namespace Rollcall.Etcd.Counting

/-- How far a call has come, and how many attempts are left to it. -/
inductive Stage where
  | reading (attempts : Nat)
  | raising (attempts : Nat) (found : Int × Guard)
  | done (answer : Except Failure Int)

structure Call where
  client : Client
  stage : Stage

inductive Move where
  | call (client : Client)
  | advance (i : Nat)
  /-- A lease that the key is not bound to. -/
  | lose (lease : Int)
  | others (t : Keeping.Traffic)

/-- The calls are in the order in which they were made; `committed` holds those that
have changed the server, in the order in which they did. -/
structure World where
  server : Server
  calls : List Call
  committed : List Nat

/-- A call that may still make attempts, or gives up. -/
def Stage.trying (key : String) (l : Link) : Nat → Stage
  | 0 => .done (l.incrementWithin key 0).1
  | attempts + 1 => .reading attempts

def Stage.answer? : Stage → Option (Except Failure Int)
  | .done answer => some answer
  | _ => none

def Stage.afterReading (attempts : Nat) : Except Failure (Int × Guard) → Stage
  | .ok found => .raising attempts found
  | .error failure => .done (.error failure)

def Stage.afterRaising (key : String) (l : Link) (attempts : Nat) :
    Except Failure (Option Int) → Stage
  | .ok (some n) => .done (.ok n)
  | .ok none => .trying key l attempts
  | .error failure => .done (.error failure)

namespace World

def begin (server : Server) : World := ⟨server, [], []⟩

/-- A call goes on to a stage, after a request; a commit is seen by its revision. -/
def after (w : World) (i : Nat) (stage : Stage) (l : Link) : World where
  server := l.server
  calls := w.calls.set i ⟨l.client, stage⟩
  committed := if w.server.revision < l.server.revision then w.committed ++ [i] else w.committed

def proceed (key : String) (w : World) (i : Nat) (call : Call) : World :=
  match call.stage with
  | .reading attempts =>
      let (answer, l) := Link.readCounter key ⟨w.server, call.client⟩
      w.after i (.afterReading attempts answer) l
  | .raising attempts found =>
      let (answer, l) := Link.raiseCounter key found ⟨w.server, call.client⟩
      w.after i (.afterRaising key l attempts answer) l
  | .done _ => w

def step (key : String) (w : World) : Move → World
  | .call client =>
      let stage :=
        if client.closed then .done (.error (.error .closed))
        else .trying key ⟨w.server, client⟩ Link.incrementAttempts
      { w with calls := w.calls ++ [⟨client, stage⟩] }
  | .advance i =>
      match w.calls[i]? with
      | some call => w.proceed key i call
      | none => w
  | .lose lease =>
      if (w.server.record? key).any (fun r => r.lease = lease) then w
      else
        match w.server.dropLease lease with
        | some server => { w with server }
        | none => w
  | .others t => { w with server := t.apply (Text.utf8 key) w.server }

def run (key : String) (w : World) (moves : List Move) : World := moves.foldl (step key) w

def answer? (w : World) (i : Nat) : Option (Except Failure Int) :=
  w.calls[i]?.bind (fun call => call.stage.answer?)

end World

/-- A call that is about to commit holds a guard for the count that it read. -/
def Stage.Guarded (key : String) (s : Server) : Stage → Prop
  | .raising _ found => s.Guards key found.1 found.2
  | _ => True

/-- The calls that have committed were told the counts that they wrote. -/
structure Inv (key : String) (first : Int) (w : World) : Prop where
  counter : w.server.Counter key (first + w.committed.length)
  text : w.committed ≠ [] → (w.server.record? key).map Record.value =
    some (Text.utf8 (Decimal.showInt (first + w.committed.length)))
  told : ∀ j i : Nat, w.committed[j]? = some i → w.answer? i = some (.ok (first + j + 1))
  listed : ∀ i n, w.answer? i = some (.ok n) → i ∈ w.committed
  guarded : ∀ call ∈ w.calls, call.stage.Guarded key w.server

inductive Effect (key : String) (w : World) (i : Nat) : World → Prop where
  | idle : Effect key w i w
  /-- It fails, reads the count, or loses its attempt. -/
  | quiet (stage : Stage) (l : Link) (hs : w.server.Still l.server)
      (hanswer : ∀ n, stage.answer? ≠ some (.ok n)) (hguarded : stage.Guarded key w.server) :
      Effect key w i (w.after i stage l)
  /-- It writes the next count and is told so. -/
  | counted (n : Int) (client : Client) (m : Server) (hs : w.server.Still m)
      (hcount : w.server.count? key = some n) (hnext : n + 1 < Decimal.int64Limit) :
      Effect key w i (w.after i (.done (.ok (n + 1)))
        ⟨m.put (Text.utf8 key) (Text.utf8 (Decimal.showInt (n + 1))) 0, client⟩)

section

variable {key : String} {first n : Int} {w w' : World} {i : Nat} {call : Call}

/-- A call that may still make attempts has not been told a count. -/
theorem trying_answer (key : String) (l : Link) (attempts : Nat) (n : Int) :
    (Stage.trying key l attempts).answer? ≠ some (.ok n) := by
  cases attempts with
  | zero => exact nofun
  | succ attempts => exact nofun

theorem trying_guarded (key : String) (l : Link) (attempts : Nat) (s : Server) :
    (Stage.trying key l attempts).Guarded key s := by
  cases attempts with
  | zero => exact trivial
  | succ attempts => exact trivial

/-- One request of a call reads the count, or commits the next one over it, or changes
nothing. This is all that the invariant needs to know of the code. -/
theorem proceed_effect (i : Nat) (hcounter : w.server.Counter key n)
    (hguarded : call.stage.Guarded key w.server) : Effect key w i (w.proceed key i call) := by
  let l : Link := ⟨w.server, call.client⟩
  have hl : l.server.Counter key n := hcounter
  unfold World.proceed
  cases hstage : call.stage with
  | done answer => exact .idle
  | reading attempts =>
      obtain ⟨s, answer, hs, hanswer, hguards⟩ := Link.readCounter_spec key hl
      simp only [l] at hanswer
      simp only [hanswer]
      rcases answer with failure | found
      · exact .quiet _ _ hs nofun trivial
      · exact .quiet _ _ hs nofun (hguards found rfl)
  | raising attempts found =>
      rw [hstage] at hguarded
      rcases Link.raiseCounter_spec hl hguarded with
        ⟨s, answer, hs, hanswer, hlost⟩ | ⟨-, hnext, s, hs, hanswer⟩
      · simp only [l] at hanswer
        simp only [hanswer]
        rcases answer with failure | _ | m
        · exact .quiet _ _ hs nofun trivial
        · exact .quiet _ _ hs (trying_answer key _ attempts) (trying_guarded key _ attempts _)
        · exact absurd rfl (hlost m)
      · simp only [l] at hanswer
        simp only [hanswer]
        exact .counted n call.client s hs hcounter.count hnext

/-- What spares the key does not break a guard that a call holds for it. -/
theorem Stage.Guarded.mono {stage : Stage} {s s' : Server} (h : stage.Guarded key s)
    (hguards : ∀ n g, s.Guards key n g → s'.Guards key n g) : stage.Guarded key s' := by
  cases stage with
  | raising attempts found => exact hguards _ _ h
  | reading attempts => exact trivial
  | done answer => exact trivial

theorem answer?_after (hcall : w.calls[i]? = some call) (stage : Stage) (l : Link) (j : Nat) :
    (w.after i stage l).answer? j = if i = j then stage.answer? else w.answer? j := by
  have hbound : i < w.calls.length := (List.getElem?_eq_some_iff.mp hcall).1
  simp only [World.answer?, World.after, List.getElem?_set, hbound, if_true]
  split <;> rfl

theorem Inv.not_committed (h : Inv key first w) (hanswer : ∀ n, w.answer? i ≠ some (.ok n)) :
    i ∉ w.committed := by
  intro hmem
  obtain ⟨j, hj⟩ := List.mem_iff_getElem?.mp hmem
  exact hanswer _ (h.told j i hj)

/-- What leaves the key and the answers alone keeps the invariant. -/
theorem Inv.spares (h : Inv key first w) (hs : w.server.Spares key w'.server)
    (hcommitted : w'.committed = w.committed)
    (hanswers : ∀ i n, w'.answer? i = some (.ok n) ↔ w.answer? i = some (.ok n))
    (hguarded : ∀ call ∈ w'.calls, call.stage.Guarded key w.server) : Inv key first w' where
  counter := by
    rw [hcommitted]
    exact hs.counter h.counter
  text := by
    rw [hcommitted, hs.record]
    exact h.text
  told := by
    intro j i hj
    rw [hcommitted] at hj
    exact (hanswers i _).mpr (h.told j i hj)
  listed := by
    intro i n hi
    rw [hcommitted]
    exact h.listed i n ((hanswers i n).mp hi)
  guarded := fun call hcall => Stage.Guarded.mono (hguarded call hcall) (fun _ _ hg => hs.guards hg)

theorem guarded_set {s : Server} {calls : List Call} {changed : Call}
    (hcalls : ∀ call ∈ calls, call.stage.Guarded key s) (hchanged : changed.stage.Guarded key s)
    (i : Nat) : ∀ call ∈ calls.set i changed, call.stage.Guarded key s := by
  intro call hcall
  rcases List.mem_or_eq_of_mem_set hcall with hmem | rfl
  · exact hcalls call hmem
  · exact hchanged

theorem Inv.counted (h : Inv key first w) (hcall : w.calls[i]? = some call)
    (hopen : ∀ n, w.answer? i ≠ some (.ok n)) {client : Client} {m : Server}
    (hs : w.server.Still m) (hcount : w.server.count? key = some n)
    (hnext : n + 1 < Decimal.int64Limit) :
    Inv key first (w.after i (.done (.ok (n + 1)))
      ⟨m.put (Text.utf8 key) (Text.utf8 (Decimal.showInt (n + 1))) 0, client⟩) := by
  obtain rfl := Option.some.inj (hcount.symm.trans h.counter.count)
  have hcommitted : (w.after i (.done (.ok (first + w.committed.length + 1)))
      ⟨m.put (Text.utf8 key) (Text.utf8 (Decimal.showInt (first + w.committed.length + 1))) 0,
        client⟩).committed = w.committed ++ [i] := by
    refine if_pos ?_
    simp only [Server.put, hs.agrees.revision]
    omega
  have hlength : ((w.committed ++ [i]).length : Int) = w.committed.length + 1 := by
    rw [List.length_append, List.length_singleton]
    omega
  refine ⟨?_, ?_, ?_, ?_, ?_⟩
  · rw [hcommitted, hlength, ← Int.add_assoc]
    exact (hs.spares.counter h.counter).put hnext
  · rw [hcommitted, hlength, ← Int.add_assoc]
    intro _
    simp only [World.after, Server.record?, Server.put, Table.get?_insert, if_true, Option.map_some]
  · intro j i' hj
    rw [hcommitted, List.getElem?_append] at hj
    rw [answer?_after hcall]
    split at hj
    · have htold := h.told j i' hj
      rw [if_neg (by rintro rfl; exact hopen _ htold)]
      exact htold
    · rename_i hge
      rw [List.getElem?_singleton] at hj
      split at hj
      · obtain rfl := Option.some.inj hj
        have : j = w.committed.length := by omega
        subst this
        rw [if_pos rfl]
        rfl
      · cases hj
  · intro j n hj
    rw [hcommitted]
    rw [answer?_after hcall] at hj
    split at hj
    · rename_i heq
      rw [← heq]
      exact List.mem_append_right _ (List.mem_singleton_self i)
    · exact List.mem_append_left _ (h.listed j n hj)
  · refine guarded_set ?_ ?_ i
    · intro call hcall
      exact Stage.Guarded.mono (h.guarded call hcall) (fun _ _ hg => (hs.spares.guards hg).put _ _)
    · exact trivial

/-- Whatever a request may do keeps the invariant; only a commit adds to what has been
counted. -/
theorem Inv.effect (h : Inv key first w) (hcall : w.calls[i]? = some call)
    (hopen : ∀ n, w.answer? i ≠ some (.ok n)) (heffect : Effect key w i w') : Inv key first w' := by
  cases heffect with
  | idle => exact h
  | quiet stage l hs hanswer hguarded =>
      refine h.spares hs.spares ?_ ?_ (guarded_set h.guarded hguarded i)
      · refine if_neg ?_
        rw [hs.agrees.revision]
        omega
      · intro j n
        rw [answer?_after hcall]
        split
        · rename_i heq
          subst heq
          exact iff_of_false (hanswer n) (hopen n)
        · exact Iff.rfl
  | counted n client m hs hcount hnext => exact h.counted hcall hopen hs hcount hnext

/-- Whatever other clients ask for, as long as they leave the key alone, spares it. -/
theorem spares_apply (key : String) (s : Server) (t : Keeping.Traffic) :
    s.Spares key (t.apply (Text.utf8 key) s) := by
  have hsame : s.Spares key s := ⟨rfl, Int.le_refl _, rfl⟩
  cases t with
  | put other value lease =>
      simp only [Keeping.Traffic.apply]
      split
      · exact hsame
      · rename_i hne
        refine ⟨?_, by simp only [Server.put]; omega, rfl⟩
        simp only [Server.record?, Server.put, Table.get?_insert]
        rw [if_neg (Ne.symm hne)]
  | delete other =>
      simp only [Keeping.Traffic.apply]
      split
      · exact hsame
      · rename_i hne
        unfold Server.delete
        split
        · refine ⟨?_, by simp only; omega, rfl⟩
          simp only [Server.record?, Table.get?_erase]
          rw [if_neg (Ne.symm hne)]
        · exact hsame
  | grant ttl => exact ⟨rfl, Int.le_refl _, rfl⟩
  | fail method text times => exact ⟨rfl, Int.le_refl _, rfl⟩
  | endStreams times => exact ⟨rfl, Int.le_refl _, rfl⟩

/-- A lease that is lost takes no counter with it, as counters are put without one. -/
theorem spares_dropLease {s s' : Server} {lease : Int}
    (hfree : ∀ r, s.record? key = some r → r.lease ≠ lease) (h : s.dropLease lease = some s') :
    s.Spares key s' := by
  unfold Server.dropLease at h
  split at h
  · obtain rfl := Option.some.inj h
    refine ⟨?_, ?_, rfl⟩
    · simp only [Server.record?, Table.get?_filter] at hfree ⊢
      cases hrecord : s.records.get? (Text.utf8 key) with
      | none => rfl
      | some r => exact Option.filter_some_pos (decide_eq_true (hfree r hrecord))
    · simp only
      split <;> omega
  · cases h

theorem answer?_call (w : World) (client : Client) {stage : Stage}
    (hanswer : ∀ n, stage.answer? ≠ some (.ok n)) (i : Nat) (n : Int) :
    ({ w with calls := w.calls ++ [⟨client, stage⟩] } : World).answer? i = some (.ok n) ↔
      w.answer? i = some (.ok n) := by
  simp only [World.answer?, List.getElem?_append]
  split
  · exact Iff.rfl
  · rename_i hbound
    rw [List.getElem?_eq_none (Nat.le_of_not_lt hbound), List.getElem?_singleton]
    split
    · exact iff_of_false (hanswer n) nofun
    · exact Iff.rfl

/-- With no call made, the counter stands where it stood at first. -/
theorem Inv.begin {s : Server} (h : s.Counter key first) : Inv key first (.begin s) where
  counter := by
    simp only [World.begin, List.length_nil, Int.natCast_zero, Int.add_zero]
    exact h
  text := fun hne => absurd rfl hne
  told := nofun
  listed := nofun
  guarded := nofun

theorem Inv.proceed (h : Inv key first w) (hcall : w.calls[i]? = some call) :
    Inv key first (w.proceed key i call) := by
  have heffect := proceed_effect i h.counter (h.guarded call (List.mem_of_getElem? hcall))
  cases hanswer : call.stage.answer? with
  | none =>
      refine h.effect hcall ?_ heffect
      intro n hn
      rw [World.answer?, hcall, Option.bind_some, hanswer] at hn
      cases hn
  | some answer =>
      cases hstage : call.stage with
      | done answer =>
          simp only [World.proceed, hstage]
          exact h
      | reading attempts =>
          rw [hstage] at hanswer
          cases hanswer
      | raising attempts found =>
          rw [hstage] at hanswer
          cases hanswer

/-- One move: a new call, a request of one that is under way, a lease that is lost, or what
other clients do. -/
theorem Inv.step (h : Inv key first w) (move : Move) : Inv key first (w.step key move) := by
  cases move with
  | call client =>
      simp only [World.step]
      refine h.spares ⟨rfl, Int.le_refl _, rfl⟩ rfl ?_ ?_
      · refine answer?_call w client ?_
        split
        · exact nofun
        · exact trying_answer key _ _
      · intro call hcall
        rcases List.mem_append.mp hcall with hmem | hmem
        · exact h.guarded call hmem
        · obtain rfl := List.mem_singleton.mp hmem
          simp only
          split
          · exact trivial
          · exact trying_guarded key _ _ _
  | advance i =>
      simp only [World.step]
      cases hcall : w.calls[i]? with
      | none => exact h
      | some call => exact h.proceed hcall
  | lose lease =>
      simp only [World.step]
      split
      · exact h
      · rename_i hfree
        cases hdrop : w.server.dropLease lease with
        | none => exact h
        | some server =>
            refine h.spares (spares_dropLease ?_ hdrop) rfl (fun _ _ => Iff.rfl) h.guarded
            intro r hr hlease
            exact hfree (by rw [hr]; exact decide_eq_true hlease)
  | others t =>
      exact h.spares (spares_apply key w.server t) rfl (fun _ _ => Iff.rfl) h.guarded

/-- Any interleaving of calls, lost leases and other clients keeps the invariant. The main
result is read off it. -/
theorem Inv.run (h : Inv key first w) (moves : List Move) : Inv key first (w.run key moves) := by
  induction moves generalizing w with
  | nil => exact h
  | cons move rest ih => exact ih (h.step move)

/-- A call commits once: each of its commits was answered with another count. -/
theorem Inv.nodup (h : Inv key first w) : w.committed.Nodup := by
  refine List.pairwise_iff_getElem.mpr ?_
  intro j j' hj hj' hlt heq
  have htold := h.told j _ (List.getElem?_eq_getElem hj)
  have htold' := h.told j' _ (List.getElem?_eq_getElem hj')
  rw [heq, htold'] at htold
  have : first + j' + 1 = first + j + 1 := Except.ok.inj (Option.some.inj htold)
  omega

end

/-- The counts that calls are told, in the order of their commits, are the next ones
after the first; what is stored is the last of them; and a call that fails has not
committed. -/
theorem increments_count_up (key : String) {s : Server} {first : Int}
    (h : s.Counter key first) (moves : List Move) :
    let w := (World.begin s).run key moves
    w.server.count? key = some (first + w.committed.length) ∧
      (w.committed ≠ [] → (w.server.record? key).map Record.value =
        some (Text.utf8 (Decimal.showInt (first + w.committed.length)))) ∧
      w.committed.map w.answer? =
        (List.range w.committed.length).map (fun j => some (.ok (first + j + 1))) ∧
      w.committed.Nodup ∧
      (∀ i n, w.answer? i = some (.ok n) → i ∈ w.committed) ∧
      (∀ i j n, w.answer? i = some (.ok n) → w.answer? j = some (.ok n) → i = j) ∧
      ∀ i failure, w.answer? i = some (.error failure) → i ∉ w.committed := by
  intro w
  have hw : Inv key first w := (Inv.begin h).run moves
  refine ⟨hw.counter.count, hw.text, ?_, hw.nodup, hw.listed, ?_, ?_⟩
  · refine List.ext_getElem (by simp only [List.length_map, List.length_range]) ?_
    intro j hj hj'
    simp only [List.length_map] at hj
    simp only [List.getElem_map, List.getElem_range]
    exact hw.told j _ (List.getElem?_eq_getElem hj)
  · intro i i' n hi hi'
    obtain ⟨j, hj⟩ := List.mem_iff_getElem?.mp (hw.listed i n hi)
    obtain ⟨j', hj'⟩ := List.mem_iff_getElem?.mp (hw.listed i' n hi')
    have htold := Except.ok.inj (Option.some.inj (hi.symm.trans (hw.told j i hj)))
    have htold' := Except.ok.inj (Option.some.inj (hi'.symm.trans (hw.told j' i' hj')))
    have : j = j' := by omega
    subst this
    exact Option.some.inj (hj.symm.trans hj')
  · intro i failure hi
    refine hw.not_committed ?_
    intro n hn
    rw [hi] at hn
    cases Option.some.inj hn

/-- Two clients that read the same count: the one that commits later has to read
again. -/
def sampleMoves : List Move :=
  [.call .create, .call .create, .advance 0, .advance 1, .advance 1, .advance 0, .advance 0,
    .advance 0]

/-- Both clients read zero. The second one commits first and is told one; the guard of the
first no longer holds, and with its second attempt it is told two. -/
theorem increments_count_up_interleaved :
    let w := (World.begin .empty).run "k" sampleMoves
    Server.empty.Counter "k" 0 ∧ w.committed = [1, 0] ∧
      w.committed.map w.answer? = [some (.ok 1), some (.ok 2)] ∧ w.server.count? "k" = some 2 := by
  intro w
  have h : Server.empty.Counter "k" 0 := ⟨rfl, Int.le_refl 0, rfl, nofun⟩
  have hcommitted : w.committed = [1, 0] := by decide +kernel
  obtain ⟨hcount, -, hanswers, -⟩ := increments_count_up "k" h sampleMoves
  change w.server.count? "k" = some (0 + (w.committed.length : Int)) at hcount
  change w.committed.map w.answer? = _ at hanswers
  rw [hcommitted] at hcount hanswers
  exact ⟨h, hcommitted, by rw [hcommitted]; exact hanswers, hcount⟩

theorem step_new (key : String) {w : World} {before : List Call} {call : Call}
    (hcalls : w.calls = before ++ [call]) :
    w.step key (.advance before.length) = w.proceed key before.length call := by
  simp only [World.step, hcalls, List.getElem?_concat_length]

theorem calls_after_new {w : World} {before : List Call} {call : Call}
    (hcalls : w.calls = before ++ [call]) (stage : Stage) (l : Link) :
    (w.after before.length stage l).calls = before ++ [⟨l.client, stage⟩] := by
  rw [World.after, hcalls, List.set_append_right _ _ (Nat.le_refl _), Nat.sub_self]
  rfl

theorem done_new (key : String) {w : World} {before : List Call} {client : Client}
    {answer : Except Failure Int} (hcalls : w.calls = before ++ [⟨client, .done answer⟩])
    (times : Nat) : w.run key (List.replicate times (.advance before.length)) = w := by
  induction times with
  | zero => rfl
  | succ times ih =>
      have hidle : w.step key (.advance before.length) = w := by
        rw [step_new key hcalls]
        rfl
      rw [World.run, List.replicate, List.foldl, hidle]
      exact ih

/-- Two steps for each attempt, read and commit, and the call has done what its client does
in one go with as many attempts. -/
theorem attempts_uninterrupted (key : String) (attempts : Nat) {w : World} {before : List Call}
    {l : Link} (hserver : w.server = l.server)
    (hcalls : w.calls = before ++ [⟨l.client, .trying key l attempts⟩]) :
    let w' := w.run key (List.replicate (2 * attempts) (.advance before.length))
    let answer := l.incrementWithin key attempts
    w'.server = answer.2.server ∧ w'.calls = before ++ [⟨answer.2.client, .done answer.1⟩] := by
  induction attempts generalizing w l with
  | zero => exact ⟨hserver, hcalls⟩
  | succ attempts ih =>
      obtain ⟨server, client⟩ := l
      obtain rfl : w.server = server := hserver
      replace hcalls : w.calls = before ++ [⟨client, .reading attempts⟩] := hcalls
      have hrun : w.run key (List.replicate (2 * (attempts + 1)) (.advance before.length)) =
          ((w.proceed key before.length ⟨client, .reading attempts⟩).step key
            (.advance before.length)).run key
              (List.replicate (2 * attempts) (.advance before.length)) := by
        rw [← step_new key hcalls]
        rfl
      simp only [hrun, World.proceed, Link.incrementWithin]
      rcases Link.readCounter key ⟨w.server, client⟩ with ⟨failure | found, l⟩
      · have hdone := calls_after_new hcalls (.done (.error failure)) l
        simp only [Stage.afterReading, Link.andThen]
        have hstill := done_new key hdone (2 * attempts + 1)
        rw [World.run, List.replicate, List.foldl] at hstill
        rw [World.run, hstill]
        exact ⟨rfl, hdone⟩
      · have hread := calls_after_new hcalls (.raising attempts found) l
        simp only [Stage.afterReading, Link.andThen, step_new key hread, World.proceed]
        rcases l with ⟨server, client⟩
        have hserver : (w.after before.length (.raising attempts found) ⟨server, client⟩).server =
            server := rfl
        simp only [hserver]
        rcases Link.raiseCounter key found ⟨server, client⟩ with ⟨failure | _ | n, l⟩
        · have hdone := calls_after_new hread (.done (.error failure)) l
          simp only [Stage.afterRaising, done_new key hdone]
          exact ⟨rfl, hdone⟩
        · exact ih rfl (calls_after_new hread (.trying key l attempts) l)
        · have hdone := calls_after_new hread (.done (.ok n)) l
          simp only [Stage.afterRaising, done_new key hdone]
          exact ⟨rfl, hdone⟩

/-- A call that nothing interrupts is a call of its client: its requests, made one after the
other, lead to the same server and the same answer, so the moves above are those of the
client's own code. -/
theorem increment_uninterrupted (key : String) (w : World) (client : Client) :
    let moves := List.replicate (2 * Link.incrementAttempts) (.advance w.calls.length)
    let w' := w.run key (.call client :: moves)
    let answer := Link.increment key ⟨w.server, client⟩
    w'.server = answer.2.server ∧ w'.calls = w.calls ++ [⟨answer.2.client, .done answer.1⟩] := by
  intro moves w' answer
  have hrun : w' = (w.step key (.call client)).run key moves := by
    simp only [w', World.run, List.foldl_cons]
  cases hclosed : client.closed with
  | true =>
      have hcalls : (w.step key (.call client)).calls =
          w.calls ++ [⟨client, .done (.error (.error .closed))⟩] := by
        simp only [World.step, hclosed, if_true]
      simp only [hrun, moves, done_new key hcalls, answer, Link.increment, Link.whenOpen, hclosed,
        if_true]
      exact ⟨rfl, hcalls⟩
  | false =>
      have hcalls : (w.step key (.call client)).calls =
          w.calls ++ [⟨client, .trying key ⟨w.server, client⟩ Link.incrementAttempts⟩] := by
        simp only [World.step, hclosed, Bool.false_eq_true, if_false]
      have hanswer : answer =
          Link.incrementWithin key Link.incrementAttempts ⟨w.server, client⟩ := by
        simp only [answer, Link.increment, Link.whenOpen, hclosed, Bool.false_eq_true, if_false]
      rw [hrun, hanswer]
      exact attempts_uninterrupted key Link.incrementAttempts rfl hcalls

end Rollcall.Etcd.Counting
