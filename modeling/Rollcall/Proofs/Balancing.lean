import Rollcall.Balancer
import Rollcall.Proofs.Picker
import Rollcall.Proofs.Table
import Rollcall.Proofs.Text.Order

/-!
What a balancer picks from. Whatever becomes of its connections, its picker serves
those that are ready by their latest news, in the order of their addresses; a picker
that somebody has kept from before goes on with its own list. Main statements:
`Balancer.becomes_update`, `Balancer.becomes_remove` and `Balancer.becomes_retain`, that
the picker is rebuilt whenever it has to be, and `picks_what_is_ready`.
-/

namespace Rollcall

namespace Balancer

variable {γ : Type} {b : Balancer γ}

/-- What a change of the connections does: the picker stays where the same ones are
ready, or a new one is built. -/
inductive Becomes (b : Balancer γ) : Balancer γ → Prop where
  | same {t : Table String (SubConnection γ)}
      (hready : ({ b with subConnections := t } : Balancer γ).ready = b.ready) :
      Becomes b { b with subConnections := t }
  | rebuilt (t : Table String (SubConnection γ)) (chance : Nat) :
      Becomes b (({ b with subConnections := t } : Balancer γ).rebuild chance)

theorem becomes_ite {t : Table String (SubConnection γ)} {rebuilds : Prop} [Decidable rebuilds]
    (chance : Nat)
    (h : ¬ rebuilds → ({ b with subConnections := t } : Balancer γ).ready = b.ready) :
    b.Becomes (if rebuilds then ({ b with subConnections := t } : Balancer γ).rebuild chance
      else { b with subConnections := t }) := by
  split
  · exact .rebuilt t chance
  · rename_i hstays
    exact .same (h hstays)

/-- The ready connections come in the order of the table, that is, of the bytes of their
addresses. -/
theorem ready_eq (b : Balancer γ) : b.ready =
    (b.subConnections.filter (fun _ s => s.isReady)).rows.map
      (fun row => row.2.connection) := by
  rw [ready, Table.values, List.filter_map, List.map_map]
  rfl

/-- Of the entries only those that are ready count, so two tables with the same ready
entries make the same list. -/
theorem ready_congr {t : Table String (SubConnection γ)}
    (h : ∀ address, (t.get? address).filter SubConnection.isReady =
      (b.subConnections.get? address).filter SubConnection.isReady) :
    ({ b with subConnections := t } : Balancer γ).ready = b.ready := by
  rw [ready_eq, ready_eq]
  congr 2
  apply Table.ext_get?
  intro address
  rw [Table.get?_filter, Table.get?_filter]
  exact h address

theorem filter_isReady {address : String} (h : ¬ b.isReady address = true) :
    (b.subConnections.get? address).filter SubConnection.isReady = none := by
  rw [isReady] at h
  cases hfound : b.subConnections.get? address with
  | none => rfl
  | some s =>
      rw [hfound] at h
      exact Option.filter_some_neg (Bool.eq_false_iff.mpr h)

/-- An entry that neither was nor becomes ready leaves the others as they are. -/
theorem becomes_update (b : Balancer γ) (address : String) (connection : γ)
    (state : Connectivity) (chance : Nat) :
    b.Becomes (b.update address connection state chance) := by
  refine becomes_ite chance fun hneither => ready_congr fun other => ?_
  rw [Bool.or_eq_true, not_or, decide_eq_true_eq] at hneither
  obtain ⟨hwas, hbecomes⟩ := hneither
  by_cases hother : other = address
  · rw [hother, filter_isReady hwas]
    split
    · rw [Table.get?_erase, if_pos rfl]
      rfl
    · rw [Table.get?_insert, if_pos rfl]
      exact Option.filter_some_neg (decide_eq_false hbecomes)
  · split
    · rw [Table.get?_erase, if_neg hother]
    · rw [Table.get?_insert, if_neg hother]

theorem becomes_remove (b : Balancer γ) (address : String) (chance : Nat) :
    b.Becomes (b.remove address chance) := by
  refine becomes_ite chance fun hwas => ready_congr fun other => ?_
  rw [Table.get?_erase]
  by_cases hother : other = address
  · rw [if_pos hother, hother, filter_isReady hwas]
    rfl
  · rw [if_neg hother]

theorem becomes_retain (b : Balancer γ) (addresses : List String) (chance : Nat) :
    b.Becomes (b.retain addresses chance) := by
  simp only [retain]
  split
  · rename_i hsize
    have hrows : (b.subConnections.filter (fun address _ => addresses.contains address)).rows =
        b.subConnections.rows := List.filter_sublist.eq_of_length hsize
    refine .same (ready_congr fun other => ?_)
    rw [Table.get?, hrows]
    rfl
  · exact .rebuilt _ chance

/-- An update enters the connection with its state, or takes the entry out when that is shut
down. -/
theorem subConnections_update (b : Balancer γ) (address : String) (connection : γ)
    (state : Connectivity) (chance : Nat) :
    (b.update address connection state chance).subConnections =
      if state = .shutdown then b.subConnections.erase address
      else b.subConnections.insert address ⟨connection, state⟩ := by
  simp only [update]
  split <;> rfl

theorem subConnections_remove (b : Balancer γ) (address : String) (chance : Nat) :
    (b.remove address chance).subConnections = b.subConnections.erase address := by
  simp only [remove]
  split <;> rfl

theorem subConnections_retain (b : Balancer γ) (addresses : List String) (chance : Nat) :
    (b.retain addresses chance).subConnections =
      b.subConnections.filter (fun address _ => addresses.contains address) := by
  simp only [retain]
  split <;> rfl

def Current (b : Balancer γ) : Prop := b.picker.connections = b.ready

/-- Whatever changes, the picker serves what is ready: where it is not rebuilt the ready
connections are the same as before. -/
theorem Becomes.current {b' : Balancer γ} (h : b.Becomes b') (hb : b.Current) : b'.Current := by
  cases h with
  | same hready => exact Eq.trans hb hready.symm
  | rebuilt t chance => rfl

end Balancer

namespace Balancing

variable {γ : Type}

/-- What a balancer is told, and picks. A picker that was built has a number and may be
kept; each new one begins where chance has it. -/
inductive Move (γ : Type) where
  | update (address : String) (connection : γ) (state : Connectivity) (chance : Nat)
  | remove (address : String) (chance : Nat)
  | retain (addresses : List String) (chance : Nat)
  | pick (j : Nat)

/-- A balancer, and the pickers that it has replaced. -/
structure World (γ : Type) where
  balancer : Balancer γ
  replaced : List (Picker γ)

namespace World

def start : World γ := ⟨.empty, []⟩

/-- All pickers that were built; the last is that of the balancer. -/
def pickers (w : World γ) : List (Picker γ) := w.replaced ++ [w.balancer.picker]

/-- Somebody may go on with a picker that is replaced. -/
def become (w : World γ) (b : Balancer γ) : World γ :=
  ⟨b, if b.generation = w.balancer.generation then w.replaced
    else w.replaced ++ [w.balancer.picker]⟩

def step (w : World γ) : Move γ → World γ
  | .update address connection state chance =>
      w.become (w.balancer.update address connection state chance)
  | .remove address chance => w.become (w.balancer.remove address chance)
  | .retain addresses chance => w.become (w.balancer.retain addresses chance)
  | .pick j =>
      if j = w.replaced.length then { w with balancer := w.balancer.pick.2 }
      else { w with replaced := w.replaced.modify j (fun p => p.pick.2) }

def run (w : World γ) (moves : List (Move γ)) : World γ := moves.foldl step w

end World

/-- What a move makes of the connection to an address. -/
def Move.tell (address : String) (known : Option (SubConnection γ)) :
    Move γ → Option (SubConnection γ)
  | .update other connection state _ =>
      if address = other then
        if state = .shutdown then none else some ⟨connection, state⟩
      else known
  | .remove other _ => if address = other then none else known
  | .retain addresses _ => if address ∈ addresses then known else none
  | .pick _ => known

def latest? (moves : List (Move γ)) (address : String) : Option (SubConnection γ) :=
  moves.foldl (Move.tell address) none

theorem modify_concat {α : Type} (xs : List α) (a : α) (j : Nat) (f : α → α) :
    (xs ++ [a]).modify j f = if j = xs.length then xs ++ [f a] else xs.modify j f ++ [a] := by
  induction xs generalizing j with
  | nil => cases j <;> simp
  | cons x rest ih =>
      cases j with
      | zero => rfl
      | succ j =>
          simp only [List.cons_append, List.modify_succ_cons, ih, List.length_cons,
            Nat.add_right_cancel_iff]
          split <;> rfl

section

variable {w w' : World γ}

theorem pickers_pick (w : World γ) (j : Nat) :
    (w.step (.pick j)).pickers = w.pickers.modify j (fun p => p.pick.2) := by
  simp only [World.pickers, modify_concat, World.step]
  split <;> rfl

theorem pickers_become {b : Balancer γ} (h : w.balancer.Becomes b) :
    (w.become b).pickers = w.pickers ∨
      ∃ p, p.Placed ∧ (w.become b).pickers = w.pickers ++ [p] := by
  cases h with
  | same hready =>
      left
      rw [World.become, if_pos rfl]
      rfl
  | rebuilt t chance =>
      right
      let b : Balancer γ := { w.balancer with subConnections := t }
      have hgeneration : (b.rebuild chance).generation ≠ w.balancer.generation :=
        Nat.succ_ne_self w.balancer.generation
      refine ⟨.build b.ready chance, Picker.placed_startingAt b.ready chance, ?_⟩
      rw [World.become, if_neg hgeneration]
      rfl

/-- Pickers keep their lists, and stay placed. -/
structure GoesOn (w w' : World γ) : Prop where
  kept : ∀ (j : Nat) (p : Picker γ), w.pickers[j]? = some p →
    ∃ p', w'.pickers[j]? = some p' ∧ p'.connections = p.connections
  placed : (∀ p ∈ w.pickers, p.Placed) → ∀ p ∈ w'.pickers, p.Placed

/-- When the connections change, pickers that were built go on with the lists that they
have. -/
theorem goesOn_become {b : Balancer γ} (h : w.balancer.Becomes b) : GoesOn w (w.become b) := by
  rcases pickers_become h with hsame | ⟨new, hnew, hadded⟩
  · exact ⟨fun j p hp => ⟨p, hsame ▸ hp, rfl⟩, fun hplaced => hsame ▸ hplaced⟩
  · constructor
    · intro j p hp
      refine ⟨p, ?_, rfl⟩
      rw [hadded, List.getElem?_append_left (List.getElem?_eq_some_iff.mp hp).1]
      exact hp
    · intro hplaced p hp
      rw [hadded] at hp
      rcases List.mem_append.mp hp with hold | hlast
      · exact hplaced p hold
      · rw [List.mem_singleton.mp hlast]
        exact hnew

theorem goesOn_pick (w : World γ) (j : Nat) : GoesOn w (w.step (.pick j)) := by
  have hpick (i : Nat) : (w.step (.pick j)).pickers[i]? =
      (w.pickers[i]?).map (fun p => if j = i then p.pick.2 else p) := by
    rw [pickers_pick, List.getElem?_modify]
    rfl
  constructor
  · intro i p hp
    refine ⟨_, by rw [hpick, hp]; rfl, ?_⟩
    split
    · exact p.connections_pick
    · rfl
  · intro hplaced p hp
    obtain ⟨i, hi⟩ := List.mem_iff_getElem?.mp hp
    rw [hpick] at hi
    obtain ⟨old, hold, rfl⟩ := Option.map_eq_some_iff.mp hi
    have holdPlaced := hplaced old (List.mem_iff_getElem?.mpr ⟨i, hold⟩)
    split
    · exact holdPlaced.pick
    · exact holdPlaced

theorem goesOn_step (w : World γ) (move : Move γ) : GoesOn w (w.step move) := by
  cases move with
  | update address connection state chance => exact goesOn_become (w.balancer.becomes_update ..)
  | remove address chance => exact goesOn_become (w.balancer.becomes_remove ..)
  | retain addresses chance => exact goesOn_become (w.balancer.becomes_retain ..)
  | pick j => exact goesOn_pick w j

/-- No run changes the list of a picker that was built, so who keeps an old one goes on
being served from its own list. -/
theorem goesOn_run (w : World γ) (moves : List (Move γ)) : GoesOn w (w.run moves) := by
  induction moves generalizing w with
  | nil => exact ⟨fun j p hp => ⟨p, hp, rfl⟩, id⟩
  | cons move rest ih =>
      have hfirst := goesOn_step w move
      have hrest := ih (w.step move)
      refine ⟨?_, fun hplaced => hrest.placed (hfirst.placed hplaced)⟩
      intro j p hp
      obtain ⟨p', hp', hconnections⟩ := hfirst.kept j p hp
      obtain ⟨p'', hp'', hconnections'⟩ := hrest.kept j p' hp'
      exact ⟨p'', hp'', hconnections'.trans hconnections⟩

/-- The entries are the latest news of each address, and the picker serves those that
are ready. -/
structure Inv (known : String → Option (SubConnection γ)) (w : World γ) : Prop where
  known : ∀ address, w.balancer.subConnections.get? address = known address
  current : w.balancer.Current

/-- A move changes the entry of an address as its news says, and leaves every other. -/
theorem get?_step (w : World γ) (move : Move γ) (address : String) :
    (w.step move).balancer.subConnections.get? address =
      move.tell address (w.balancer.subConnections.get? address) := by
  cases move with
  | update other connection state chance =>
      rw [World.step, World.become, Balancer.subConnections_update, Move.tell]
      split
      · rw [Table.get?_erase]
      · rw [Table.get?_insert]
  | remove other chance =>
      rw [World.step, World.become, Balancer.subConnections_remove, Move.tell, Table.get?_erase]
  | retain addresses chance =>
      rw [World.step, World.become, Balancer.subConnections_retain, Move.tell,
        Table.get?_filter_key]
      simp only [List.contains_iff_mem]
  | pick j =>
      rw [World.step]
      split <;> rfl

/-- One move keeps entries and news in step, and the picker with them. -/
theorem Inv.step {known : String → Option (SubConnection γ)} (h : Inv known w) (move : Move γ) :
    Inv (fun address => move.tell address (known address)) (w.step move) := by
  constructor
  · intro address
    rw [get?_step, h.known]
  · cases move with
    | update address connection state chance =>
        exact (w.balancer.becomes_update ..).current h.current
    | remove address chance => exact (w.balancer.becomes_remove ..).current h.current
    | retain addresses chance => exact (w.balancer.becomes_retain ..).current h.current
    | pick j =>
        rw [World.step]
        split
        · exact (Picker.connections_pick _).trans h.current
        · exact h.current

/-- Over any run the entries are the latest news of each address, found by folding over the
moves. -/
theorem Inv.run {known : String → Option (SubConnection γ)} (h : Inv known w)
    (moves : List (Move γ)) :
    Inv (fun address => moves.foldl (Move.tell address) (known address)) (w.run moves) := by
  induction moves generalizing w known with
  | nil => exact h
  | cons move rest ih => exact ih (h.step move)

/-- The ready connections stand in the order of the bytes of their addresses. -/
theorem Inv.serves {known : String → Option (SubConnection γ)} (h : Inv known w) :
    ∃ rows : List (String × γ),
      rows.Pairwise (fun row row' => Text.utf8 row.1 < Text.utf8 row'.1) ∧
        (∀ address c, (address, c) ∈ rows ↔ known address = some ⟨c, .ready⟩) ∧
        w.balancer.picker.connections = rows.map Prod.snd := by
  let ready := w.balancer.subConnections.filter (fun _ s => s.isReady)
  refine ⟨ready.rows.map (fun row => (row.1, row.2.connection)), ?_, ?_, ?_⟩
  · exact ready.ascending.map _ (fun row row' hlt => Text.utf8_lt hlt)
  · intro address c
    rw [← h.known, List.mem_map]
    constructor
    · rintro ⟨⟨other, s⟩, hrow, heq⟩
      obtain ⟨rfl, rfl⟩ := Prod.mk.inj heq
      have hfound : ready.get? other = some s := Table.get?_eq_some_iff.mpr hrow
      rw [Table.get?_filter, Option.filter_eq_some_iff] at hfound
      obtain ⟨hfound, hready⟩ := hfound
      rw [hfound, ← of_decide_eq_true hready]
    · intro hfound
      refine ⟨(address, ⟨c, .ready⟩), Table.get?_eq_some_iff.mp ?_, rfl⟩
      rw [Table.get?_filter, hfound]
      rfl
  · rw [h.current, Balancer.ready_eq, List.map_map]
    rfl

end

/-- Whatever a balancer is told, and whoever picks in between: its picker serves the
connections of just those addresses whose latest news is that they are ready, in the
order of the bytes of the addresses. So a pick fails exactly if there are none, and
gives the connection that an address is ready with now. A picker that was built before
still serves its own list, and goes round it. -/
theorem picks_what_is_ready (moves : List (Move γ)) :
    let w := World.start.run moves
    (∃ rows : List (String × γ),
      rows.Pairwise (fun row row' => Text.utf8 row.1 < Text.utf8 row'.1) ∧
        (∀ address c, (address, c) ∈ rows ↔ latest? moves address = some ⟨c, .ready⟩) ∧
        w.balancer.picker.connections = rows.map Prod.snd) ∧
      (match w.balancer.pick.1 with
        | .error e => e = .noReadyConnection ∧
            ∀ address c, latest? moves address ≠ some ⟨c, .ready⟩
        | .ok c => ∃ address, latest? moves address = some ⟨c, .ready⟩) ∧
      ∀ (j : Nat) (p : Picker γ) (later : List (Move γ)), w.pickers[j]? = some p →
        ∃ p', (w.run later).pickers[j]? = some p' ∧ p'.connections = p.connections ∧
          (p'.pick.1 = .error .noReadyConnection ↔ p.connections = []) ∧
          p'.picks p.size = ((p.connections.rotate p'.next).map .ok, p') := by
  intro w
  have hstart : Inv (fun _ => none) (World.start : World γ) := ⟨fun _ => rfl, rfl⟩
  have hw : Inv (latest? moves) w := hstart.run moves
  have hplaced : ∀ p ∈ w.pickers, p.Placed := by
    refine (goesOn_run World.start moves).placed ?_
    intro p hp
    rw [List.mem_singleton.mp hp]
    exact .inl rfl
  refine ⟨hw.serves, ?_, ?_⟩
  · obtain ⟨rows, -, hrows, hserves⟩ := hw.serves
    have hcurrent : w.balancer.picker ∈ w.pickers := List.mem_append_right _ List.mem_cons_self
    have hpick : w.balancer.pick.1 = w.balancer.picker.pick.1 := rfl
    rw [hpick]
    rcases (hplaced _ hcurrent).pick_cases with ⟨hempty, hfails⟩ | ⟨c, hc, hgives⟩
    · rw [hfails]
      refine ⟨rfl, fun address c hready => ?_⟩
      rw [hserves, List.map_eq_nil_iff] at hempty
      exact List.not_mem_nil (hempty ▸ (hrows address c).mpr hready)
    · rw [hgives]
      rw [hserves] at hc
      obtain ⟨⟨address, c⟩, hrow, rfl⟩ := List.mem_map.mp hc
      exact ⟨address, (hrows address c).mp hrow⟩
  · intro j p later hp
    have hgoesOn := goesOn_run w later
    obtain ⟨p', hp', hconnections⟩ := hgoesOn.kept j p hp
    have hplaced' : p'.Placed := hgoesOn.placed hplaced p' (List.mem_of_getElem? hp')
    have hround := Picker.picks_round hplaced'
    rw [Picker.size, hconnections] at hround
    refine ⟨p', hp', hconnections, ?_, hround⟩
    rw [← hconnections]
    constructor
    · intro hfails
      rcases hplaced'.pick_cases with ⟨hempty, -⟩ | ⟨c, -, hgives⟩
      · exact hempty
      · cases hfails.symm.trans hgives
    · intro hempty
      rw [Picker.pick_of_empty hempty]

/-- Of two connections that are ready one is replaced, one is shut down, and a third is
not ready yet. -/
def sampleMoves : List (Move Nat) := [
  .update "b" 1 .ready 0,
  .update "a" 2 .ready 1,
  .pick 2,
  .update "b" 3 .ready 0,
  .update "c" 4 .connecting 0,
  .retain ["a", "b", "c", "b"] 0]

/-- The picker has the two that are ready; after one of them is shut down a picker that was
kept still serves both. -/
theorem picks_what_is_ready_replaced :
    let w := World.start.run sampleMoves
    let later := [.update "a" 2 .shutdown 0, .pick 2]
    w.balancer.pick.1 = .ok 2 ∧ latest? sampleMoves "a" = some ⟨2, .ready⟩ ∧
      (w.run later).balancer.picker.connections = [3] ∧
      w.pickers[2]? = some ⟨[2, 1], 0⟩ ∧
      ∃ p', (w.run later).pickers[2]? = some p' ∧ p'.picks 2 = ([.ok 1, .ok 2], p') := by
  intro w later
  have hkept : w.pickers[2]? = some ⟨[2, 1], 0⟩ := by decide
  obtain ⟨-, -, hlater⟩ := picks_what_is_ready sampleMoves
  obtain ⟨p', hp', -, -, hround⟩ := hlater 2 _ later hkept
  have hnext : ((w.run later).pickers[2]?).map Picker.next = some 1 := by decide
  rw [hp'] at hnext
  rw [Option.some.inj hnext] at hround
  exact ⟨rfl, by decide, by decide, hkept, p', hp', hround⟩

end Balancing

end Rollcall
