import Mathlib.Data.List.Rotate
import Rollcall.Picker

/-!
What pickers pick. A picker that is placed, with its cursor on one of its connections,
stays so and keeps its list; one round of picks is its list, begun at the cursor. Main
statements: `picks_placed` and `picks_round`.
-/

namespace Rollcall.Picker

variable {γ : Type}

/-- The cursor stands on a connection, if there is one. -/
def Placed (p : Picker γ) : Prop := p.connections = [] ∨ p.next < p.connections.length

variable {p : Picker γ}

/-- Whatever the start, it is taken modulo the length of the list, so the cursor stands on a
connection. -/
theorem placed_startingAt (connections : List γ) (start : Nat) :
    (startingAt connections start).Placed := by
  cases connections with
  | nil => exact .inl rfl
  | cons c rest => exact .inr (Nat.mod_lt _ (Nat.succ_pos _))

@[simp] theorem connections_build (connections : List γ) (chance : Nat) :
    (build connections chance).connections = connections := rfl

theorem pick_of_empty (h : p.connections = []) : p.pick = (.error .noReadyConnection, p) := by
  rw [pick, h]
  rfl

/-- A pick gives the connection at the cursor and moves it on by one, going round at the
end. -/
theorem pick_of_lt (h : p.next < p.connections.length) :
    p.pick = (.ok p.connections[p.next],
      { p with next := (p.next + 1) % p.connections.length }) := by
  rw [pick, List.getElem?_eq_getElem h]

@[simp] theorem connections_pick (p : Picker γ) : p.pick.2.connections = p.connections := by
  rw [pick]
  split <;> rfl

theorem Placed.pick (h : p.Placed) : p.pick.2.Placed := by
  rcases h with hempty | hlt
  · rw [pick_of_empty hempty]
    exact .inl hempty
  · rw [pick_of_lt hlt]
    exact .inr (Nat.mod_lt _ (Nat.zero_lt_of_lt hlt))

/-- A pick fails if there is nothing to pick, and gives a connection of the list if
there is. -/
theorem Placed.pick_cases (h : p.Placed) :
    p.connections = [] ∧ p.pick.1 = .error .noReadyConnection ∨
      ∃ c ∈ p.connections, p.pick.1 = .ok c := by
  rcases h with hempty | hlt
  · rw [pick_of_empty hempty]
    exact .inl ⟨hempty, rfl⟩
  · rw [pick_of_lt hlt]
    exact .inr ⟨_, List.getElem_mem hlt, rfl⟩

/-- The connection that is `i` places on from the cursor, going round. -/
def ahead (p : Picker γ) (h : p.next < p.connections.length) (i : Nat) : γ :=
  p.connections.get ⟨(p.next + i) % p.connections.length, Nat.mod_lt _ (Nat.zero_lt_of_lt h)⟩

/-- Places are counted on from the next cursor as from this one. -/
theorem next_add_succ (next size i : Nat) :
    ((next + 1) % size + i) % size = (next + (i + 1)) % size := by
  rw [Nat.mod_add_mod]
  congr 1
  omega

/-- Several picks are the connections from the cursor on, one after the other. -/
theorem picks_placed (h : p.next < p.connections.length) (n : Nat) :
    p.picks n = ((List.range n).map (fun i => .ok (p.ahead h i)),
      { p with next := (p.next + n) % p.connections.length }) := by
  induction n generalizing p with
  | zero =>
      rw [Nat.add_zero, Nat.mod_eq_of_lt h]
      rfl
  | succ n ih =>
      have hnext : (p.next + 1) % p.connections.length < p.connections.length :=
        Nat.mod_lt _ (Nat.zero_lt_of_lt h)
      have hrest := ih (p := { p with next := (p.next + 1) % p.connections.length }) hnext
      simp only [picks, pick_of_lt h, hrest, next_add_succ]
      rw [List.range_succ_eq_map, List.map_cons, List.map_map]
      simp only [ahead, List.get_eq_getElem, Nat.add_zero, Nat.mod_eq_of_lt h, next_add_succ,
        Function.comp_def]

/-- One round is the list, begun at the cursor, and brings the cursor back. -/
theorem picks_round (h : p.Placed) :
    p.picks p.size = ((p.connections.rotate p.next).map .ok, p) := by
  rcases h with hempty | hlt
  · rw [size, hempty]
    rfl
  · rw [picks_placed hlt, size, Nat.add_mod_right, Nat.mod_eq_of_lt hlt]
    congr 1
    refine List.ext_getElem ?_ fun i _ _ => ?_
    · simp only [List.length_map, List.length_range, List.length_rotate]
    · simp only [List.getElem_map, List.getElem_range, List.getElem_rotate, ahead,
        List.get_eq_getElem, Nat.add_comm]

end Rollcall.Picker
