import Rollcall.Proofs.Picker

/-!
Callers that share a picker. They pick in any order, each pick whole; the cursor steps
on by one with every pick, whoever makes it. A round is any stretch of picks as long as
the list, wherever it begins: it meets every position once. Main statements: `turns_eq`,
`perm_cycle` and `picks_fairly`.
-/

namespace Rollcall.Picker

variable {κ γ : Type}

/-- One pick of a run: who picked, where the cursor stood, and what came of it. -/
structure Turn (κ γ : Type) where
  caller : κ
  position : Nat
  picked : Except Error γ

/-- The picks of callers that come one after the other. -/
def turns : List κ → Picker γ → List (Turn κ γ)
  | [], _ => []
  | caller :: rest, p => ⟨caller, p.next, p.pick.1⟩ :: turns rest p.pick.2

/-- The positions that a cursor meets in `k` steps, going round from `start`. -/
def cycle (n start k : Nat) : List Nat := (List.range k).map (fun i => (start + i) % n)

section Cycle

variable {n : Nat}

theorem cycle_add (start j k : Nat) :
    cycle n start (j + k) = cycle n start j ++ cycle n (start + j) k := by
  simp only [cycle, List.range_add, List.map_append, List.map_map]
  congr 1
  apply List.map_congr_left
  intro i _
  simp only [Function.comp_apply, Nat.add_assoc]

theorem cycle_add_self (start k : Nat) : cycle n (start + n) k = cycle n start k := by
  apply List.map_congr_left
  intro i _
  rw [Nat.add_right_comm, Nat.add_mod_right]

/-- A window of a cycle is a cycle from where the window begins. -/
theorem drop_take_cycle (start : Nat) {i j k : Nat} (h : i + j ≤ k) :
    ((cycle n start k).drop i).take j = cycle n (start + i) j := by
  have hlength (start k : Nat) : (cycle n start k).length = k := by
    rw [cycle, List.length_map, List.length_range]
  obtain ⟨rest, rfl⟩ := Nat.exists_eq_add_of_le h
  rw [Nat.add_assoc, cycle_add, List.drop_left' (hlength _ _), cycle_add,
    List.take_left' (hlength _ _)]

theorem cycle_eq_rotate (n start : Nat) : cycle n start n = (List.range n).rotate start := by
  apply List.ext_getElem
  · simp only [cycle, List.length_map, List.length_range, List.length_rotate]
  · intro i _ _
    simp only [cycle, List.getElem_map, List.getElem_range, List.getElem_rotate,
      List.length_range, Nat.add_comm]

theorem perm_cycle (n start : Nat) : (cycle n start n).Perm (List.range n) := by
  rw [cycle_eq_rotate]
  exact List.rotate_perm _ _

theorem count_range {a : Nat} (h : a < n) : (List.range n).count a = 1 :=
  List.count_eq_one_of_mem List.nodup_range (List.mem_range.mpr h)

theorem nodup_cycle (start : Nat) {k : Nat} (h : k ≤ n) : (cycle n start k).Nodup := by
  obtain ⟨rest, rfl⟩ := Nat.exists_eq_add_of_le h
  have hround := (perm_cycle (k + rest) start).nodup_iff.mpr List.nodup_range
  rw [cycle_add] at hround
  exact (List.nodup_append.mp hround).1

/-- Whole rounds count every position once, and what is left over counts none twice. -/
theorem count_cycle_le {a b : Nat} (ha : a < n) (hb : b < n) (start k : Nat) :
    (cycle n start k).count a ≤ (cycle n start k).count b + 1 := by
  induction k using Nat.strong_induction_on with
  | _ k ih =>
      -- Less than a round meets no position twice; otherwise a whole round is split off.
      rcases Nat.lt_or_ge k n with hless | hmore
      · have hone := List.nodup_iff_count_le_one.mp (nodup_cycle start (Nat.le_of_lt hless)) a
        omega
      · obtain ⟨rest, rfl⟩ := Nat.exists_eq_add_of_le hmore
        have hrest := ih rest (by omega)
        have hround := perm_cycle n start
        rw [cycle_add, cycle_add_self, List.count_append, List.count_append, hround.count_eq a,
          hround.count_eq b, count_range ha, count_range hb]
        omega

end Cycle

variable {p : Picker γ}

/-- Whoever picks, the `i`-th pick is what is `i` places on from the cursor. -/
theorem turns_eq (h : p.next < p.connections.length) (callers : List κ) :
    p.turns callers = callers.mapIdx (fun i caller =>
      ⟨caller, (p.next + i) % p.connections.length, .ok (p.ahead h i)⟩) := by
  induction callers generalizing p with
  | nil => rfl
  | cons caller rest ih =>
      have hnext : (p.next + 1) % p.connections.length < p.connections.length :=
        Nat.mod_lt _ (Nat.zero_lt_of_lt h)
      have hrest := ih (p := { p with next := (p.next + 1) % p.connections.length }) hnext
      simp only [turns, pick_of_lt h, hrest, List.mapIdx_cons, Nat.add_zero, Nat.mod_eq_of_lt h,
        ahead, List.get_eq_getElem, next_add_succ]

/-- The positions that callers are given are a cycle from the cursor, whoever they are. -/
theorem positions_turns (h : p.next < p.connections.length) (callers : List κ) :
    (p.turns callers).map Turn.position = cycle p.connections.length p.next callers.length := by
  apply List.ext_getElem
  · simp only [turns_eq h, cycle, List.length_map, List.length_mapIdx, List.length_range]
  · intro i _ _
    simp only [turns_eq h, cycle, List.getElem_map, List.getElem_mapIdx, List.getElem_range]

/-- Fair turns. Of the picks that any callers make in any order, the `i`-th is the
connection that is `i` places on from the start, going round, and no pick is beyond the
end of the list. So any stretch as long as the list meets every position once, the order
comes again after each such stretch, and no position is ever two picks ahead of another.
A picker that starts by chance has one of the positions as its start. -/
theorem picks_fairly {connections : List γ} (hsome : connections ≠ []) (start : Nat)
    (callers : List κ) :
    let n := connections.length
    let turns := (startingAt connections start).turns callers
    turns.map Turn.caller = callers ∧
    (∀ i turn, turns[i]? = some turn →
      turn.position = (start % n + i) % n ∧ turn.position < n ∧
        ∃ c, connections[turn.position]? = some c ∧ turn.picked = .ok c) ∧
    (∀ i, i + n ≤ callers.length →
      (((turns.drop i).take n).map Turn.position).Perm (List.range n)) ∧
    (∀ i turn again, turns[i]? = some turn → turns[i + n]? = some again →
      again.position = turn.position ∧ again.picked = turn.picked) ∧
    (∀ a b, a < n → b < n →
      (turns.map Turn.position).count a ≤ (turns.map Turn.position).count b + 1) ∧
    ∀ chance, ∃ first, first < n ∧ build connections chance = startingAt connections first := by
  intro n turns
  have hn : 0 < n := List.length_pos_iff.mpr hsome
  have hplaced : (startingAt connections start).next < connections.length := Nat.mod_lt _ hn
  have hturns : turns = _ := turns_eq hplaced callers
  have hpositions : turns.map Turn.position = cycle n (start % n) callers.length :=
    positions_turns hplaced callers
  have hturn (i : Nat) (turn : Turn κ γ) (h : turns[i]? = some turn) :
      turn.position = (start % n + i) % n ∧ turn.position < n ∧
        ∃ c, connections[turn.position]? = some c ∧ turn.picked = .ok c := by
    rw [hturns, List.getElem?_mapIdx] at h
    obtain ⟨caller, -, rfl⟩ := Option.map_eq_some_iff.mp h
    have hlt : (start % n + i) % n < n := Nat.mod_lt _ hn
    exact ⟨rfl, hlt, _, List.getElem?_eq_getElem hlt, rfl⟩
  refine ⟨?_, hturn, ?_, ?_, ?_, ?_⟩
  · rw [hturns]
    apply List.ext_getElem
    · rw [List.length_map, List.length_mapIdx]
    · intro i _ _
      rw [List.getElem_map, List.getElem_mapIdx]
  · intro i hi
    rw [List.map_take, List.map_drop, hpositions, drop_take_cycle _ hi]
    exact perm_cycle n _
  · intro i turn again hfirst hagain
    obtain ⟨hposition, -, c, hc, hpicked⟩ := hturn i turn hfirst
    obtain ⟨hposition', -, c', hc', hpicked'⟩ := hturn (i + n) again hagain
    have hsame : again.position = turn.position := by
      rw [hposition, hposition', ← Nat.add_assoc, Nat.add_mod_right]
    rw [hsame, hc] at hc'
    exact ⟨hsame, by rw [hpicked, hpicked', Option.some.inj hc']⟩
  · intro a b ha hb
    rw [hpositions]
    exact count_cycle_le ha hb _ _
  · intro chance
    refine ⟨chance % n, Nat.mod_lt _ hn, ?_⟩
    rw [build, startingAt, startingAt, Nat.mod_mod]

/-- Two callers share three connections, of which two are equal: each of the two rounds
among four picks meets every position. -/
theorem picks_fairly_shared :
    let connections := ["x", "y", "x"]
    let turns := (startingAt connections 5).turns [true, false, false, true]
    connections ≠ [] ∧ turns.map Turn.position = [2, 0, 1, 2] ∧
      (((turns.drop 0).take 3).map Turn.position).Perm [0, 1, 2] ∧
      (((turns.drop 1).take 3).map Turn.position).Perm [0, 1, 2] ∧
      (turns.map Turn.position).count 2 ≤ (turns.map Turn.position).count 0 + 1 := by
  intro connections turns
  have hsome : connections ≠ [] := by decide
  obtain ⟨-, -, hrounds, -, hcounts, -⟩ := picks_fairly hsome 5 [true, false, false, true]
  exact ⟨hsome, by decide, hrounds 0 (by decide), hrounds 1 (by decide),
    hcounts 2 0 (by decide) (by decide)⟩

end Rollcall.Picker
