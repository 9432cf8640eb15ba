import Rollcall.Proofs.Key
import Rollcall.Proofs.Store.Update
import Rollcall.Proofs.Table

/-!
What a prefix query lists: the rows whose keys have the prefix, in order. It
depends on the keys, values and versions alone, so an update lists something
else under a prefix only if it publishes a change of a key with that prefix.
Main statements: `scan_eq_filter` and `scan_apply`.
-/

namespace Rollcall

/-- In ascending rows, one that is not below a prefix and does not have it has left all rows
with that prefix behind. -/
theorem startsWith_of_ascending {root : String} {rows : List (String × Entry)}
    {row : String × Entry} (hfrom : ¬ row.1 < root) (hnot : Key.startsWith root row.1 = false)
    (h : (row :: rows).Pairwise (fun a b => a.1 < b.1)) :
    ∀ later ∈ rows, Key.startsWith root later.1 = false := by
  intro later member
  have hlt := (List.pairwise_cons.mp h).1 later member
  cases hlater : Key.startsWith root later.1 with
  | false => rfl
  | true =>
      rw [Key.startsWith_of_between hfrom hlt hlater] at hnot
      cases hnot

theorem takeWhile_startsWith_eq_filter {root : String} {rows : List (String × Entry)}
    (hfrom : ∀ row ∈ rows, ¬ row.1 < root) (h : rows.Pairwise (fun a b => a.1 < b.1)) :
    rows.takeWhile (fun row => Key.startsWith root row.1) =
      rows.filter (fun row => Key.startsWith root row.1) := by
  induction rows with
  | nil => rfl
  | cons row rest ih =>
      cases hrow : Key.startsWith root row.1 with
      | true =>
          have hrest := ih (fun later hl => hfrom later (List.mem_cons_of_mem _ hl))
            (List.pairwise_cons.mp h).2
          simp only [List.takeWhile_cons, List.filter_cons, hrow, if_true, hrest]
      | false =>
          have hnone := startsWith_of_ascending (hfrom row List.mem_cons_self) hrow h
          have hempty : rest.filter (fun row => Key.startsWith root row.1) = [] := by
            apply List.filter_eq_nil_iff.mpr
            intro later member
            simp [hnone later member]
          simp [hrow, hempty]

/-- To skip the rows below the prefix and take rows while they have it is to take exactly
those that have it. So the scan of an ordered range is a filter. -/
theorem dropWhile_below_eq (root : String) {rows : List (String × Entry)}
    (h : rows.Pairwise (fun a b => a.1 < b.1)) :
    (rows.dropWhile (fun row => row.1 < root)).takeWhile
        (fun row => Key.startsWith root row.1) =
      rows.filter (fun row => Key.startsWith root row.1) := by
  induction rows with
  | nil => rfl
  | cons row rest ih =>
      obtain ⟨hrow, hrest⟩ := List.pairwise_cons.mp h
      by_cases hlt : row.1 < root
      · have hnot : Key.startsWith root row.1 = false := by
          cases hstarts : Key.startsWith root row.1 with
          | false => rfl
          | true => exact absurd hlt (Key.not_lt_of_startsWith hstarts)
        have hdropped : (row :: rest).dropWhile (fun row => row.1 < root) =
            rest.dropWhile (fun row => row.1 < root) :=
          List.dropWhile_cons_of_pos (decide_eq_true hlt)
        rw [hdropped, List.filter_cons_of_neg (by simp [hnot]), ih hrest]
      · have hfrom : ∀ later ∈ row :: rest, ¬ later.1 < root := by
          intro later member hbelow
          rcases List.mem_cons.mp member with rfl | hl
          · exact hlt hbelow
          · exact hlt (Std.lt_trans (hrow later hl) hbelow)
        have hkept : (row :: rest).dropWhile (fun row => row.1 < root) = row :: rest :=
          List.dropWhile_cons_of_neg (by rw [decide_eq_false hlt]; exact Bool.false_ne_true)
        rw [hkept, takeWhile_startsWith_eq_filter hfrom h]

namespace Store

/-- A query under a prefix lists all the rows with that prefix, in their order. -/
theorem scan_eq_filter (s : Store) (root : String) :
    s.scan ⟨root, true⟩ =
      (s.entries.rows.filter (fun row => Key.startsWith root row.1)).map toPair := by
  simp only [scan, if_true, dropWhile_below_eq root s.entries.ascending]

/-- What a query can see of the entries. -/
def visible (s : Store) : Table String (String × Int) :=
  s.entries.mapValues (fun _ e => (e.value, e.version))

theorem scan_eq_visible (s : Store) (root : String) :
    s.scan ⟨root, true⟩ =
      (s.visible.filter (fun key _ => Key.startsWith root key)).rows.map
        (fun row => ⟨row.1, row.2.1, row.2.2⟩) := by
  rw [scan_eq_filter]
  simp only [visible, Table.mapValues, Table.filter, List.filter_map, List.map_map]
  rfl

/-- What a query under a prefix lists depends on the entries under that prefix alone. -/
theorem scan_congr {s t : Store} {root : String}
    (h : s.entries.filter (fun key _ => Key.startsWith root key) =
      t.entries.filter (fun key _ => Key.startsWith root key)) :
    s.scan ⟨root, true⟩ = t.scan ⟨root, true⟩ := by
  rw [scan_eq_filter, scan_eq_filter]
  exact congrArg (List.map toPair) (congrArg Table.rows h)

/-- An update that changes what is under a prefix announces a change there. -/
theorem scan_apply (s : Store) (u : Update) (root : String) :
    (s.apply u).scan ⟨root, true⟩ = s.scan ⟨root, true⟩ ∨
      ∃ c, .change c ∈ s.announced u ∧ Key.startsWith root c.pair.key = true := by
  cases u with
  | put key value deadline =>
      cases hkey : Key.startsWith root key with
      | true => exact .inr ⟨_, List.mem_singleton.mpr rfl, hkey⟩
      | false => exact .inl (scan_congr (Table.filter_key_insert_of_not _ hkey _))
  | remove key =>
      cases hentry : s.entries.get? key with
      | none =>
          left
          simp only [apply, remove, hentry]
      | some e =>
          cases hkey : Key.startsWith root key with
          | true =>
              refine .inr ⟨⟨.delete, ⟨key, e.value, s.revision + 1⟩⟩, ?_, hkey⟩
              simp only [announced, hentry, List.mem_singleton]
          | false =>
              left
              apply scan_congr
              simp only [apply, remove, hentry]
              exact Table.filter_key_erase_of_not _ hkey
  | extend key deadline =>
      left
      cases hentry : s.entries.get? key with
      | none => simp only [apply, extend, hentry]
      | some e =>
          have hvisible : (s.apply (.extend key deadline)).visible = s.visible := by
            simp only [apply, extend, hentry]
            exact Table.mapValues_insert_of_eq _ _ hentry rfl
          rw [scan_eq_visible, scan_eq_visible, hvisible]
  | compact revision => exact .inl rfl
  | refreshAll => exact .inl rfl
  | watch scope version => exact .inl rfl
  | receive id => exact .inl rfl
  | drain id => exact .inl rfl
  | dropWatch id => exact .inl rfl
  | closeAll => exact .inl rfl

theorem scan_applyAll (s : Store) (us : List Update) (root : String) :
    (s.applyAll us).scan ⟨root, true⟩ = s.scan ⟨root, true⟩ ∨
      ∃ c, .change c ∈ s.announcedAll us ∧ Key.startsWith root c.pair.key = true := by
  induction us generalizing s with
  | nil => exact .inl rfl
  | cons u rest ih =>
      rw [applyAll_cons, announcedAll]
      rcases ih (s.apply u) with hsame | ⟨c, hc, hkey⟩
      · rcases scan_apply s u root with hfirst | ⟨c, hc, hkey⟩
        · exact .inl (hsame.trans hfirst)
        · exact .inr ⟨c, List.mem_append_left _ hc, hkey⟩
      · exact .inr ⟨c, List.mem_append_right _ hc, hkey⟩

end Store

end Rollcall
