import Rollcall.Table

/-!
More laws of tables: what a filter and an update bind, and that an update leaves
alone what a filter drops.
-/

set_option linter.unusedSectionVars false

namespace Rollcall.Table

universe u v w

variable {κ : Type u} {α : Type v} {β : Type w}
variable [LT κ] [DecidableLT κ] [DecidableEq κ]

theorem get?_filter_key (t : Table κ α) (keep : κ → Bool) (k : κ) :
    (t.filter (fun k' _ => keep k')).get? k = if keep k then t.get? k else none :=
  lookup_filter keep k t.rows

theorem get?_modify (t : Table κ α) (k k' : κ) (f : α → α) :
    (t.modify k f).get? k' = if k' = k then (t.get? k').map f else t.get? k' := by
  rw [modify, get?_mapValues]
  by_cases h : k' = k
  · simp [h]
  · simp [h]

theorem contains_erase (t : Table κ α) (k k' : κ) :
    (t.erase k).contains k' = (!decide (k' = k) && t.contains k') := by
  rw [contains, get?_erase]
  by_cases h : k' = k <;> simp [h, contains]

theorem size_modify (t : Table κ α) (k : κ) (f : α → α) : (t.modify k f).size = t.size :=
  List.length_map _

theorem lookup_eq_none_of_not_mem {k : κ} {rows : List (κ × α)} (h : k ∉ rows.map Prod.fst) :
    lookup k rows = none := by
  cases hlookup : lookup k rows with
  | none => rfl
  | some a => exact absurd (List.mem_map.mpr ⟨_, mem_of_lookup_eq_some hlookup, rfl⟩) h

theorem lookup_eq_some_of_nodup {k : κ} {a : α} {rows : List (κ × α)}
    (hkeys : (rows.map Prod.fst).Nodup) (h : (k, a) ∈ rows) : lookup k rows = some a := by
  induction rows with
  | nil => cases h
  | cons row rest ih =>
      rw [List.map_cons, List.nodup_cons] at hkeys
      rw [lookup]
      rcases List.mem_cons.mp h with rfl | hrest
      · rw [if_pos rfl]
      · rw [if_neg, ih hkeys.2 hrest]
        rintro rfl
        exact hkeys.1 (List.mem_map.mpr ⟨_, hrest, rfl⟩)

variable [LE κ] [Std.IsLinearOrder κ] [Std.LawfulOrderLT κ]

theorem length_place {k : κ} {rows : List (κ × α)} (h : lookup k rows = none) (a : α) :
    (place k a rows).length = rows.length + 1 := by
  induction rows with
  | nil => rfl
  | cons row rest ih =>
      rw [lookup] at h
      split at h
      · cases h
      · rename_i hne
        rw [place]
        split
        · rfl
        · rw [List.length_cons, ih h, List.length_cons]

theorem size_insert {t : Table κ α} {k : κ} (h : t.get? k = none) (a : α) :
    (t.insert k a).size = t.size + 1 :=
  length_place h a

theorem contains_insert (t : Table κ α) (k k' : κ) (a : α) :
    (t.insert k a).contains k' = (decide (k' = k) || t.contains k') := by
  rw [contains, get?_insert]
  by_cases h : k' = k <;> simp [h, contains]

theorem mem_keys {t : Table κ α} {k : κ} : k ∈ t.keys ↔ t.contains k = true := by
  rw [keys, List.mem_map, contains, Option.isSome_iff_exists]
  constructor
  · rintro ⟨⟨k', a⟩, hrow, rfl⟩
    exact ⟨a, get?_eq_some_iff.mpr hrow⟩
  · rintro ⟨a, ha⟩
    exact ⟨(k, a), get?_eq_some_iff.mp ha, rfl⟩

theorem nodup_of_ascending {rows : List (κ × α)} (h : rows.Pairwise (fun a b => a.1 < b.1)) :
    (rows.map Prod.fst).Nodup := by
  refine List.Pairwise.map _ (fun a b hlt => ?_) h
  exact fun heq => Std.lt_irrefl (heq ▸ hlt)

theorem nodup_keys (t : Table κ α) : t.keys.Nodup := nodup_of_ascending t.ascending

/-- Filtering and looking up commute: a binding is found in the filtered table if it was
there and is kept. -/
theorem get?_filter (t : Table κ α) (keep : κ → α → Bool) (k : κ) :
    (t.filter keep).get? k = (t.get? k).filter (keep k) := by
  apply Option.ext
  intro a
  rw [get?_eq_some_iff, Option.filter_eq_some_iff, get?_eq_some_iff]
  exact List.mem_filter

theorem filter_key_eq (t : Table κ α) (k : κ) :
    t.filter (fun k' _ => k' = k) =
      match t.get? k with
      | none => ∅
      | some a => (∅ : Table κ α).insert k a := by
  apply ext_get?
  intro k'
  rw [get?_filter_key]
  cases hk : t.get? k with
  | none =>
      by_cases h : k' = k
      · simp only [h, hk]
        rfl
      · simp only [h, decide_false, Bool.false_eq_true, if_false]
        rfl
  | some a =>
      rw [get?_insert]
      by_cases h : k' = k
      · simp [h, hk]
      · simp only [h, decide_false, Bool.false_eq_true, if_false]
        rfl

theorem rows_filter_key (t : Table κ α) (k : κ) :
    t.rows.filter (fun row => row.1 = k) = ((t.get? k).map (fun a => (k, a))).toList := by
  have hrows := congrArg rows (filter_key_eq t k)
  cases hk : t.get? k with
  | none =>
      rw [hk] at hrows
      exact hrows
  | some a =>
      rw [hk] at hrows
      exact hrows

theorem get?_foldl_insert {rows : List (κ × α)} (h : rows.Pairwise (fun a b => a.1 < b.1))
    (t : Table κ α) (k : κ) : (rows.foldl (fun t row => t.insert row.1 row.2) t).get? k =
      (lookup k rows).or (t.get? k) := by
  induction rows generalizing t with
  | nil => rfl
  | cons row rest ih =>
      obtain ⟨hrow, hrest⟩ := List.pairwise_cons.mp h
      rw [List.foldl_cons, ih hrest, get?_insert]
      by_cases hk : k = row.1
      · have hnone : lookup k rest = none := by
          cases hlookup : lookup k rest with
          | none => rfl
          | some a => exact absurd (hk ▸ hrow _ (mem_of_lookup_eq_some hlookup)) Std.lt_irrefl
        rw [hnone, if_pos hk, lookup, if_pos hk]
        rfl
      · simp only [hk, lookup, if_false]

theorem ofList_rows (t : Table κ α) : ofList t.rows = t := by
  apply ext_get?
  intro k
  rw [ofList, get?_foldl_insert t.ascending, get?_empty, Option.or_none]
  rfl

/-- Bindings of different keys may be entered in either order. This is what makes a table a
function of its bindings and not of their history. -/
theorem insert_comm (t : Table κ α) {k k' : κ} (h : k ≠ k') (a a' : α) :
    (t.insert k a).insert k' a' = (t.insert k' a').insert k a := by
  apply ext_get?
  intro k''
  simp only [get?_insert]
  by_cases hk : k'' = k
  · simp [hk, h]
  · simp [hk]

/-- A table may be entered in any order, as long as the rows have keys of their own. This is
how the order of a hash map is taken out of account. -/
theorem ofList_of_perm {t : Table κ α} {rows : List (κ × α)} (h : rows.Perm t.rows) :
    ofList rows = t := by
  rw [← ofList_rows t]
  refine h.foldl_eq' ?_ empty
  intro row hrow row' hrow' s
  by_cases hkey : row.1 = row'.1
  · have hbound : t.get? row.1 = some row.2 := get?_eq_some_iff.mpr (h.mem_iff.mp hrow)
    have hbound' : t.get? row'.1 = some row'.2 := get?_eq_some_iff.mpr (h.mem_iff.mp hrow')
    have hvalue : row.2 = row'.2 := Option.some.inj (hbound.symm.trans (hkey ▸ hbound'))
    rw [hkey, hvalue]
  · exact s.insert_comm hkey row.2 row'.2

theorem isEmpty_iff {t : Table κ α} : t.isEmpty = true ↔ t = ∅ := by
  constructor
  · intro h
    apply ext_get?
    intro k
    have hrows : t.rows = [] := List.isEmpty_iff.mp h
    simp only [get?, hrows]
    rfl
  · rintro rfl
    rfl

theorem isEmpty_insert (t : Table κ α) (k : κ) (a : α) : (t.insert k a).isEmpty = false := by
  have hself : (t.insert k a).get? k = some a := by rw [get?_insert, if_pos rfl]
  cases hempty : (t.insert k a).isEmpty with
  | false => rfl
  | true =>
      rw [isEmpty_iff.mp hempty] at hself
      cases hself

theorem filter_key_insert_of_not (t : Table κ α) {keep : κ → Bool} {k : κ} (h : keep k = false)
    (a : α) :
    (t.insert k a).filter (fun k' _ => keep k') = t.filter (fun k' _ => keep k') := by
  apply ext_get?
  intro k'
  rw [get?_filter_key, get?_filter_key, get?_insert]
  by_cases hk : k' = k
  · subst hk
    simp [h]
  · simp [hk]

/-- To take out a key that the filter drops cannot matter to the filtered table. -/
theorem filter_key_erase_of_not (t : Table κ α) {keep : κ → Bool} {k : κ} (h : keep k = false) :
    (t.erase k).filter (fun k' _ => keep k') = t.filter (fun k' _ => keep k') := by
  apply ext_get?
  intro k'
  rw [get?_filter_key, get?_filter_key, get?_erase]
  by_cases hk : k' = k
  · subst hk
    simp [h]
  · simp [hk]

/-- A binding replaced by one that looks the same through `f` looks the same. -/
theorem mapValues_insert_of_eq (t : Table κ α) (f : κ → α → β) {k : κ} {a a' : α}
    (ha : t.get? k = some a) (h : f k a' = f k a) :
    (t.insert k a').mapValues f = t.mapValues f := by
  apply ext_get?
  intro k'
  rw [get?_mapValues, get?_mapValues, get?_insert]
  by_cases hk : k' = k
  · subst hk
    simp [ha, h]
  · simp [hk]

theorem mapValues_insert (t : Table κ α) (f : κ → α → β) (k : κ) (a : α) :
    (t.insert k a).mapValues f = (t.mapValues f).insert k (f k a) := by
  apply ext_get?
  intro k'
  rw [get?_mapValues, get?_insert, get?_insert, get?_mapValues]
  by_cases hk : k' = k
  · simp [hk]
  · simp [hk]

theorem mapValues_erase (t : Table κ α) (f : κ → α → β) (k : κ) :
    (t.erase k).mapValues f = (t.mapValues f).erase k := by
  apply ext_get?
  intro k'
  rw [get?_mapValues, get?_erase, get?_erase, get?_mapValues]
  by_cases hk : k' = k
  · simp [hk]
  · simp [hk]

theorem insert_of_get? {t : Table κ α} {k : κ} {a : α} (ha : t.get? k = some a) :
    t.insert k a = t := by
  apply ext_get?
  intro k'
  rw [get?_insert]
  split
  · rename_i hk
    rw [hk, ha]
  · rfl

theorem insert_insert (t : Table κ α) (k : κ) (a a' : α) :
    (t.insert k a).insert k a' = t.insert k a' := by
  apply ext_get?
  intro k'
  simp only [get?_insert]
  split <;> rfl

end Rollcall.Table
