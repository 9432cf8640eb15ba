/-!
Tables: finite maps whose rows stand in ascending order of their keys. The
order is part of the type, so two tables with the same bindings are equal, a
listing needs no sorting, and every answer that shows an order shows this one.
Main statements: `get?_insert`, `get?_erase` and `ext_get?`.
-/

namespace Rollcall

set_option linter.unusedSectionVars false

universe u v w

structure Table (κ : Type u) (α : Type v) [LT κ] where
  rows : List (κ × α)
  ascending : rows.Pairwise (fun a b => a.1 < b.1)

namespace Table

variable {κ : Type u} {α : Type v} {β : Type w}
variable [LT κ] [DecidableLT κ] [DecidableEq κ]

instance [DecidableEq α] : DecidableEq (Table κ α) := fun t s =>
  if h : t.rows = s.rows then
    isTrue (by cases t; cases s; cases h; rfl)
  else
    isFalse (fun e => h (e ▸ rfl))

def empty : Table κ α := ⟨[], .nil⟩

instance : EmptyCollection (Table κ α) := ⟨empty⟩
instance : Inhabited (Table κ α) := ⟨empty⟩

def size (t : Table κ α) : Nat := t.rows.length
def isEmpty (t : Table κ α) : Bool := t.rows.isEmpty
def keys (t : Table κ α) : List κ := t.rows.map Prod.fst
def values (t : Table κ α) : List α := t.rows.map Prod.snd

def lookup (k : κ) : List (κ × α) → Option α
  | [] => none
  | (k', a) :: rest => if k = k' then some a else lookup k rest

def get? (t : Table κ α) (k : κ) : Option α := lookup k t.rows
def getD (t : Table κ α) (k : κ) (a : α) : α := (t.get? k).getD a
def contains (t : Table κ α) (k : κ) : Bool := (t.get? k).isSome

def place (k : κ) (a : α) : List (κ × α) → List (κ × α)
  | [] => [(k, a)]
  | (k', a') :: rest =>
      if k < k' then (k, a) :: (k', a') :: rest
      else if k = k' then (k, a) :: rest
      else (k', a') :: place k a rest

theorem mem_place {k : κ} {a : α} {row : κ × α} {rows : List (κ × α)} :
    row ∈ place k a rows → row = (k, a) ∨ row ∈ rows := by
  induction rows with
  | nil => simp [place]
  | cons head rest ih =>
      obtain ⟨k', a'⟩ := head
      rw [place]
      split
      · simp
      · split
        · intro h
          rcases List.mem_cons.1 h with h | h
          · exact .inl h
          · exact .inr (List.mem_cons_of_mem _ h)
        · intro h
          rcases List.mem_cons.1 h with h | h
          · exact .inr (h ▸ List.mem_cons_self)
          · rcases ih h with h | h
            · exact .inl h
            · exact .inr (List.mem_cons_of_mem _ h)

section Linear

variable [LE κ] [Std.IsLinearOrder κ] [Std.LawfulOrderLT κ]

theorem place_ascending (k : κ) (a : α) {rows : List (κ × α)}
    (h : rows.Pairwise (fun a b => a.1 < b.1)) :
    (place k a rows).Pairwise (fun a b => a.1 < b.1) := by
  induction rows with
  | nil => simp [place]
  | cons head rest ih =>
      obtain ⟨k', a'⟩ := head
      obtain ⟨hhead, hrest⟩ := List.pairwise_cons.1 h
      rw [place]
      split
      · rename_i hlt
        refine List.pairwise_cons.2 ⟨fun row hrow => ?_, h⟩
        rcases List.mem_cons.1 hrow with rfl | hrow
        · exact hlt
        · exact Std.lt_trans hlt (hhead row hrow)
      · rename_i hnlt
        split
        · rename_i heq
          subst heq
          exact List.pairwise_cons.2 ⟨hhead, hrest⟩
        · rename_i hne
          refine List.pairwise_cons.2 ⟨fun row hrow => ?_, ih hrest⟩
          rcases mem_place hrow with rfl | hrow
          · rcases Std.lt_trichotomy k k' with hlt | heq | hgt
            · exact absurd hlt hnlt
            · exact absurd heq hne
            · exact hgt
          · exact hhead row hrow

def insert (t : Table κ α) (k : κ) (a : α) : Table κ α :=
  ⟨place k a t.rows, place_ascending k a t.ascending⟩

/-- Of several rows with one key the last wins. -/
def ofList (rows : List (κ × α)) : Table κ α :=
  rows.foldl (fun t row => t.insert row.1 row.2) empty

end Linear

def filter (t : Table κ α) (keep : κ → α → Bool) : Table κ α :=
  ⟨t.rows.filter (fun row => keep row.1 row.2), t.ascending.sublist List.filter_sublist⟩

def erase (t : Table κ α) (k : κ) : Table κ α :=
  t.filter (fun k' _ => k' ≠ k)

def mapValues (t : Table κ α) (f : κ → α → β) : Table κ β :=
  ⟨t.rows.map (fun row => (row.1, f row.1 row.2)), t.ascending.map _ (fun _ _ h => h)⟩

/-- Changes the value bound to `k`; a table without `k` stays as it is. -/
def modify (t : Table κ α) (k : κ) (f : α → α) : Table κ α :=
  t.mapValues (fun k' a => if k' = k then f a else a)

section View

@[simp] theorem rows_empty : (empty : Table κ α).rows = [] := rfl

@[simp] theorem get?_empty (k : κ) : (empty : Table κ α).get? k = none := rfl

theorem lookup_place (k k' : κ) (a : α) (rows : List (κ × α)) :
    lookup k' (place k a rows) = if k' = k then some a else lookup k' rows := by
  induction rows with
  | nil => simp [place, lookup]
  | cons head rest ih =>
      obtain ⟨k'', a''⟩ := head
      rw [place]
      split
      · simp [lookup]
      · split
        · rename_i heq
          subst heq
          by_cases h : k' = k <;> simp [lookup, h]
        · rename_i hne
          by_cases h : k' = k''
          · subst h
            simp [lookup, Ne.symm hne]
          · simp [lookup, h, ih]

theorem lookup_filter (keep : κ → Bool) (k : κ) (rows : List (κ × α)) :
    lookup k (rows.filter (fun row => keep row.1)) =
      if keep k then lookup k rows else none := by
  induction rows with
  | nil => simp [lookup]
  | cons head rest ih =>
      obtain ⟨k', a'⟩ := head
      by_cases hk : keep k' <;> by_cases h : k = k'
      · subst h
        simp [lookup, hk]
      · simp [lookup, hk, h, ih]
      · subst h
        simp [hk, ih]
      · simp [lookup, hk, h, ih]

theorem get?_erase (t : Table κ α) (k k' : κ) :
    (t.erase k).get? k' = if k' = k then none else t.get? k' := by
  have h := lookup_filter (fun k' => decide (k' ≠ k)) k' t.rows
  simp only [get?, erase, filter] at h ⊢
  rw [h]
  by_cases hk : k' = k <;> simp [hk]

theorem get?_mapValues (t : Table κ α) (f : κ → α → β) (k : κ) :
    (t.mapValues f).get? k = (t.get? k).map (f k) := by
  obtain ⟨rows, h⟩ := t
  simp only [get?, mapValues]
  clear h
  induction rows with
  | nil => rfl
  | cons head rest ih =>
      by_cases h : k = head.1
      · subst h
        simp [lookup]
      · simp [lookup, h, ih]

theorem lookup_eq_some_of_mem {k : κ} {a : α} {rows : List (κ × α)}
    (hirr : ∀ x : κ, ¬ x < x) (h : rows.Pairwise (fun a b => a.1 < b.1))
    (hmem : (k, a) ∈ rows) : lookup k rows = some a := by
  induction rows with
  | nil => cases hmem
  | cons head rest ih =>
      obtain ⟨k', a'⟩ := head
      obtain ⟨hhead, hrest⟩ := List.pairwise_cons.1 h
      rcases List.mem_cons.1 hmem with heq | hmem
      · cases heq
        simp [lookup]
      · have hne : k ≠ k' := fun heq => hirr k' (heq ▸ hhead _ hmem)
        simp [lookup, hne, ih hrest hmem]

theorem mem_of_lookup_eq_some {k : κ} {a : α} {rows : List (κ × α)}
    (h : lookup k rows = some a) : (k, a) ∈ rows := by
  induction rows with
  | nil => cases h
  | cons head rest ih =>
      by_cases hk : k = head.1
      · subst hk
        simp only [lookup, if_true, Option.some.injEq] at h
        subst h
        exact List.mem_cons_self
      · simp only [lookup, hk, if_false] at h
        exact List.mem_cons_of_mem _ (ih h)

variable [LE κ] [Std.IsLinearOrder κ] [Std.LawfulOrderLT κ]

theorem get?_insert (t : Table κ α) (k k' : κ) (a : α) :
    (t.insert k a).get? k' = if k' = k then some a else t.get? k' :=
  lookup_place k k' a t.rows

theorem get?_eq_some_iff {t : Table κ α} {k : κ} {a : α} :
    t.get? k = some a ↔ (k, a) ∈ t.rows :=
  ⟨mem_of_lookup_eq_some,
    lookup_eq_some_of_mem (fun _ => Std.lt_irrefl) t.ascending⟩

theorem ext_get? {t s : Table κ α} (h : ∀ k, t.get? k = s.get? k) : t = s := by
  have hsub : ∀ row, row ∈ t.rows ↔ row ∈ s.rows := fun row => by
    rw [← get?_eq_some_iff (t := t), ← get?_eq_some_iff (t := s), h]
  have hrows : t.rows = s.rows := by
    obtain ⟨tr, ht⟩ := t
    obtain ⟨sr, hs⟩ := s
    clear h
    simp only at hsub ⊢
    induction tr generalizing sr with
    | nil =>
        cases sr with
        | nil => rfl
        | cons b _ => exact absurd ((hsub b).2 List.mem_cons_self) (by simp)
    | cons a tr ih =>
        cases sr with
        | nil => exact absurd ((hsub a).1 List.mem_cons_self) (by simp)
        | cons b sr =>
            obtain ⟨hta, htr⟩ := List.pairwise_cons.1 ht
            obtain ⟨hsb, hsr⟩ := List.pairwise_cons.1 hs
            have hab : a = b := by
              rcases List.mem_cons.1 ((hsub a).1 List.mem_cons_self) with h | h
              · exact h
              · rcases List.mem_cons.1 ((hsub b).2 List.mem_cons_self) with h' | h'
                · exact h'.symm
                · exact absurd (Std.lt_trans (hta b h') (hsb a h)) Std.lt_irrefl
            subst hab
            congr 1
            refine ih htr sr hsr (fun row => ⟨fun hrow => ?_, fun hrow => ?_⟩)
            · rcases List.mem_cons.1 ((hsub row).1 (List.mem_cons_of_mem _ hrow)) with h | h
              · exact absurd (h ▸ hta row hrow) Std.lt_irrefl
              · exact h
            · rcases List.mem_cons.1 ((hsub row).2 (List.mem_cons_of_mem _ hrow)) with h | h
              · exact absurd (h ▸ hsb row hrow) Std.lt_irrefl
              · exact h
  cases t
  cases s
  cases hrows
  rfl

end View

end Table

end Rollcall
