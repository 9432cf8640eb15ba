import Rollcall.Config.Reader
import Rollcall.Proofs.Table
import Rollcall.Proofs.Toml.Document
import Rollcall.Proofs.Toml.Value

/-!
Structures that are read field by field. A schema lists the fields of a structure, each with
its name and how its value is read; a setter keeps to it if it puts what is read into the
field of the name. Where every name occurs once, the structure that comes of it is the one in
which each field that occurs is as read, and each other as it was before. Main statement:
`foldlM_eq_ok_iff`.
-/

namespace Rollcall

open Toml (Value Entries)

/-- A field holds what its value stands for, or without a value what it held before. -/
def Given {α : Type} (StandsFor : Value → α → Prop) (v? : Option Value) (before now : α) : Prop :=
  match v? with
  | some v => StandsFor v now
  | none => now = before

section

variable {α : Type} {StandsFor : Value → α → Prop} {before now : α}

@[simp] theorem given_none : Given StandsFor none before now ↔ now = before := Iff.rfl

@[simp] theorem given_some {v : Value} :
    Given StandsFor (some v) before now ↔ StandsFor v now := Iff.rfl

theorem given_congr {Means : Value → α → Prop} (h : ∀ v y, StandsFor v y ↔ Means v y)
    {v? : Option Value} : Given StandsFor v? before now ↔ Given Means v? before now := by
  cases v? with
  | none => exact Iff.rfl
  | some v => exact h v now

end

structure Slot (ρ α : Type) where
  name : String
  read : Value → Except ReadFault α
  get : ρ → α
  put : α → ρ → ρ

structure Schema (ρ : Type) where
  Field : Type → Type
  slot : {α : Type} → Field α → Slot ρ α
  get_put : ∀ {α : Type} (x : Field α) (y : α) (a : ρ), (slot x).get ((slot x).put y a) = y
  get_put_of_ne : ∀ {α β : Type} (x : Field α) (x' : Field β), (slot x).name ≠ (slot x').name →
    ∀ (y : α) (a : ρ), (slot x').get ((slot x).put y a) = (slot x').get a
  ext : ∀ {a b : ρ}, (∀ {α : Type} (x : Field α), (slot x).get a = (slot x).get b) → a = b

namespace Schema

variable {ρ : Type} {S : Schema ρ} {set : ρ → String → Value → Except ReadFault ρ}
variable {entries : Entries} {key : String} {v : Value} {start a a' : ρ}

def Unknown (S : Schema ρ) (key : String) : Prop :=
  ∀ (α : Type) (x : S.Field α), (S.slot x).name ≠ key

/-- Entries that are no field's still have values. -/
def Skips (S : Schema ρ) (entries : Entries) : Prop :=
  ∀ entry ∈ entries, S.Unknown entry.1 → entry.2.hasValue = true

theorem skips_of_hasValue (h : ∀ entry ∈ entries, entry.2.hasValue = true) : S.Skips entries :=
  fun entry hentry _ => h entry hentry

/-- Every field is as it is written, and as before where it is not. -/
def Holds (S : Schema ρ) (written? : String → Option Value) (before now : ρ) : Prop :=
  ∀ {α : Type} (x : S.Field α),
    Given (fun v y => (S.slot x).read v = .ok y) (written? (S.slot x).name)
      ((S.slot x).get before) ((S.slot x).get now)

/-- The setter puts what is read into the field of its name, and skips other values. -/
structure SetBy (S : Schema ρ) (set : ρ → String → Value → Except ReadFault ρ) : Prop where
  field : ∀ {α : Type} (x : S.Field α) (a : ρ) (v : Value),
    set a (S.slot x).name v = do return (S.slot x).put (← (S.slot x).read v) a
  unknown : ∀ {key : String}, S.Unknown key → ∀ (a : ρ) (v : Value),
    set a key v = do v.skip; return a

theorem unknown_or (S : Schema ρ) (key : String) :
    S.Unknown key ∨ ∃ (α : Type) (x : S.Field α), (S.slot x).name = key := by
  refine Classical.or_iff_not_imp_left.mpr fun h => ?_
  obtain ⟨α, hα⟩ := Classical.not_forall.mp h
  obtain ⟨x, hx⟩ := Classical.not_forall.mp hα
  exact ⟨α, x, Classical.not_not.mp hx⟩

namespace SetBy

/-- A field is set where its value can be read, to what is read. -/
theorem field_eq_ok_iff (hset : S.SetBy set) {α : Type} (x : S.Field α) :
    set a (S.slot x).name v = .ok a' ↔
      ∃ y, (S.slot x).read v = .ok y ∧ (S.slot x).put y a = a' := by
  rw [hset.field, bind_eq_ok_iff]
  simp only [pure, Except.pure, Except.ok.injEq]

/-- Other names change nothing, as long as their values are values. -/
theorem unknown_eq_ok_iff (hset : S.SetBy set) (h : S.Unknown key) :
    set a key v = .ok a' ↔ v.hasValue = true ∧ a = a' := by
  rw [hset.unknown h, bind_eq_ok_iff, ← Value.skip_eq_ok_iff]
  constructor
  · rintro ⟨⟨⟩, hskip, ha⟩
    exact ⟨hskip, Except.ok.inj ha⟩
  · rintro ⟨hskip, rfl⟩
    exact ⟨(), hskip, rfl⟩

theorem get_of_eq (hset : S.SetBy set) {α : Type} (x : S.Field α)
    (h : set a (S.slot x).name v = .ok a') : (S.slot x).read v = .ok ((S.slot x).get a') := by
  obtain ⟨y, hy, rfl⟩ := (hset.field_eq_ok_iff x).mp h
  rw [S.get_put, hy]

/-- To set one field leaves the others, since no two share a name. -/
theorem get_of_ne (hset : S.SetBy set) {α : Type} {x : S.Field α} (hne : (S.slot x).name ≠ key)
    (h : set a key v = .ok a') : (S.slot x).get a' = (S.slot x).get a := by
  rcases S.unknown_or key with hunknown | ⟨β, x', rfl⟩
  · rw [((hset.unknown_eq_ok_iff hunknown).mp h).2]
  · obtain ⟨y, -, rfl⟩ := (hset.field_eq_ok_iff x').mp h
    exact S.get_put_of_ne x' x (Ne.symm hne) y a

theorem of_foldlM (hset : S.SetBy set) (hkeys : (entries.map Prod.fst).Nodup)
    (h : entries.foldlM (fun a entry => set a entry.1 entry.2) start = .ok a) :
    S.Skips entries ∧ S.Holds (Table.lookup · entries) start a := by
  induction entries generalizing start with
  | nil =>
      obtain rfl := Except.ok.inj h
      exact ⟨nofun, fun x => rfl⟩
  | cons entry rest ih =>
      obtain ⟨key, v⟩ := entry
      rw [List.foldlM_cons, bind_eq_ok_iff] at h
      obtain ⟨next, hnext, hrest⟩ := h
      rw [List.map_cons, List.nodup_cons] at hkeys
      obtain ⟨hskips, hholds⟩ := ih hkeys.2 hrest
      refine ⟨?_, fun x => ?_⟩
      · rintro entry (_ | ⟨_, hentry⟩) hunknown
        · exact ((hset.unknown_eq_ok_iff hunknown).mp hnext).1
        · exact hskips entry hentry hunknown
      · have hlater := hholds x
        simp only [Table.lookup] at hlater ⊢
        split
        · rename_i hname
          subst hname
          rw [Table.lookup_eq_none_of_not_mem hkeys.1, given_none] at hlater
          rw [given_some, hlater]
          exact hset.get_of_eq x hnext
        · rename_i hname
          rwa [hset.get_of_ne hname hnext] at hlater

theorem exists_foldlM (hset : S.SetBy set) (hskips : S.Skips entries)
    (hreads : ∀ {α : Type} (x : S.Field α) (v : Value), ((S.slot x).name, v) ∈ entries →
      ∃ y, (S.slot x).read v = .ok y) (start : ρ) :
    ∃ a, entries.foldlM (fun a entry => set a entry.1 entry.2) start = .ok a := by
  induction entries generalizing start with
  | nil => exact ⟨start, rfl⟩
  | cons entry rest ih =>
      obtain ⟨key, v⟩ := entry
      have hnext : ∃ next, set start key v = .ok next := by
        rcases S.unknown_or key with hunknown | ⟨α, x, rfl⟩
        · have hvalue := hskips _ List.mem_cons_self hunknown
          exact ⟨start, (hset.unknown_eq_ok_iff hunknown).mpr ⟨hvalue, rfl⟩⟩
        · obtain ⟨y, hy⟩ := hreads x v List.mem_cons_self
          exact ⟨_, (hset.field_eq_ok_iff x).mpr ⟨y, hy, rfl⟩⟩
      obtain ⟨next, hnext⟩ := hnext
      obtain ⟨a, ha⟩ := ih (fun entry hentry => hskips entry (List.mem_cons_of_mem _ hentry))
        (fun x v hv => hreads x v (List.mem_cons_of_mem _ hv)) next
      refine ⟨a, ?_⟩
      rw [List.foldlM_cons, bind_eq_ok_iff]
      exact ⟨next, hnext, ha⟩

end SetBy

/-- What is written, with what stood there before, settles every field, so it settles the
structure. -/
theorem Holds.unique {written? : String → Option Value} (h : S.Holds written? start a)
    (h' : S.Holds written? start a') : a = a' := by
  refine S.ext fun x => ?_
  have hx := h x
  have hx' := h' x
  cases hwritten : written? (S.slot x).name with
  | none =>
      rw [hwritten, given_none] at hx hx'
      exact hx.trans hx'.symm
  | some v =>
      rw [hwritten, given_some] at hx hx'
      exact Except.ok.inj (hx.symm.trans hx')

/-- Entries with names of their own are read, in any order, exactly if each can be read, and
give the one structure that holds them. -/
theorem SetBy.foldlM_eq_ok_iff (hset : S.SetBy set) (hkeys : (entries.map Prod.fst).Nodup) :
    entries.foldlM (fun a entry => set a entry.1 entry.2) start = .ok a ↔
      S.Skips entries ∧ S.Holds (Table.lookup · entries) start a := by
  refine ⟨hset.of_foldlM hkeys, fun ⟨hskips, hholds⟩ => ?_⟩
  have hreads {α : Type} (x : S.Field α) (v : Value) (hv : ((S.slot x).name, v) ∈ entries) :
      ∃ y, (S.slot x).read v = .ok y := by
    have hx := hholds x
    simp only [Table.lookup_eq_some_of_nodup hkeys hv, given_some] at hx
    exact ⟨_, hx⟩
  obtain ⟨a', ha'⟩ := hset.exists_foldlM hskips hreads start
  obtain rfl := hholds.unique (hset.of_foldlM hkeys ha').2
  exact ha'

end Schema

section Groups

/-- The entries of a structure: those of a table, or the items of an array under the names of
the fields, in their order. -/
def Toml.Value.entries? (fields : List String) : Value → Option Entries
  | .table _ entries => some entries
  | .moment => some []
  | v => v.items?.map fields.zip

variable {fields : List String} {v : Value}

theorem readFields_eq {ρ : Type} (name : String) (fields : List String)
    (set : ρ → String → Value → Except ReadFault ρ) (start : ρ) (v : Value) :
    readFields name fields set start v =
      match v.entries? fields with
      | some entries => entries.foldlM (fun a entry => set a entry.1 entry.2) start
      | none => v.wrongType ("struct " ++ name) := by
  cases v <;> rfl

theorem nodup_zip (h : fields.Nodup) (items : List Value) :
    ((fields.zip items).map Prod.fst).Nodup := by
  induction fields generalizing items with
  | nil => exact .nil
  | cons field rest ih =>
      cases items with
      | nil => exact .nil
      | cons item items =>
          obtain ⟨hfield, hrest⟩ := List.nodup_cons.mp h
          rw [List.zip_cons_cons, List.map_cons, List.nodup_cons]
          refine ⟨fun hmem => ?_, ih hrest items⟩
          obtain ⟨entry, hentry, rfl⟩ := List.mem_map.mp hmem
          exact hfield (List.of_mem_zip hentry).1

/-- The entries of a structure have names of their own, whether they come from a table or
from the items of an array. -/
theorem nodup_entries? (hfields : fields.Nodup) (hv : v.Ordered) {entries : Entries}
    (h : v.entries? fields = some entries) : (entries.map Prod.fst).Nodup := by
  cases v with
  | table kind t =>
      obtain rfl := Option.some.inj h
      exact (Toml.Entries.ordered_of_table hv).nodup
  | moment =>
      obtain rfl := Option.some.inj h
      exact .nil
  | array items =>
      obtain rfl := Option.some.inj h
      exact nodup_zip hfields items
  | tables items =>
      obtain rfl := Option.some.inj h
      exact nodup_zip hfields _
  | string | integer | float | boolean => cases h

/-- What a structure within the entries holds for a field. -/
def Toml.Entries.within? (entries : Entries) (group : String) (fields : List String)
    (field : String) : Option Value :=
  ((Table.lookup group entries).bind (Value.entries? fields)).bind (Table.lookup field)

namespace Schema

variable {ρ : Type} {S : Schema ρ} {set : ρ → String → Value → Except ReadFault ρ}
variable {entries : Entries} {group name : String} {start a : ρ}

/-- What is written for a structure has entries, and those that are no field's have values. -/
def Takes (S : Schema ρ) (fields : List String) (v? : Option Value) : Prop :=
  ∀ v, v? = some v → ∃ entries, v.entries? fields = some entries ∧ S.Skips entries

/-- A structure that is not written is as before, and so is each field of one that is. -/
theorem SetBy.given_readFields_iff (hset : S.SetBy set) (hfields : fields.Nodup)
    (hentries : entries.Ordered) :
    Given (fun v a => readFields name fields set start v = .ok a) (Table.lookup group entries)
        start a ↔
      S.Takes fields (Table.lookup group entries) ∧
        S.Holds (entries.within? group fields) start a := by
  unfold Takes Holds Toml.Entries.within?
  cases hv : Table.lookup group entries with
  | none =>
      simp only [given_none, Option.bind_none, reduceCtorEq, false_imp_iff, implies_true, true_and]
      exact ⟨fun h _ x => h ▸ rfl, fun h => S.ext fun x => h x⟩
  | some v =>
      rw [given_some, readFields_eq]
      simp only [Option.some.injEq, forall_eq', Option.bind_some]
      cases hgroup : v.entries? fields with
      | none => simp [Toml.Value.wrongType_ne_ok]
      | some rows =>
          have hkeys := nodup_entries? hfields (hentries.lookup hv) hgroup
          simp only [hset.foldlM_eq_ok_iff hkeys, Option.some.injEq, exists_eq_left',
            Option.bind_some]
          rfl

end Schema

end Groups

end Rollcall
