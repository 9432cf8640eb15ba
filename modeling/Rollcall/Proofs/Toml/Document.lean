import Rollcall.Proofs.Table
import Rollcall.Toml.Reader

/-!
The tables of a document. However an entry gets into a table, by a line, a header that goes
through it, dotted keys or between braces, its key is new there and takes its place in the
order of the keys. Main statement: `ordered_of_read`.
-/

namespace Rollcall.Toml

/-- The keys of every table in a value ascend. -/
inductive Value.Ordered : Value → Prop
  | string (content : String) : Ordered (.string content)
  | integer (value : Int) : Ordered (.integer value)
  | float (literal : FloatLiteral) : Ordered (.float literal)
  | boolean (value : Bool) : Ordered (.boolean value)
  | moment : Ordered .moment
  | array {items : List Value} : (∀ v ∈ items, Ordered v) → Ordered (.array items)
  | tables {items : List (List (String × Value))} :
      (∀ entries ∈ items, entries.Pairwise (fun a b => a.1 < b.1)) →
      (∀ entries ∈ items, ∀ entry ∈ entries, Ordered entry.2) → Ordered (.tables items)
  | table {kind : TableKind} {entries : List (String × Value)} :
      entries.Pairwise (fun a b => a.1 < b.1) → (∀ entry ∈ entries, Ordered entry.2) →
      Ordered (.table kind entries)

theorem Value.ordered_ofScalar (scalar : Scalar) : (ofScalar scalar).Ordered := by
  cases scalar with
  | integer value => exact .integer value
  | float literal => exact .float literal
  | boolean value => exact .boolean value
  | moment => exact .moment

namespace Entries

structure Ordered (entries : Entries) : Prop where
  ascending : entries.Pairwise (fun a b => a.1 < b.1)
  values : ∀ entry ∈ entries, entry.2.Ordered

variable {entries : Entries} {key : String} {v : Value}

theorem ordered_nil : Ordered [] := ⟨.nil, nofun⟩

theorem Ordered.nodup (h : Ordered entries) : (entries.map Prod.fst).Nodup :=
  Table.nodup_of_ascending h.ascending

theorem Ordered.place (h : Ordered entries) (key : String) (hv : v.Ordered) :
    Ordered (Table.place key v entries) := by
  refine ⟨Table.place_ascending key v h.ascending, fun entry hentry => ?_⟩
  rcases Table.mem_place hentry with rfl | hold
  · exact hv
  · exact h.values entry hold

theorem Ordered.lookup (h : Ordered entries) (hv : Table.lookup key entries = some v) :
    v.Ordered :=
  h.values (key, v) (Table.mem_of_lookup_eq_some hv)

theorem Ordered.table (h : Ordered entries) (kind : TableKind) :
    (Value.table kind entries).Ordered :=
  .table h.ascending h.values

theorem ordered_of_table {kind : TableKind} (h : (Value.table kind entries).Ordered) :
    Ordered entries := by
  cases h with
  | table ascending values => exact ⟨ascending, values⟩

theorem ordered_tables_iff {items : List Entries} :
    (Value.tables items).Ordered ↔ ∀ entries ∈ items, Ordered entries := by
  constructor
  · rintro (_ | _ | _ | _ | _ | _ | ⟨ascending, values⟩) entries hentries
    exact ⟨ascending entries hentries, values entries hentries⟩
  · intro h
    exact .tables (fun entries hentries => (h entries hentries).ascending)
      (fun entries hentries => (h entries hentries).values)

/-- The work keeps tables in order. -/
def Keeps (work : TableKind → Entries → Option Entries) : Prop :=
  ∀ ⦃kind entries entries'⦄, Ordered entries → work kind entries = some entries' →
    Ordered entries'

/-- So does the work at the end of a path, for all the tables on the way. -/
theorem Keeps.change {work : TableKind → Entries → Option Entries} (hwork : Keeps work)
    (byDots : Bool) (path : List String) : Keeps (Entries.change byDots work path) := by
  induction path with
  | nil => exact hwork
  | cons key path ih =>
      intro kind entries entries' h hchange
      rw [Entries.change] at hchange
      split at hchange
      · obtain ⟨t, ht, rfl⟩ := Option.map_eq_some_iff.mp hchange
        exact h.place key ((ih ordered_nil ht).table _)
      · rename_i kind t hlookup
        split at hchange
        · obtain ⟨t', ht, rfl⟩ := Option.map_eq_some_iff.mp hchange
          exact h.place key ((ih (ordered_of_table (h.lookup hlookup)) ht).table _)
        · cases hchange
      · rename_i items hlookup
        have hitems := ordered_tables_iff.mp (h.lookup hlookup)
        split at hchange
        · cases hchange
        · rename_i last hlast
          obtain ⟨t, ht, rfl⟩ := Option.map_eq_some_iff.mp hchange
          refine h.place key (ordered_tables_iff.mpr fun entries hentries => ?_)
          rcases List.mem_append.mp hentries with hbefore | hnew
          · exact hitems entries (List.dropLast_subset items hbefore)
          · rw [List.mem_singleton.mp hnew]
            exact ih (hitems last (List.mem_of_getLast? hlast)) ht
      · cases hchange

/-- A key that is new is added in its place; one that is there is refused. -/
theorem Ordered.add {entries' : Entries} (h : Ordered entries) (hv : v.Ordered)
    (hadd : entries.add key v = some entries') : Ordered entries' := by
  rw [Entries.add] at hadd
  split at hadd
  · cases hadd
  · obtain rfl := Option.some.inj hadd
    exact h.place key hv

theorem keeps_addAt (path : List String) (key : String) (hv : v.Ordered) :
    Keeps (fun kind entries => entries.addAt path key v kind) := by
  intro kind entries entries' h hadd
  dsimp only [addAt] at hadd
  split at hadd
  · exact h.add hv hadd
  · refine Keeps.change ?_ true path h hadd
    intro kind t t' ht hwork
    dsimp only at hwork
    split at hwork
    · exact ht.add hv hwork
    · cases hwork

theorem keeps_openTable (key : String) : Keeps (fun _ entries => entries.openTable key) := by
  intro kind entries entries' h hopen
  dsimp only [openTable] at hopen
  split at hopen
  · obtain rfl := Option.some.inj hopen
    exact h.place key (ordered_nil.table _)
  · rename_i t hlookup
    obtain rfl := Option.some.inj hopen
    exact h.place key ((ordered_of_table (h.lookup hlookup)).table _)
  · cases hopen

theorem keeps_openItem (key : String) : Keeps (fun _ entries => entries.openItem key) := by
  intro kind entries entries' h hopen
  dsimp only [openItem] at hopen
  split at hopen
  · obtain rfl := Option.some.inj hopen
    refine h.place key (ordered_tables_iff.mpr fun entries hentries => ?_)
    rw [List.mem_singleton.mp hentries]
    exact ordered_nil
  · rename_i items hlookup
    obtain rfl := Option.some.inj hopen
    refine h.place key (ordered_tables_iff.mpr fun entries hentries => ?_)
    rcases List.mem_append.mp hentries with hold | hnew
    · exact ordered_tables_iff.mp (h.lookup hlookup) entries hold
    · rw [List.mem_singleton.mp hnew]
      exact ordered_nil
  · cases hopen

end Entries

section Reading

/-- Whatever is read with so much fuel is in order. -/
structure ReadsOrdered (fuel : Nat) : Prop where
  value : ∀ {depth cs v rest}, readValue fuel depth cs = some (v, rest) → v.Ordered
  items : ∀ {depth cs items rest}, readItems fuel depth cs = some (items, rest) →
    ∀ v ∈ items, v.Ordered
  entries : ∀ {depth cs entries entries' rest}, Entries.Ordered entries →
    readEntries fuel depth entries cs = some (entries', rest) → Entries.Ordered entries'

variable {fuel depth : Nat} {cs rest : List Char}

/-- With one more step of fuel, a value is read whose parts were read with what was left of
it. -/
theorem ReadsOrdered.readValue (ih : ReadsOrdered fuel) {v : Value}
    (h : readValue (fuel + 1) depth cs = some (v, rest)) : v.Ordered := by
  rw [Toml.readValue.eq_def] at h
  dsimp only at h
  split at h
  · split at h
    · cases h
    · obtain ⟨⟨items, _⟩, hitems, hv⟩ := Option.bind_eq_some_iff.mp h
      cases hv
      exact .array (ih.items hitems)
  · split at h
    · cases h
    · obtain ⟨⟨entries, _⟩, hentries, hv⟩ := Option.bind_eq_some_iff.mp h
      cases hv
      exact (ih.entries Entries.ordered_nil hentries).table _
  · obtain ⟨_, -, hv⟩ := Option.map_eq_some_iff.mp h
    cases hv
    exact .string _
  · obtain ⟨_, -, hv⟩ := Option.map_eq_some_iff.mp h
    cases hv
    exact .string _
  · obtain ⟨⟨scalar, _⟩, -, hv⟩ := Option.map_eq_some_iff.mp h
    cases hv
    exact Value.ordered_ofScalar scalar

theorem ReadsOrdered.readItems (ih : ReadsOrdered fuel) {items : List Value}
    (h : readItems (fuel + 1) depth cs = some (items, rest)) : ∀ v ∈ items, v.Ordered := by
  rw [Toml.readItems] at h
  obtain ⟨cs, -, h⟩ := Option.bind_eq_some_iff.mp h
  split at h
  · cases h
    nofun
  · obtain ⟨⟨item, cs⟩, hitem, h⟩ := Option.bind_eq_some_iff.mp h
    obtain ⟨cs, -, h⟩ := Option.bind_eq_some_iff.mp h
    split at h
    · cases h
      intro v hv
      rw [List.mem_singleton.mp hv]
      exact ih.value hitem
    · obtain ⟨⟨more, cs⟩, hmore, h⟩ := Option.bind_eq_some_iff.mp h
      cases h
      intro v hv
      rcases List.mem_cons.mp hv with rfl | hv
      · exact ih.value hitem
      · exact ih.items hmore v hv
    · cases h

/-- The entries of an inline table are added one by one to those before. -/
theorem ReadsOrdered.readEntries (ih : ReadsOrdered fuel) {entries entries' : Entries}
    (hentries : Entries.Ordered entries)
    (h : readEntries (fuel + 1) depth entries cs = some (entries', rest)) :
    Entries.Ordered entries' := by
  rw [Toml.readEntries] at h
  obtain ⟨cs, -, h⟩ := Option.bind_eq_some_iff.mp h
  split at h
  · cases h
    exact hentries
  · obtain ⟨⟨path, key, cs⟩, -, h⟩ := Option.bind_eq_some_iff.mp h
    obtain ⟨cs, -, h⟩ := Option.bind_eq_some_iff.mp h
    obtain ⟨⟨v, cs⟩, hv, h⟩ := Option.bind_eq_some_iff.mp h
    obtain ⟨added, hadd, h⟩ := Option.bind_eq_some_iff.mp h
    have hadded : Entries.Ordered added :=
      Entries.keeps_addAt path key (ih.value hv) hentries hadd
    obtain ⟨cs, -, h⟩ := Option.bind_eq_some_iff.mp h
    split at h
    · cases h
      exact hadded
    · exact ih.entries hadded h
    · cases h

/-- By induction on the fuel: whatever the depth, no table that is read is out of order. -/
theorem readsOrdered (fuel : Nat) : ReadsOrdered fuel := by
  induction fuel with
  | zero => exact ⟨nofun, nofun, fun _ => nofun⟩
  | succ fuel ih => exact ⟨ih.readValue, ih.readItems, ih.readEntries⟩

theorem ordered_readLine {d d' : Document} (hd : Entries.Ordered d.root)
    (h : readLine fuel d cs = some (d', rest)) : Entries.Ordered d'.root := by
  unfold readLine at h
  split at h
  · obtain ⟨⟨path, key, cs⟩, -, h⟩ := Option.bind_eq_some_iff.mp h
    obtain ⟨_, -, h⟩ := Option.bind_eq_some_iff.mp h
    obtain ⟨_, -, h⟩ := Option.bind_eq_some_iff.mp h
    obtain ⟨opened, hopened, h⟩ := Option.bind_eq_some_iff.mp h
    obtain ⟨root, hroot, rfl⟩ := Option.map_eq_some_iff.mp hopened
    cases h
    exact (Entries.keeps_openItem key).change false path hd hroot
  · obtain ⟨⟨path, key, cs⟩, -, h⟩ := Option.bind_eq_some_iff.mp h
    obtain ⟨_, -, h⟩ := Option.bind_eq_some_iff.mp h
    obtain ⟨opened, hopened, h⟩ := Option.bind_eq_some_iff.mp h
    obtain ⟨root, hroot, rfl⟩ := Option.map_eq_some_iff.mp hopened
    cases h
    exact (Entries.keeps_openTable key).change false path hd hroot
  · obtain ⟨⟨path, key, cs⟩, -, h⟩ := Option.bind_eq_some_iff.mp h
    obtain ⟨_, -, h⟩ := Option.bind_eq_some_iff.mp h
    obtain ⟨⟨v, cs⟩, hv, h⟩ := Option.bind_eq_some_iff.mp h
    obtain ⟨added, hadded, h⟩ := Option.bind_eq_some_iff.mp h
    obtain ⟨root, hroot, rfl⟩ := Option.map_eq_some_iff.mp hadded
    cases h
    have hkeeps := Entries.keeps_addAt path key ((readsOrdered fuel).value hv)
    exact hkeeps.change false d.current hd hroot

theorem ordered_readLines {d d' : Document} (hd : Entries.Ordered d.root)
    (h : readLines fuel d cs = some d') : Entries.Ordered d'.root := by
  induction fuel generalizing d cs with
  | zero => cases h
  | succ fuel ih =>
      rw [readLines] at h
      obtain ⟨cs, -, h⟩ := Option.bind_eq_some_iff.mp h
      split at h
      · cases h
        exact hd
      · obtain ⟨⟨d, cs⟩, hline, h⟩ := Option.bind_eq_some_iff.mp h
        obtain ⟨_, -, h⟩ := Option.bind_eq_some_iff.mp h
        exact ih (ordered_readLine hd hline) h

/-- Every document that is read is in order, and with that no table in it has two entries
for one key. -/
theorem ordered_of_read {s : String} {entries : Entries} (h : read s = some entries) :
    Entries.Ordered entries := by
  obtain ⟨d, hd, rfl⟩ := Option.map_eq_some_iff.mp h
  exact ordered_readLines Entries.ordered_nil hd

end Reading

end Rollcall.Toml
