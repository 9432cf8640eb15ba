import Rollcall.Proofs.Registry.Forgetting
import Rollcall.Proofs.Text.Commas

/-!
The sub-services that a node declares. They are kept as one text, joined by commas, and
read back as the names that were given, trimmed and without the empty ones. A comma in a
name is one like the others: the name is read as the names that it lists. Main statements:
`subServices_withSubServices` and `served_as_declared`.
-/

namespace Rollcall.Node

section

variable (n : Node) (names : List String)

def joined : String := String.intercalate "," ((names.map Text.trim).filter (· ≠ ""))

/-- A declaration writes one row of the metadata, or takes it out where there is nothing to
declare; the other rows stay. -/
theorem metadata_withSubServices (key : String) :
    (n.withSubServices names).metadata.get? key =
      if key = subServicesKey then (if joined names = "" then none else some (joined names))
      else n.metadata.get? key := by
  have hmetadata : (n.withSubServices names).metadata =
      if joined names = "" then n.metadata.erase subServicesKey
      else n.metadata.insert subServicesKey (joined names) := by
    rw [withSubServices, joined]
    split <;> rfl
  rw [hmetadata]
  split
  · rw [Table.get?_erase]
  · rw [Table.get?_insert]

theorem eq_withSubServices :
    n.withSubServices names = { n with metadata := (n.withSubServices names).metadata } := by
  rw [withSubServices]
  split <;> rfl

theorem flatMap_commaList_trimmed :
    ((names.map Text.trim).filter (· ≠ "")).flatMap Text.commaList =
      names.flatMap Text.commaList := by
  induction names with
  | nil => rfl
  | cons name rest ih =>
      rw [List.map_cons, List.flatMap_cons, ← ih, ← Text.commaList_trim name]
      by_cases hempty : Text.trim name = ""
      · rw [List.filter_cons_of_neg (by simpa using hempty), hempty]
        rfl
      · rw [List.filter_cons_of_pos (by simpa using hempty), List.flatMap_cons]

/-- Every name lists its own part, in the order of the names, whatever was declared before. -/
theorem subServices_withSubServices :
    (n.withSubServices names).subServices = names.flatMap Text.commaList := by
  have hjoined : Text.commaList (joined names) = names.flatMap Text.commaList := by
    rw [joined, Text.commaList_intercalate, flatMap_commaList_trimmed]
  rw [subServices, metadata_withSubServices, if_pos rfl, ← hjoined]
  split
  · rename_i hempty
    rw [hempty]
    rfl
  · rfl

theorem serves_iff {n : Node} {name : String} : n.serves name = true ↔ name ∈ n.subServices :=
  List.contains_iff_mem

end

def Declares (n : Node) (name : String) : Prop :=
  ∃ text, n.metadata.get? subServicesKey = some text ∧ Text.Lists text name

/-- A node serves a sub-service if its metadata list it between commas. -/
theorem serves_iff_declares {n : Node} {name : String} :
    n.serves name = true ↔ n.Declares name := by
  rw [serves_iff, subServices, Declares]
  cases n.metadata.get? subServicesKey with
  | none => simp
  | some text => simp [Text.mem_commaList]

/-- A name without a comma lists itself, and no name lists one with a comma. -/
theorem flatMap_commaList_eq_iff {names : List String} :
    names.flatMap Text.commaList = (names.map Text.trim).filter (· ≠ "") ↔
      ∀ name ∈ names, ',' ∉ name.toList := by
  constructor
  · intro h name hname hcomma
    have htrimmed : ',' ∈ (Text.trim name).toList := by
      obtain ⟨front, back, hfront, hback, hframed⟩ := Text.exists_blanks_trimChars name.toList
      rw [hframed, List.mem_append, List.mem_append] at hcomma
      rw [Text.trim, String.toList_ofList]
      rcases hcomma with (hcomma | hcomma) | hcomma
      · exact absurd hcomma hfront.no_comma
      · exact hcomma
      · exact absurd hcomma hback.no_comma
    have hnonempty : Text.trim name ≠ "" := by
      intro hempty
      rw [hempty] at htrimmed
      cases htrimmed
    have hlisted : Text.trim name ∈ names.flatMap Text.commaList := by
      rw [h, List.mem_filter]
      exact ⟨List.mem_map_of_mem hname, by simpa using hnonempty⟩
    obtain ⟨other, -, hother⟩ := List.mem_flatMap.mp hlisted
    exact (Text.mem_commaList.mp hother).plain htrimmed
  · intro h
    induction names with
    | nil => rfl
    | cons name rest ih =>
        rw [List.flatMap_cons, ih (fun other hother => h other (List.mem_cons_of_mem _ hother)),
          Text.commaList_eq, Text.listed_of_no_comma (h name List.mem_cons_self), List.map_cons,
          ← List.filter_append]
        rfl

/-- What a node serves is what was declared last, on a node of its own as on one that a
registry keeps: what the given names list, in their order. These are the names themselves,
trimmed and without the empty ones, exactly if no name has a comma in it, since the comma is
what separates them in the one text that is stored. The rest of the node stays as it was. -/
theorem served_as_declared (n : Node) (names : List String) :
    let declared := n.withSubServices names
    declared.subServices = names.flatMap Text.commaList ∧
    (declared.subServices = (names.map Text.trim).filter (· ≠ "") ↔
      ∀ name ∈ names, ',' ∉ name.toList) ∧
    (∀ x, declared.serves x = true ↔ ∃ name ∈ names, Text.Lists name x) ∧
    declared = { n with metadata := declared.metadata } ∧
    (∀ key, key ≠ subServicesKey → declared.metadata.get? key = n.metadata.get? key) ∧
    ∀ {σ : Type} (b : Backend σ) (r : Registry) (component address : String)
      (options : RegisterOptions) (s : σ) (id : Int),
      options.subServices = names → options.isolate = false →
      (r.register b component address options s).1 = .ok id →
      ∃ node, (r.register b component address options s).2.1.node? component = some node ∧
        node.uniqueId = id ∧ node.subServices = declared.subServices := by
  intro declared
  have hsubServices : declared.subServices = names.flatMap Text.commaList :=
    subServices_withSubServices n names
  refine ⟨hsubServices, ?_, ?_, eq_withSubServices n names, ?_, ?_⟩
  · rw [hsubServices]
    exact flatMap_commaList_eq_iff
  · intro x
    rw [serves_iff, hsubServices, List.mem_flatMap]
    simp only [Text.mem_commaList]
  · intro key hkey
    rw [metadata_withSubServices, if_neg hkey]
  · rintro σ b r component address options s id rfl hpublishes hanswer
    refine ⟨r.nodeFor component address options id, ?_, Node.uniqueId_withSubServices _ _, ?_⟩
    · rw [Registry.registry_register, hanswer]
      simp only [hpublishes, Bool.false_eq_true, if_false, Registry.node?]
      rw [Table.get?_insert, if_pos rfl]
    · rw [hsubServices, Registry.nodeFor, subServices_withSubServices]

/-- Declared anew on a node that served others, and by a registration. -/
theorem served_as_declared_anew :
    let n := ((create "a" "x" 1 .zero).withMetadata "zone" "z").withSubServices ["old"]
    let options : RegisterOptions := ⟨false, none, [" s\u3000", "", "t", "s"]⟩
    let registered := (Registry.create (.ofSeconds 1)).register Scripted.backend "a" "x" options
      .create
    (n.withSubServices options.subServices).subServices = ["s", "t", "s"] ∧
      (n.withSubServices options.subServices).serves "old" = false ∧
      registered.1 = .ok 1 ∧
      ∃ node, registered.2.1.node? "a" = some node ∧ node.subServices = ["s", "t", "s"] := by
  intro n options registered
  obtain ⟨-, hgiven, -, -, -, hregistered⟩ := served_as_declared n options.subServices
  have hnames : (n.withSubServices options.subServices).subServices = ["s", "t", "s"] :=
    (hgiven.mpr (by decide)).trans (by decide)
  obtain ⟨node, hnode, -, hsame⟩ :=
    hregistered Scripted.backend (.create (.ofSeconds 1)) "a" "x" options .create 1 rfl rfl rfl
  exact ⟨hnames, by rw [serves, hnames]; decide, rfl, node, hnode, hsame.trans hnames⟩

/-- A name with a comma in it is declared and not served; two others are. -/
theorem comma_splits_name :
    let n := (create "a" "x" 1 .zero).withSubServices ["s,t"]
    n.subServices = ["s", "t"] ∧ n.subServices ≠ (["s,t"].map Text.trim).filter (· ≠ "") ∧
      n.serves "s,t" = false ∧ n.serves "s" = true := by
  intro n
  refine ⟨?_, ?_, ?_, ?_⟩ <;> decide +kernel

end Rollcall.Node
