import Rollcall.Proofs.Membership.Reloading
import Rollcall.Proofs.Node.SubServices
import Rollcall.Proofs.Target
import Rollcall.Proofs.Text.Order

/-!
What a selector selects of a cache. Whatever was loaded, each member stands at its own
address and no service is kept without members. So a selection is empty only where the
component is not there; it has the nodes that declare the sub-service if there are any, and
all nodes of the component otherwise, each address once and in ascending order. Main
statements: `Reached.keyed`, `gather_eq_keys` and `select_exact`.
-/

namespace Rollcall

open Rollcall.Membership (byAddress byService nodesOf)

namespace Members

def Own (members : Members) : Prop :=
  ∀ row ∈ members.rows, row.2.address = row.1

theorem own_empty : Own ∅ := nofun

theorem own_byAddress (nodes : List Node) : Own (byAddress nodes) := by
  rintro ⟨address, node⟩ hrow
  have hget := Table.get?_eq_some_iff.mpr hrow
  rw [Membership.get?_byAddress] at hget
  exact of_decide_eq_true (List.mem_filter.mp (List.mem_of_getLast? hget)).2

variable {members : Members}

theorem Own.filter (h : members.Own) (keep : String → Node → Bool) :
    Own (members.filter keep) :=
  fun row hrow => h row (List.mem_filter.mp hrow).1

theorem Own.map_address_values (h : members.Own) :
    members.values.map Node.address = members.keys := by
  rw [Table.values, Table.keys, List.map_map]
  exact List.map_congr_left h

/-- The keys of members that stand at their own addresses are the addresses of the nodes
among them. -/
theorem Own.mem_keys (h : members.Own) {address : String} :
    address ∈ members.keys ↔ ∃ node ∈ members.values, node.address = address := by
  rw [← h.map_address_values, List.mem_map]

/-- The addresses of a service ascend, and with that none is repeated. -/
theorem keys_ascending (members : Members) : members.keys.Pairwise (· < ·) :=
  members.ascending.map _ (fun _ _ hlt => hlt)

theorem keys_ne_nil (h : members.isEmpty = false) : members.keys ≠ [] := by
  rw [Table.isEmpty, List.isEmpty_eq_false_iff] at h
  rw [Table.keys, Ne, List.map_eq_nil_iff]
  exact h

def chosen (members : Members) : Option String → Members
  | none => members
  | some sub =>
      let serving := members.filter (fun _ node => node.serves sub)
      if serving.isEmpty then members else serving

end Members

namespace Membership

/-- What a call does to a cache. Services are loaded all, in one order or another and with
others looking on while they are replaced, or one alone. -/
inductive Step : Membership → Membership → Prop
  | loadAll {σ : Type} (b : Backend σ) (listener : Listener σ) (c : Cached σ) :
      Step c.membership (c.loadAll b listener).2.membership
  | loading {σ : Type} (listener : Listener σ) (c : Cached σ) (listing : Listing)
      {done rest : List (String × Members)}
      (h : (done ++ rest).Perm (c.membership.replacements listing)) :
      Step c.membership (c.replaceAll listener done).membership
  | loadService {σ : Type} (b : Backend σ) (listener : Listener σ) (service : String)
      (c : Cached σ) : Step c.membership (c.loadService b listener service).2.membership

inductive Reached : Membership → Prop
  | empty : Reached .empty
  | step {m m' : Membership} : Reached m → Step m m' → Reached m'

/-- Members stand at their own addresses, and no service is kept without any. -/
structure Keyed (m : Membership) : Prop where
  own : ∀ service members, m.members? service = some members → members.Own
  nonempty : ∀ service members, m.members? service = some members → members.isEmpty = false

section

variable {m m' : Membership}

theorem Keyed.replace (h : m.Keyed) {members : Members} (hown : members.Own) (service : String) :
    (m.replace service members).1.Keyed := by
  have hmembers {name : String} {found : Members}
      (hfound : (m.replace service members).1.members? name = some found) :
      (found = members ∧ found.isEmpty = false) ∨ m.members? name = some found := by
    rw [members?_replace] at hfound
    split at hfound
    · left
      rw [Members.present?] at hfound
      split at hfound
      · cases hfound
      · rename_i hnonempty
        obtain rfl := Option.some.inj hfound
        exact ⟨rfl, Bool.eq_false_iff.mpr hnonempty⟩
    · exact .inr hfound
  constructor
  case own =>
    intro name found hfound
    rcases hmembers hfound with ⟨rfl, -⟩ | hkept
    · exact hown
    · exact h.own name found hkept
  case nonempty =>
    intro name found hfound
    rcases hmembers hfound with ⟨-, hnonempty⟩ | hkept
    · exact hnonempty
    · exact h.nonempty name found hkept

theorem own_replacements (m : Membership) (listing : Listing) :
    ∀ change ∈ m.replacements listing, change.2.Own := by
  intro change hchange
  rcases List.mem_append.mp hchange with hstale | hcurrent
  · obtain ⟨service, -, rfl⟩ := List.mem_map.mp hstale
    exact Members.own_empty
  · have hget := Table.get?_eq_some_iff.mpr hcurrent
    rw [get?_byService, Members.present?] at hget
    split at hget
    · cases hget
    · rw [← Option.some.inj hget]
      exact Members.own_byAddress _

/-- Any number of replacements, of which each brings members at their own addresses, keeps
the cache keyed. -/
theorem Keyed.replaceAll {σ : Type} {listener : Listener σ} {c : Cached σ}
    {changes : List (String × Members)} (h : c.membership.Keyed)
    (hown : ∀ change ∈ changes, change.2.Own) :
    (c.replaceAll listener changes).membership.Keyed := by
  induction changes generalizing c with
  | nil => exact h
  | cons change rest ih =>
      have hchange := hown change List.mem_cons_self
      refine ih (h.replace hchange change.1) fun other hother => ?_
      exact hown other (List.mem_cons_of_mem _ hother)

/-- Each call keeps the cache keyed, also with its services replaced in another order and
the listing cut short. -/
theorem Keyed.step (h : m.Keyed) (hstep : Step m m') : m'.Keyed := by
  cases hstep with
  | loadAll b listener c =>
      rcases hget : (b.get ⟨Key.serviceRoot, true⟩).exec c.state with ⟨failure | listing, state⟩
      · simp only [Cached.loadAll, hget]
        exact h
      · have hkeyed : ({ c with state } : Cached _).membership.Keyed := h
        simp only [Cached.loadAll, hget]
        exact hkeyed.replaceAll (own_replacements c.membership listing)
  | loading listener c listing hperm =>
      refine h.replaceAll fun change hchange => ?_
      exact own_replacements _ _ change (hperm.mem_iff.mp (List.mem_append_left _ hchange))
  | loadService b listener service c =>
      rcases hget : (b.get ⟨Key.servicePrefix service, true⟩).exec c.state with
        ⟨failure | listing, state⟩
      · simp only [Cached.loadService, hget]
        exact h
      · simp only [Cached.loadService, hget, Cached.replace]
        exact h.replace (Members.own_byAddress (nodesOf listing)) service

/-- So is every cache that the calls lead to. This is the invariant that selection rests on. -/
theorem Reached.keyed (h : Reached m) : m.Keyed := by
  induction h with
  | empty => exact ⟨nofun, nofun⟩
  | step _ hstep ih => exact ih.step hstep

def Has (m : Membership) (service : String) (node : Node) : Prop :=
  ∃ members, m.members? service = some members ∧ node ∈ members.values

theorem has_iff {service : String} {members : Members} (h : m.members? service = some members)
    {node : Node} : m.Has service node ↔ node ∈ members.values := by
  rw [Has, h]
  constructor
  · rintro ⟨found, hfound, hnode⟩
    rwa [Option.some.inj hfound]
  · exact fun hnode => ⟨members, rfl, hnode⟩

theorem select_of_none {s : Selector} (h : m.members? s.component = none) : m.select s = [] := by
  rw [select, h]

/-- Of one that is cached, the keys of the members that are chosen. -/
theorem select_of_some (hkeyed : m.Keyed) {s : Selector} {members : Members}
    (h : m.members? s.component = some members) :
    m.select s = (members.chosen s.subService).keys := by
  have hown := hkeyed.own _ _ h
  rw [select, h]
  cases hsub : s.subService with
  | none => rfl
  | some sub =>
      have hserving := (hown.filter (fun _ node => node.serves sub)).map_address_values
      have hempty : ((members.filter (fun _ node => node.serves sub)).values.map
          Node.address).isEmpty = (members.filter (fun _ node => node.serves sub)).isEmpty := by
        rw [Table.values, List.map_map, List.isEmpty_map, Table.isEmpty]
      simp only [hempty, Members.chosen]
      split
      · rfl
      · exact hserving

end

/-- The addresses that are selected of a component whose members come in any order: those
of all members, or of the ones that serve the sub-service if there are any, sorted. -/
def gather (rows : List (String × Node)) : Option String → List String
  | none => (rows.map Prod.fst).mergeSort
  | some sub =>
      match (rows.filter (fun row => row.2.serves sub)).map (fun row => row.2.address) with
      | [] => (rows.map Prod.fst).mergeSort
      | serving => serving.mergeSort

/-- Sorting finds the one ascending order of some addresses, so the order in which a map
hands them out does not show. -/
theorem mergeSort_eq_of_perm {addresses sorted : List String} (hperm : addresses.Perm sorted)
    (hsorted : sorted.Pairwise (· < ·)) : addresses.mergeSort = sorted := by
  have hmerged : addresses.mergeSort.Pairwise (fun a b => decide (a ≤ b) = true) :=
    List.pairwise_mergeSort (by simpa using fun a b c hab hbc => String.le_trans hab hbc)
      (by simpa using String.le_total) addresses
  refine List.Perm.eq_of_pairwise ?_ hmerged (hsorted.imp ?_)
    ((List.mergeSort_perm addresses _).trans hperm)
  · intro a b _ _ hab hba
    exact String.le_antisymm (of_decide_eq_true hab) (of_decide_eq_true hba)
  · intro a b hlt
    exact decide_eq_true (Std.le_of_lt hlt)

/-- Where members stand at their own addresses, the order in which they come does not
matter. -/
theorem gather_eq_keys {members : Members} (hown : members.Own) {rows : List (String × Node)}
    (hperm : rows.Perm members.rows) (sub : Option String) :
    gather rows sub = (members.chosen sub).keys := by
  have hall : (rows.map Prod.fst).mergeSort = members.keys :=
    mergeSort_eq_of_perm (hperm.map Prod.fst) members.keys_ascending
  cases sub with
  | none => exact hall
  | some sub =>
      let serving : Members := members.filter (fun _ node => node.serves sub)
      have hserving : ((rows.filter (fun row => row.2.serves sub)).map
          (fun row => row.2.address)).Perm serving.keys := by
        have hvalues := (hown.filter (fun _ node => node.serves sub)).map_address_values
        rw [Table.values, List.map_map] at hvalues
        exact ((hperm.filter _).map _).trans (.of_eq hvalues)
      have hchosen : members.chosen (some sub) = if serving.isEmpty then members else serving := rfl
      rw [gather, hchosen]
      split
      · rename_i hnone
        rw [hnone, List.nil_perm, Table.keys, List.map_eq_nil_iff] at hserving
        rw [Table.isEmpty, hserving]
        exact hall
      · rename_i hsome
        have hnonempty : serving.isEmpty = false := by
          rw [Table.isEmpty, List.isEmpty_eq_false_iff]
          intro hrows
          rw [Table.keys, hrows] at hserving
          exact hsome hserving.eq_nil
        rw [hnonempty]
        exact mergeSort_eq_of_perm hserving serving.keys_ascending

/-- What a list of addresses is to a cache and a selector: in ascending order of its bytes
and without repeats, empty only where the component is not cached, and of the nodes of the
component those that declare the sub-service, if any does, and all of them otherwise. -/
structure Selected (m : Membership) (s : Selector) (found : List String) : Prop where
  ascending : (found.map Text.utf8).Pairwise (· < ·)
  eq_nil_iff : found = [] ↔ m.members? s.component = none
  whole : s.subService = none →
    ∀ address, address ∈ found ↔ ∃ node, m.Has s.component node ∧ node.address = address
  serving : ∀ sub, s.subService = some sub →
    (∃ node, m.Has s.component node ∧ node.Declares sub) → ∀ address, address ∈ found ↔
      ∃ node, m.Has s.component node ∧ node.Declares sub ∧ node.address = address
  fallback : ∀ sub, s.subService = some sub →
    (¬ ∃ node, m.Has s.component node ∧ node.Declares sub) → ∀ address, address ∈ found ↔
      ∃ node, m.Has s.component node ∧ node.address = address

theorem selected_nil {m : Membership} {s : Selector} (h : m.members? s.component = none) :
    Selected m s [] := by
  have hnobody (node : Node) : ¬ m.Has s.component node := by
    rintro ⟨members, hmembers, -⟩
    rw [h] at hmembers
    cases hmembers
  constructor
  case ascending => exact .nil
  case eq_nil_iff => simp [h]
  all_goals simp [hnobody]

/-- To serve a sub-service is to declare it among one's metadata. -/
theorem mem_values_filter_iff {members : Members} {node : Node} {sub : String} :
    node ∈ (members.filter (fun _ node => node.serves sub)).values ↔
      node ∈ members.values ∧ node.Declares sub := by
  simp only [Table.values, Table.filter, List.mem_map, List.mem_filter, ← Node.serves_iff_declares]
  constructor
  · rintro ⟨row, ⟨hrow, hserves⟩, rfl⟩
    exact ⟨⟨row, hrow, rfl⟩, hserves⟩
  · rintro ⟨⟨row, hrow, rfl⟩, hserves⟩
    exact ⟨row, ⟨hrow, hserves⟩, rfl⟩

/-- What is chosen of the members of a component is what a selector names: those that
declare the sub-service, or all of them if none does. -/
theorem selected_chosen {m : Membership} (hkeyed : m.Keyed) {s : Selector} {members : Members}
    (h : m.members? s.component = some members) :
    Selected m s (members.chosen s.subService).keys := by
  have hown := hkeyed.own _ _ h
  have hnonempty := hkeyed.nonempty _ _ h
  have hall (address : String) : address ∈ members.keys ↔
      ∃ node, m.Has s.component node ∧ node.address = address := by
    simp only [has_iff h]
    exact hown.mem_keys
  -- nobody serves the sub-service exactly if the filter leaves nothing
  have hempty (sub : String) :
      (members.filter (fun _ node => node.serves sub)).isEmpty = true ↔
        ¬ ∃ node, m.Has s.component node ∧ node.Declares sub := by
    simp only [has_iff h, ← mem_values_filter_iff, not_exists]
    rw [Table.isEmpty, List.isEmpty_iff, ← List.map_eq_nil_iff (f := Prod.snd)]
    exact List.eq_nil_iff_forall_not_mem
  constructor
  case ascending =>
    rw [List.pairwise_map]
    exact (Members.keys_ascending _).imp Text.utf8_lt
  case eq_nil_iff =>
    have hchosen : (members.chosen s.subService).isEmpty = false := by
      cases s.subService with
      | none => exact hnonempty
      | some sub =>
          simp only [Members.chosen]
          split
          · exact hnonempty
          · rename_i hserving
            exact Bool.eq_false_iff.mpr hserving
    simp [h, Members.keys_ne_nil hchosen]
  case whole =>
    intro hsub address
    rw [hsub]
    exact hall address
  case serving =>
    intro sub hsub hsome address
    have hserving : (members.filter (fun _ node => node.serves sub)).isEmpty = false :=
      Bool.eq_false_iff.mpr fun hnone => (hempty sub).mp hnone hsome
    simp only [hsub, Members.chosen, hserving, Bool.false_eq_true, if_false]
    rw [(hown.filter _).mem_keys]
    simp only [mem_values_filter_iff, has_iff h, and_assoc]
  case fallback =>
    intro sub hsub hnobody address
    simp only [hsub, Members.chosen, (hempty sub).mpr hnobody, if_true]
    exact hall address

/-- Every selector splits in one way, and whatever a cache has come to hold, selects of it
what it names. That is so in whatever order the members of the component come before their
addresses are sorted. -/
theorem select_exact {m : Membership} (h : Reached m) (text : String) :
    ∃ s, (∀ s', Selector.Splits text s' ↔ s' = s) ∧ Selected m s (m.select (.ofString text)) ∧
      ∀ members rows, m.members? s.component = some members → rows.Perm members.rows →
        gather rows s.subService = m.select (.ofString text) := by
  refine ⟨.ofString text, fun s' => Selector.splits_iff, ?_, ?_⟩
  · cases hmembers : m.members? (Selector.ofString text).component with
    | none =>
        rw [select_of_none hmembers]
        exact selected_nil hmembers
    | some members =>
        rw [select_of_some h.keyed hmembers]
        exact selected_chosen h.keyed hmembers
  · intro members rows hmembers hperm
    rw [select_of_some h.keyed hmembers]
    exact gather_eq_keys (h.keyed.own _ _ hmembers) hperm _

/-- After a full load a service has the members that were listed, whatever the cache held
before. -/
theorem members?_loadAll {σ : Type} {b : Backend σ} {c : Cached σ} {listing : Listing} {state : σ}
    (hget : (b.get ⟨Key.serviceRoot, true⟩).exec c.state = (.ok listing, state))
    (listener : Listener σ) (service : String) :
    (c.loadAll b listener).2.membership.members? service =
      (byService (nodesOf listing)).get? service := by
  simp only [Cached.loadAll, hget]
  rw [members?]
  exact congrArg (fun services => Table.get? services service)
    (Cached.replaceAll_replacements (c := { c with state }) listing)

/-- A listing of nodes that lose nothing when they are written lists them. -/
theorem nodesOf_encoded {nodes : List Node} (h : ∀ n ∈ nodes, n.HasId64 ∧ n.written = n)
    (version revision : Int) :
    nodesOf ⟨nodes.map (fun n => ⟨n.key, n.encode, version⟩), revision⟩ = nodes := by
  induction nodes with
  | nil => rfl
  | cons n rest ih =>
      obtain ⟨hid, hwritten⟩ := h n List.mem_cons_self
      have hdecode : Node.decode n.encode = .ok n := by rw [Node.decode_encode hid, hwritten]
      rw [List.map_cons, Cached.nodesOf_cons, ih (fun m hm => h m (List.mem_cons_of_mem _ hm)),
        hdecode]
      rfl

/-- Three nodes of one component, of which one serves a name with a dot in it. -/
def sampleNodes : List Node := [
  (Node.create "a" "x" 1 (.ofSeconds 1)).withSubServices ["s"],
  (Node.create "a" "y" 2 (.ofSeconds 1)).withSubServices ["t", " s.u "],
  Node.create "a" "z" 3 (.ofSeconds 1)]

def sampleServing : Scripted :=
  sampleNodes.foldl (fun s n => s.put n.key n.encode) .create

/-- The sub-service with a dot in its name selects the one node that declares it, one that
nobody declares selects all three, and a component that is not there selects nothing. -/
theorem select_exact_loaded :
    let m := (Cached.loadAll Scripted.backend (fun _ _ s => s) ⟨.empty, sampleServing⟩).2.membership
    Reached m ∧ m.select (.ofString "a.s.u") = ["y"] ∧
      m.select (.ofString "a.v") = ["x", "y", "z"] ∧ m.select (.ofString "b.s") = [] := by
  intro m
  have hreached : Reached m :=
    .step .empty (.loadAll Scripted.backend (fun _ _ s => s) ⟨.empty, sampleServing⟩)
  have hmembers (service : String) :
      m.members? service = (byService sampleNodes).get? service := by
    have hget : (Scripted.backend.get ⟨Key.serviceRoot, true⟩).exec sampleServing =
        (.ok ⟨sampleNodes.map (fun n => ⟨n.key, n.encode, 3⟩), 3⟩,
          (sampleServing.note (.get ⟨Key.serviceRoot, true⟩)).2) := rfl
    have hkept : ∀ n ∈ sampleNodes, n.HasId64 ∧ n.written = n := by
      simp only [Node.HasId64]
      decide +kernel
    rw [members?_loadAll hget, nodesOf_encoded hkept]
  have ha : m.members? "a" = some (byAddress sampleNodes) := (hmembers "a").trans rfl
  have hrows : (byAddress sampleNodes).rows = sampleNodes.map (fun n => (n.address, n)) := rfl
  have hsplits (component sub text : String) (hdot : '.' ∉ component.toList) (hsub : sub ≠ "")
      (htext : text = component ++ "." ++ sub) : Selector.Splits text ⟨component, some sub⟩ :=
    htext ▸ .sub hdot hsub
  have hgathered (sub text : String) (hsub : sub ≠ "") (htext : text = "a" ++ "." ++ sub) :
      gather (byAddress sampleNodes).rows.reverse (some sub) = m.select (.ofString text) := by
    obtain ⟨s, hs, -, hgather⟩ := select_exact hreached text
    obtain rfl := (hs ⟨"a", some sub⟩).mp (hsplits "a" sub text (by decide) hsub htext)
    exact hgather _ _ ha (List.reverse_perm _)
  refine ⟨hreached, ?_, ?_, ?_⟩
  · have hserving : ((byAddress sampleNodes).rows.reverse.filter
        (fun row => row.2.serves "s.u")).map (fun row => row.2.address) = ["y"] := by decide +kernel
    rw [← hgathered "s.u" "a.s.u" (by decide) (by decide), gather, hserving]
    exact List.mergeSort_singleton "y"
  · have hserving : ((byAddress sampleNodes).rows.reverse.filter
        (fun row => row.2.serves "v")).map (fun row => row.2.address) = [] := by decide +kernel
    have hall : (byAddress sampleNodes).rows.reverse.map Prod.fst = ["x", "y", "z"].reverse := rfl
    rw [← hgathered "v" "a.v" (by decide) (by decide), gather, hserving, hall]
    exact mergeSort_eq_of_perm (List.reverse_perm ["x", "y", "z"]) (by decide)
  · obtain ⟨s, hs, hselected, -⟩ := select_exact hreached "b.s"
    obtain rfl := (hs ⟨"b", some "s"⟩).mp (hsplits "b" "s" "b.s" (by decide) (by decide) rfl)
    exact hselected.eq_nil_iff.mpr ((hmembers "b").trans rfl)

end Membership

end Rollcall
