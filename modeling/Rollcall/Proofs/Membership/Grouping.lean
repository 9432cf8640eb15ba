import Mathlib.Data.List.Basic
import Rollcall.Membership
import Rollcall.Proofs.Store.Listing

/-!
The members that a store holds, and what loads make of them. A full load leaves
exactly the nodes of the listing, grouped by service; loading one service
replaces that one alone. Where nodes stand at their own keys and under the prefix
of a service only its own, those are the nodes of the service in the full listing,
so both loads agree. Main statements: `replaceAll_replacements`,
`members?_replace`, `Separates.get?_byService` and `Separates.member_eq`.
-/

namespace Rollcall

open Rollcall.Membership (byAddress byService nodesOf)

/-- A service is kept only with members. -/
def Members.present? (members : Members) : Option Members :=
  if members.isEmpty then none else some members

theorem Members.present?_bind (members : Members) (address : String) :
    members.present?.bind (fun ms => ms.get? address) = members.get? address := by
  unfold present?
  cases hempty : members.isEmpty with
  | false => rfl
  | true =>
      rw [Table.isEmpty_iff.mp hempty]
      rfl

namespace Membership

/-- Replacing the members of a service leaves the others, and keeps no service without
members. -/
theorem members?_replace (m : Membership) (service name : String) (members : Members) :
    (m.replace service members).1.members? name =
      if name = service then members.present? else m.members? name := by
  unfold replace Members.present? members?
  cases hempty : members.isEmpty with
  | true => simp only [if_true, Table.get?_erase]
  | false => simp only [Bool.false_eq_true, if_false, Table.get?_insert]

def enter (members : Members) (node : Node) : Members := members.insert node.address node

theorem byAddress_eq (nodes : List Node) : byAddress nodes = nodes.foldl enter ∅ := by
  unfold byAddress Table.ofList
  rw [List.foldl_map]
  rfl

theorem isEmpty_foldl_enter (nodes : List Node) (members : Members) :
    (nodes.foldl enter members).isEmpty = (members.isEmpty && nodes.isEmpty) := by
  induction nodes generalizing members with
  | nil => simp
  | cons node rest ih =>
      have henter : (enter members node).isEmpty = false := Table.isEmpty_insert _ _ _
      rw [List.foldl_cons, ih, henter]
      simp

/-- If all nodes at an address are one and the same, that is what is entered there, whatever
the order and whatever else is entered. -/
theorem get?_foldl_enter {nodes : List Node} {members : Members} {address : String}
    {found : Option Node} (hnodes : ∀ node ∈ nodes, node.address = address → some node = found)
    (hfound : (∃ node ∈ nodes, node.address = address) ∨ members.get? address = found) :
    (nodes.foldl enter members).get? address = found := by
  induction nodes generalizing members with
  | nil =>
      rcases hfound with ⟨node, member, _⟩ | hmembers
      · cases member
      · exact hmembers
  | cons node rest ih =>
      apply ih (fun other hother => hnodes other (List.mem_cons_of_mem _ hother))
      rw [enter, Table.get?_insert]
      by_cases haddress : address = node.address
      · right
        rw [if_pos haddress]
        exact hnodes node List.mem_cons_self haddress.symm
      · rw [if_neg haddress]
        rcases hfound with ⟨other, member, hother⟩ | hmembers
        · rcases List.mem_cons.mp member with rfl | hrest
          · exact absurd hother.symm haddress
          · exact .inl ⟨other, hrest, hother⟩
        · exact .inr hmembers

/-- The nodes of a service are entered over those that are already there. -/
theorem get?_foldl_addNode (nodes : List Node) (services : Table String Members)
    (service : String) :
    (nodes.foldl addNode services).get? service =
      if (nodes.filter (fun node => node.service = service)).isEmpty then services.get? service
      else some ((nodes.filter (fun node => node.service = service)).foldl enter
        (services.getD service ∅)) := by
  induction nodes generalizing services with
  | nil => rfl
  | cons node rest ih =>
      rw [List.foldl_cons, ih]
      by_cases hservice : node.service = service
      · subst hservice
        have hadded : (addNode services node).get? node.service =
            some (enter (services.getD node.service ∅) node) := by
          rw [addNode, Table.get?_insert, if_pos rfl]
          rfl
        have hgetD : (addNode services node).getD node.service ∅ =
            enter (services.getD node.service ∅) node := by
          rw [Table.getD, hadded, Option.getD_some]
        rw [List.filter_cons_of_pos (by simp), hadded, hgetD]
        cases hrest : rest.filter (fun other => other.service = node.service) with
        | nil => simp
        | cons first more => simp
      · have hother : (addNode services node).get? service = services.get? service := by
          rw [addNode, Table.get?_insert, if_neg (Ne.symm hservice)]
        have hgetD : (addNode services node).getD service ∅ = services.getD service ∅ := by
          rw [Table.getD, hother, Table.getD]
        rw [List.filter_cons_of_neg (by simpa using hservice), hother, hgetD]

/-- Grouping the nodes of all services gives each service the nodes of that service, by
their addresses, and nothing where there are none. -/
theorem get?_byService (nodes : List Node) (service : String) :
    (byService nodes).get? service =
      (byAddress (nodes.filter (fun node => node.service = service))).present? := by
  rw [byService, get?_foldl_addNode, Members.present?, byAddress_eq, isEmpty_foldl_enter]
  rfl

end Membership

namespace Cached

variable {σ : Type} {listener : Listener σ} {c : Cached σ}

/-- What a service holds after several replacements. They may name it more than once, as
long as they agree. -/
theorem members?_replaceAll {changes : List (String × Members)} {service : String}
    {found : Option Members}
    (hchanges : ∀ change ∈ changes, change.1 = service → change.2.present? = found)
    (hfound : (∃ change ∈ changes, change.1 = service) ∨
      c.membership.members? service = found) :
    (replaceAll listener c changes).membership.members? service = found := by
  induction changes generalizing c with
  | nil =>
      rcases hfound with ⟨change, member, _⟩ | hmembers
      · cases member
      · exact hmembers
  | cons change rest ih =>
      apply ih (fun other hother => hchanges other (List.mem_cons_of_mem _ hother))
      have hreplace := Membership.members?_replace c.membership change.1 service change.2
      by_cases hservice : service = change.1
      · right
        rw [if_pos hservice] at hreplace
        exact hreplace.trans (hchanges change List.mem_cons_self hservice.symm)
      · rw [if_neg hservice] at hreplace
        rcases hfound with ⟨other, member, hother⟩ | hmembers
        · rcases List.mem_cons.mp member with rfl | hrest
          · exact absurd hother.symm hservice
          · exact .inl ⟨other, hrest, hother⟩
        · exact .inr (hreplace.trans hmembers)

/-- A full load replaces whatever the cache held by what is listed. -/
theorem replaceAll_replacements (listing : Listing) :
    (replaceAll listener c (c.membership.replacements listing)).membership.services =
      byService (nodesOf listing) := by
  apply Table.ext_get?
  intro service
  cases hcurrent : (byService (nodesOf listing)).get? service with
  | none =>
      apply members?_replaceAll
      · intro change member hservice
        rcases List.mem_append.mp member with hstale | hrow
        · obtain ⟨_, _, rfl⟩ := List.mem_map.mp hstale
          rfl
        · have hget := Table.get?_eq_some_iff.mpr hrow
          rw [hservice, hcurrent] at hget
          cases hget
      · cases hmembers : c.membership.members? service with
        | none => exact .inr rfl
        | some members =>
            refine .inl ⟨(service, ∅), List.mem_append_left _ (List.mem_map.mpr ?_), rfl⟩
            refine ⟨service, List.mem_filter.mpr ⟨?_, ?_⟩, rfl⟩
            · exact List.mem_map.mpr ⟨(service, members), Table.get?_eq_some_iff.mp hmembers, rfl⟩
            · simp [Table.contains, hcurrent]
  | some members =>
      have hpresent : members.present? = some members := by
        have hget := hcurrent
        rw [Membership.get?_byService, Members.present?] at hget
        unfold Members.present?
        split at hget
        · cases hget
        · rename_i hnonempty
          obtain rfl := Option.some.inj hget
          rw [if_neg hnonempty]
      apply members?_replaceAll
      · intro change member hservice
        rcases List.mem_append.mp member with hstale | hrow
        · obtain ⟨name, hname, rfl⟩ := List.mem_map.mp hstale
          have hgone := (List.mem_filter.mp hname).2
          simp only at hservice
          simp [Table.contains, hservice, hcurrent] at hgone
        · have hget := Table.get?_eq_some_iff.mpr hrow
          rw [hservice, hcurrent] at hget
          rw [← Option.some.inj hget, hpresent]
      · left
        exact ⟨(service, members), List.mem_append_right _ (Table.get?_eq_some_iff.mp hcurrent),
          rfl⟩

end Cached

namespace Store

/-- The nodes stored under a prefix, in the order of their keys; values that are
no nodes are passed over. -/
def nodesUnder (s : Store) (root : String) : List Node :=
  (s.entries.rows.filter (fun row => Key.startsWith root row.1)).filterMap
    (fun row => (Node.decode row.2.value).toOption)

def membersOf (s : Store) (service : String) : Option Members :=
  (byAddress (s.nodesUnder (Key.servicePrefix service))).present?

/-- The nodes in a listing of a prefix are those that stand under it in the store. -/
theorem nodesOf_scan (s : Store) (root : String) (version : Int) :
    nodesOf ⟨s.scan ⟨root, true⟩, version⟩ = s.nodesUnder root := by
  simp only [nodesOf, scan_eq_filter, List.filterMap_map]
  rfl

/-- Every value under the service root either is no node or stands at the key of
the node that it is; with the prefix of the service, of one of its own nodes. -/
def Separates (s : Store) (service : String) : Prop :=
  ∀ key e node, s.entries.get? key = some e → Key.startsWith Key.serviceRoot key = true →
    Node.decode e.value = .ok node →
    key = Key.service node.service node.address ∧
      (Key.startsWith (Key.servicePrefix service) key = true ↔ node.service = service)

/-- Every value under the service root either is no node or stands at the key of
the node that it is. -/
def Sound (s : Store) : Prop :=
  ∀ key e node, s.entries.get? key = some e → Key.startsWith Key.serviceRoot key = true →
    Node.decode e.value = .ok node →
    Key.IsServiceName node.service ∧ key = Key.service node.service node.address

variable {s : Store}

/-- A node is under a prefix if some key with that prefix holds a text that decodes to it. -/
theorem mem_nodesUnder {root : String} {node : Node} :
    node ∈ s.nodesUnder root ↔
      ∃ key e, s.entries.get? key = some e ∧ Key.startsWith root key = true ∧
        Node.decode e.value = .ok node := by
  simp only [nodesUnder, List.mem_filterMap, List.mem_filter, Prod.exists, Table.get?_eq_some_iff]
  constructor
  · rintro ⟨key, e, ⟨hrow, hkey⟩, hnode⟩
    refine ⟨key, e, hrow, hkey, ?_⟩
    cases hdecode : Node.decode e.value with
    | error fault => simp [hdecode, Except.toOption] at hnode
    | ok other =>
        simp only [hdecode, Except.toOption, Option.some.injEq] at hnode
        rw [hnode]
  · rintro ⟨key, e, hrow, hkey, hdecode⟩
    exact ⟨key, e, ⟨hrow, hkey⟩, by simp [hdecode, Except.toOption]⟩

namespace Separates

variable {service : String}

/-- The nodes of the service in the full listing are those under its prefix. -/
theorem nodesUnder_root_filter (h : s.Separates service) :
    (s.nodesUnder Key.serviceRoot).filter (fun node => node.service = service) =
      s.nodesUnder (Key.servicePrefix service) := by
  unfold nodesUnder
  rw [List.filterMap_filter, List.filterMap_filter, List.filter_filterMap]
  apply List.filterMap_congr
  rintro ⟨key, e⟩ hrow
  cases hdecode : Node.decode e.value with
  | error fault => simp [Except.toOption]
  | ok node =>
      have hentry := Table.get?_eq_some_iff.mpr hrow
      cases hroot : Key.startsWith Key.serviceRoot key with
      | true =>
          have hprefix : Key.startsWith (Key.servicePrefix service) key =
              decide (node.service = service) := by
            rw [Bool.eq_iff_iff, (h key e node hentry hroot hdecode).2, decide_eq_true_iff]
          simp [Except.toOption, hprefix, Option.filter]
      | false =>
          cases hprefix : Key.startsWith (Key.servicePrefix service) key with
          | false => simp
          | true =>
              rw [Key.startsWith_root_of_servicePrefix hprefix] at hroot
              cases hroot

/-- Grouping the full listing gives the service its own members. -/
theorem get?_byService (h : s.Separates service) :
    (byService (s.nodesUnder Key.serviceRoot)).get? service = s.membersOf service := by
  rw [Membership.get?_byService, h.nodesUnder_root_filter, membersOf]

/-- The member at an address is the node that stands at its key. -/
theorem member_eq (h : s.Separates service) (address : String) :
    (byAddress (s.nodesUnder (Key.servicePrefix service))).get? address =
      (s.entries.get? (Key.service service address)).bind
        (fun e => (Node.decode e.value).toOption) := by
  have hat {node : Node} (member : node ∈ s.nodesUnder (Key.servicePrefix service)) :
      ∃ e, s.entries.get? (Key.service service node.address) = some e ∧
        Node.decode e.value = .ok node := by
    obtain ⟨key, e, hentry, hkey, hdecode⟩ := mem_nodesUnder.mp member
    have hroot := Key.startsWith_root_of_servicePrefix hkey
    obtain ⟨rfl, hiff⟩ := h key e node hentry hroot hdecode
    exact ⟨e, hiff.mp hkey ▸ hentry, hdecode⟩
  rw [Membership.byAddress_eq]
  apply Membership.get?_foldl_enter
  · intro node member haddress
    obtain ⟨e, hentry, hdecode⟩ := hat member
    rw [← haddress, hentry, Option.bind_some, hdecode]
    rfl
  · cases hentry : s.entries.get? (Key.service service address) with
    | none => exact .inr rfl
    | some e =>
        cases hdecode : Node.decode e.value with
        | error fault =>
            right
            simp only [Option.bind_some, hdecode, Except.toOption]
            rfl
        | ok node =>
            left
            have hroot := Key.startsWith_root_service service address
            have hprefix := Key.startsWith_servicePrefix service address
            obtain ⟨hkey, hiff⟩ := h _ e node hentry hroot hdecode
            obtain rfl := hiff.mp hprefix
            exact ⟨node, mem_nodesUnder.mpr ⟨_, e, hentry, hprefix, hdecode⟩,
              (Key.address_injective hkey).symm⟩

end Separates

namespace Sound

/-- A node that stands at its own key has a service name, that is, one that can be read off
a key. -/
theorem isServiceName (h : s.Sound) {node : Node} (member : node ∈ s.nodesUnder Key.serviceRoot) :
    Key.IsServiceName node.service := by
  obtain ⟨key, e, hentry, hkey, hdecode⟩ := mem_nodesUnder.mp member
  exact (h key e node hentry hkey hdecode).1

/-- Where every node stands at its own key, no prefix of a service holds a node of another
one. -/
theorem separates (h : s.Sound) {service : String} (hservice : Key.IsServiceName service) :
    s.Separates service := by
  intro key e node hentry hroot hdecode
  obtain ⟨hname, rfl⟩ := h key e node hentry hroot hdecode
  exact ⟨rfl, Key.startsWith_servicePrefix_service hservice hname node.address⟩

/-- Grouping the full listing gives every service its own members. -/
theorem get?_byService (h : s.Sound) {service : String} (hservice : Key.IsServiceName service) :
    (byService (s.nodesUnder Key.serviceRoot)).get? service = s.membersOf service :=
  (h.separates hservice).get?_byService

theorem get?_byService_of_not (h : s.Sound) {service : String}
    (hservice : ¬ Key.IsServiceName service) :
    (byService (s.nodesUnder Key.serviceRoot)).get? service = none := by
  have hnone : (s.nodesUnder Key.serviceRoot).filter (fun node => node.service = service) = [] := by
    apply List.filter_eq_nil_iff.mpr
    intro node member
    have hname := h.isServiceName member
    simp only [decide_eq_true_eq]
    rintro rfl
    exact hservice hname
  rw [Membership.get?_byService, hnone]
  rfl

/-- The member at an address is the node that stands at its key. -/
theorem member_eq (h : s.Sound) {service : String} (hservice : Key.IsServiceName service)
    (address : String) :
    (s.membersOf service).bind (fun members => members.get? address) =
      (s.entries.get? (Key.service service address)).bind
        (fun e => (Node.decode e.value).toOption) := by
  rw [membersOf, Members.present?_bind, (h.separates hservice).member_eq]

end Sound

end Store

end Rollcall
