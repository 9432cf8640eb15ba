import Mathlib.Data.List.Nodup
import Rollcall.Proofs.Membership.Grouping
import Rollcall.Proofs.Node.Written
import Rollcall.Scripted

/-!
Loading every service anew. Whatever the cache held, a load that succeeds leaves the
services of the listed nodes and no others, of nodes at one address the last, and tells
the listener once of each service that was or is there; one that fails changes nothing.
The services may be replaced in any order. Main statements: `reloaded_of_perm` and
`reload_exact`.
-/

namespace Rollcall

open Rollcall.Membership (byAddress byService nodesOf)

namespace Membership

/-- What the listener is shown while services are replaced one after the other: the cache
as it then is, and the notice. -/
def shown (m : Membership) : List (String × Members) → List (Membership × Notice)
  | [] => []
  | change :: rest => m.replace change.1 change.2 :: shown (m.replace change.1 change.2).1 rest

/-- The notices go out in the order of the replacements, each with the addresses that the
service has from then on. -/
theorem map_notice_shown (m : Membership) (changes : List (String × Members)) :
    (m.shown changes).map Prod.snd = changes.map (fun change => ⟨change.1, change.2.keys⟩) := by
  induction changes generalizing m with
  | nil => rfl
  | cons change rest ih =>
      rw [shown, List.map_cons, ih, List.map_cons]
      rfl

theorem get?_foldl_enter_eq_getLast? (nodes : List Node) (members : Members) (address : String) :
    (nodes.foldl enter members).get? address =
      (nodes.filter (fun node => node.address = address)).getLast?.or (members.get? address) := by
  induction nodes generalizing members with
  | nil => rfl
  | cons node rest ih =>
      rw [List.foldl_cons, ih, enter, Table.get?_insert]
      by_cases haddress : node.address = address
      · rw [if_pos haddress.symm, List.filter_cons_of_pos (by simpa using haddress),
          List.getLast?_cons]
        cases (rest.filter (fun other => other.address = address)).getLast? <;> rfl
      · rw [if_neg (Ne.symm haddress), List.filter_cons_of_neg (by simpa using haddress)]

/-- Of the nodes that share an address the last one listed is the member there. -/
theorem get?_byAddress (nodes : List Node) (address : String) :
    (byAddress nodes).get? address =
      (nodes.filter (fun node => node.address = address)).getLast? := by
  rw [byAddress_eq, get?_foldl_enter_eq_getLast?]
  exact Option.or_none

def lastAt (nodes : List Node) (service address : String) : Option Node :=
  (nodes.filter (fun node => node.service = service && node.address = address)).getLast?

theorem byService_bind_get? (nodes : List Node) (service address : String) :
    ((byService nodes).get? service).bind (fun members => members.get? address) =
      lastAt nodes service address := by
  rw [get?_byService, Members.present?_bind, get?_byAddress, List.filter_filter, lastAt]
  simp only [Bool.and_comm]

theorem isSome_get?_byService {nodes : List Node} {service : String} :
    ((byService nodes).get? service).isSome = true ↔ ∃ node ∈ nodes, node.service = service := by
  have hempty : (byAddress (nodes.filter (fun node => node.service = service))).isEmpty =
      (nodes.filter (fun node => node.service = service)).isEmpty := by
    rw [byAddress_eq, isEmpty_foldl_enter]
    rfl
  rw [get?_byService, Members.present?, hempty]
  cases hfilter : nodes.filter (fun node => node.service = service) with
  | nil =>
      have hnone := List.filter_eq_nil_iff.mp hfilter
      simp only [List.isEmpty_nil, if_true, Option.isSome_none, Bool.false_eq_true, false_iff]
      rintro ⟨node, hnode, hservice⟩
      exact hnone node hnode (decide_eq_true hservice)
  | cons node rest =>
      have hnode : node ∈ nodes.filter (fun node => node.service = service) :=
        hfilter ▸ List.mem_cons_self
      simp only [List.isEmpty_cons, Bool.false_eq_true, if_false, Option.isSome_some, true_iff]
      exact ⟨node, (List.mem_filter.mp hnode).1, of_decide_eq_true (List.mem_filter.mp hnode).2⟩

theorem isEmpty_of_get?_byService {nodes : List Node} {service : String} {members : Members}
    (h : (byService nodes).get? service = some members) : members.isEmpty = false := by
  rw [get?_byService, Members.present?] at h
  split at h
  · cases h
  · rename_i hnonempty
    obtain rfl := Option.some.inj h
    exact Bool.eq_false_iff.mpr hnonempty

/-- The addresses of a service are those at which it has a member. -/
theorem mem_addresses {m : Membership} {service address : String} :
    address ∈ m.addresses service ↔
      ((m.members? service).bind (fun members => members.get? address)).isSome = true := by
  rw [addresses]
  cases m.members? service with
  | none => exact ⟨nofun, nofun⟩
  | some members => exact Table.mem_keys

theorem addresses_of_present {m : Membership} {service : String} {members : Members}
    (h : m.members? service = members.present?) : m.addresses service = members.keys := by
  rw [addresses, h, Members.present?]
  cases hempty : members.isEmpty with
  | false => rfl
  | true =>
      rw [Table.isEmpty_iff.mp hempty]
      rfl

section

variable (m : Membership) (listing : Listing)

theorem map_fst_replacements :
    (m.replacements listing).map Prod.fst =
      m.serviceNames.filter (fun service => !(byService (nodesOf listing)).contains service) ++
        (byService (nodesOf listing)).keys := by
  rw [replacements, List.map_append, List.map_map]
  exact congrArg (· ++ _) (List.map_id _)

/-- A load replaces the services that were or are there, each once. -/
theorem mem_map_fst_replacements {service : String} :
    service ∈ (m.replacements listing).map Prod.fst ↔
      (m.members? service).isSome = true ∨
        ((byService (nodesOf listing)).get? service).isSome = true := by
  have hold : service ∈ m.serviceNames ↔ (m.members? service).isSome = true := Table.mem_keys
  rw [map_fst_replacements, List.mem_append, List.mem_filter, hold, Table.mem_keys, Table.contains]
  cases ((byService (nodesOf listing)).get? service).isSome <;> simp

theorem nodup_map_fst_replacements : ((m.replacements listing).map Prod.fst).Nodup := by
  rw [map_fst_replacements, List.nodup_append]
  refine ⟨(Table.nodup_keys m.services).filter _, Table.nodup_keys _, ?_⟩
  rintro name hname _ hkey rfl
  have hgone := (List.mem_filter.mp hname).2
  rw [Table.mem_keys.mp hkey] at hgone
  cases hgone

end

end Membership

namespace Cached

variable {σ : Type} {listener : Listener σ}

/-- The listener is called once for each replacement, in their order, and is shown the cache
as it then is. -/
theorem state_replaceAll (c : Cached σ) (changes : List (String × Members)) :
    (replaceAll listener c changes).state =
      (c.membership.shown changes).foldl (fun s call => listener call.1 call.2 s) c.state := by
  induction changes generalizing c with
  | nil => rfl
  | cons change rest ih => exact ih _

/-- Services with names of their own may be replaced in any order. -/
theorem membership_replaceAll_of_perm (c : Cached σ) {changes changes' : List (String × Members)}
    (hperm : changes.Perm changes') (hnodup : (changes'.map Prod.fst).Nodup) :
    (replaceAll listener c changes).membership = (replaceAll listener c changes').membership := by
  have hmembers (service : String) :
      (replaceAll listener c changes).membership.members? service =
        (replaceAll listener c changes').membership.members? service := by
    by_cases hservice : ∃ change ∈ changes', change.1 = service
    · obtain ⟨change, hchange, rfl⟩ := hservice
      have hfound {others : List (String × Members)} (hsame : others.Perm changes') :
          (replaceAll listener c others).membership.members? change.1 = change.2.present? := by
        refine members?_replaceAll ?_ (.inl ⟨change, hsame.mem_iff.mpr hchange, rfl⟩)
        intro other hother hname
        rw [List.inj_on_of_nodup_map hnodup (hsame.mem_iff.mp hother) hchange hname]
      rw [hfound hperm, hfound (.refl changes')]
    · have hkept {others : List (String × Members)} (hsame : others.Perm changes') :
          (replaceAll listener c others).membership.members? service =
            c.membership.members? service := by
        refine members?_replaceAll ?_ (.inr rfl)
        intro other hother hname
        exact absurd ⟨other, hsame.mem_iff.mp hother, hname⟩ hservice
      rw [hkept hperm, hkept (.refl changes')]
  exact congrArg Membership.mk (Table.ext_get? hmembers)

/-- The cache holds the listed nodes and nothing else, and the listener has been told once
of each service that was or is there: the addresses that it now has. -/
structure Reloaded (listener : Listener σ) (listing : Listing) (c c' : Cached σ) : Prop where
  services : ∀ service, (c'.membership.members? service).isSome = true ↔
    ∃ node ∈ nodesOf listing, node.service = service
  nodes : ∀ service address,
    (c'.membership.members? service).bind (fun members => members.get? address) =
      Membership.lastAt (nodesOf listing) service address
  nonempty : ∀ service members, c'.membership.members? service = some members →
    members.isEmpty = false
  addresses : ∀ service, (c'.membership.addresses service).Pairwise (· < ·) ∧
    ∀ address, address ∈ c'.membership.addresses service ↔
      ∃ node ∈ nodesOf listing, node.service = service ∧ node.address = address
  told : ∃ calls : List (Membership × Notice),
    c'.state = calls.foldl (fun s call => listener call.1 call.2 s) c.state ∧
    (calls.map (fun call => call.2.service)).Nodup ∧
    (∀ service, service ∈ calls.map (fun call => call.2.service) ↔
      (c.membership.members? service).isSome = true ∨
        (c'.membership.members? service).isSome = true) ∧
    ∀ call ∈ calls, call.2.addresses = c'.membership.addresses call.2.service

/-- The services that a full load replaces may come in any order: the cache ends the same,
and each service that was or is there is told once. -/
theorem reloaded_of_perm (c : Cached σ) (listing : Listing) {changes : List (String × Members)}
    (hperm : changes.Perm (c.membership.replacements listing)) :
    Reloaded listener listing c (replaceAll listener c changes) := by
  have hnodup := c.membership.nodup_map_fst_replacements listing
  have hmembers (service : String) :
      (replaceAll listener c changes).membership.members? service =
        (byService (nodesOf listing)).get? service := by
    rw [membership_replaceAll_of_perm c hperm hnodup, Membership.members?,
      replaceAll_replacements]
  have hnodes (service address : String) :
      ((replaceAll listener c changes).membership.members? service).bind
          (fun members => members.get? address) =
        Membership.lastAt (nodesOf listing) service address := by
    rw [hmembers, Membership.byService_bind_get?]
  constructor
  case services =>
    intro service
    rw [hmembers]
    exact Membership.isSome_get?_byService
  case nodes => exact hnodes
  case nonempty =>
    intro service members h
    rw [hmembers] at h
    exact Membership.isEmpty_of_get?_byService h
  case addresses =>
    refine fun service => ⟨?_, fun address => ?_⟩
    · rw [Membership.addresses]
      cases (replaceAll listener c changes).membership.members? service with
      | none => exact .nil
      | some members => exact members.ascending.map _ (fun _ _ h => h)
    · rw [Membership.mem_addresses, hnodes, Membership.lastAt, List.getLast?_isSome]
      simp only [ne_eq, List.filter_eq_nil_iff, Bool.and_eq_true, decide_eq_true_iff, not_forall,
        Classical.not_not, exists_prop]
  case told =>
    have hservices : (c.membership.shown changes).map (fun call => call.2.service) =
        changes.map Prod.fst := by
      have hnotices := congrArg (List.map Notice.service) (c.membership.map_notice_shown changes)
      simpa only [List.map_map, Function.comp_def] using hnotices
    refine ⟨c.membership.shown changes, state_replaceAll c changes, ?_, fun service => ?_, ?_⟩
    · rw [hservices]
      exact (hperm.map Prod.fst).nodup_iff.mpr hnodup
    · rw [hservices, (hperm.map Prod.fst).mem_iff, hmembers]
      exact c.membership.mem_map_fst_replacements listing
    · intro call hcall
      have hnotice : call.2 ∈ (c.membership.shown changes).map Prod.snd := List.mem_map_of_mem hcall
      rw [Membership.map_notice_shown] at hnotice
      obtain ⟨change, hchange, hcall⟩ := List.mem_map.mp hnotice
      rw [← hcall]
      refine (Membership.addresses_of_present ?_).symm
      refine members?_replaceAll (fun other hother hname => ?_) (.inl ⟨change, hchange, rfl⟩)
      rw [List.inj_on_of_nodup_map ((hperm.map Prod.fst).nodup_iff.mpr hnodup) hother hchange hname]

/-- A load of every service answers the version of its listing and leaves what is listed,
in whatever order the services are replaced; where the listing fails the cache is as it was
and the listener is not told. -/
theorem reload_exact (b : Backend σ) (listener : Listener σ) (c : Cached σ) :
    match (b.get ⟨Key.serviceRoot, true⟩).exec c.state with
    | (.error failure, state) => c.loadAll b listener = (.error failure, { c with state })
    | (.ok listing, state) =>
        ∃ c', c.loadAll b listener = (.ok listing.version, c') ∧
          Reloaded listener listing { c with state } c' ∧
          ∀ changes, changes.Perm (c.membership.replacements listing) →
            let c'' := replaceAll listener { c with state } changes
            c''.membership = c'.membership ∧ Reloaded listener listing { c with state } c'' := by
  rw [loadAll]
  rcases (b.get ⟨Key.serviceRoot, true⟩).exec c.state with ⟨failure | listing, state⟩
  · rfl
  · have hnodup := c.membership.nodup_map_fst_replacements listing
    refine ⟨_, rfl, reloaded_of_perm { c with state } listing (.refl _), fun changes hperm => ?_⟩
    exact ⟨membership_replaceAll_of_perm { c with state } hperm hnodup,
      reloaded_of_perm { c with state } listing hperm⟩

def sampleNode (service address : String) (id : Int) : Node :=
  .create service address id (.ofSeconds 1)

/-- Two keys hold nodes of one service at one address, one holds no node. -/
def sampleStore : Scripted :=
  (((Scripted.create.put "service/a/1" (sampleNode "a" "x" 1).encode).put "service/a/2" "").put
    "service/b/3" (sampleNode "a" "x" 2).encode).put "service/c/4" (sampleNode "c" "y" 1).encode

/-- The cache has a service that is stored no more; its listener has heard nothing yet. -/
def sampleCached : Cached (Scripted × List Notice) :=
  ⟨⟨(∅ : Table String Members).insert "old"
    ((∅ : Members).insert "z" (sampleNode "old" "z" 1))⟩, (sampleStore, [])⟩

def sampleBackend : Backend (Scripted × List Notice) :=
  Scripted.backend.focus Prod.fst (fun s t => (s, t.2))

def recordNotice : Listener (Scripted × List Notice) := fun _ notice t => (t.1, t.2 ++ [notice])

def sampleListing : Listing := ⟨[
  ⟨"service/a/1", (sampleNode "a" "x" 1).encode, 4⟩, ⟨"service/a/2", "", 4⟩,
  ⟨"service/b/3", (sampleNode "a" "x" 2).encode, 4⟩,
  ⟨"service/c/4", (sampleNode "c" "y" 1).encode, 4⟩], 4⟩

theorem decode_sampleNode (service address : String) {id : Int} (hlow : -0x8000000000000000 ≤ id)
    (hhigh : id < 0x8000000000000000) : Node.decode (sampleNode service address id).encode =
      .ok (sampleNode service address id) := by
  have hwritten : (sampleNode service address id).written = sampleNode service address id :=
    Node.written_eq_self_iff.mpr ⟨1000, by decide, rfl⟩
  rw [Node.decode_encode ⟨hlow, hhigh⟩, hwritten]

theorem nodesOf_cons (pair : Pair) (rest : List Pair) (version : Int) :
    nodesOf ⟨pair :: rest, version⟩ =
      (Node.decode pair.value).toOption.toList ++ nodesOf ⟨rest, version⟩ := by
  rw [nodesOf, List.filterMap_cons]
  cases (Node.decode pair.value).toOption <;> rfl

/-- The node at x that is listed last, and one of another service; the text that is no node
is passed over. -/
theorem nodesOf_sampleListing :
    nodesOf sampleListing = [sampleNode "a" "x" 1, sampleNode "a" "x" 2, sampleNode "c" "y" 1] := by
  have hnone : Node.decode "" = .error .malformed := rfl
  rw [sampleListing, nodesOf_cons, decode_sampleNode "a" "x" (by decide) (by decide), nodesOf_cons,
    hnone, nodesOf_cons, decode_sampleNode "a" "x" (by decide) (by decide), nodesOf_cons,
    decode_sampleNode "c" "y" (by decide) (by decide)]
  rfl

/-- The service that is stored no more is gone after a load in the reverse order too, and of
the two nodes at x the last is the member. -/
theorem reload_exact_vanished :
    let state := ((sampleStore.note (.get ⟨Key.serviceRoot, true⟩)).2, ([] : List Notice))
    let changes := (sampleCached.membership.replacements sampleListing).reverse
    ∃ c', sampleCached.loadAll sampleBackend recordNotice = (.ok 4, c') ∧
      c'.membership.members? "old" = none ∧
      (c'.membership.members? "a").bind (fun members => members.get? "x") =
        some (sampleNode "a" "x" 2) ∧
      (replaceAll recordNotice { sampleCached with state } changes).membership = c'.membership := by
  intro state changes
  have hget : (sampleBackend.get ⟨Key.serviceRoot, true⟩).exec sampleCached.state =
      (.ok sampleListing, state) := rfl
  have hexact := reload_exact sampleBackend recordNotice sampleCached
  rw [hget] at hexact
  obtain ⟨c', hload, hreloaded, horder⟩ := hexact
  refine ⟨c', hload, ?_, ?_, (horder changes (List.reverse_perm _)).1⟩
  · have hgone := hreloaded.services "old"
    rw [nodesOf_sampleListing] at hgone
    cases hmembers : c'.membership.members? "old" with
    | none => rfl
    | some members =>
        rw [hmembers] at hgone
        exact absurd (hgone.mp rfl) (by decide)
  · rw [hreloaded.nodes, nodesOf_sampleListing]
    rfl

end Cached

end Rollcall
