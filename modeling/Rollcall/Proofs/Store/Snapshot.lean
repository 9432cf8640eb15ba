import Rollcall.Proofs.Membership.Grouping
import Rollcall.Proofs.Store.Replay

/-!
What is listed and grouped of some contents. A listing and the members that loads
make of it depend on keys, values and versions alone, so they can be told of the
contents after some changes, whatever keeps them. Changes of keys without a prefix
leave what is listed under it. Main statements: `sound_after`, `get?_byService` and
`nodesUnder_after`.
-/

namespace Rollcall

open Rollcall.Membership (byAddress byService nodesOf)

/-- A value that is written under the service root either is no node or is written at
the key of the node that it is. -/
def Change.Placed (c : Change) : Prop :=
  c.kind = .update → Key.startsWith Key.serviceRoot c.pair.key = true →
    ∀ node, Node.decode c.pair.value = .ok node →
      Key.IsServiceName node.service ∧ c.pair.key = Key.service node.service node.address

namespace Contents

def scan (t : Contents) (scope : Scope) : List Pair :=
  (t.filter (fun key _ => scope.covers key)).rows.map (fun row => ⟨row.1, row.2.1, row.2.2⟩)

def nodesUnder (t : Contents) (root : String) : List Node := nodesOf ⟨t.scan ⟨root, true⟩, 0⟩

def membersOf (t : Contents) (service : String) : Option Members :=
  (byAddress (t.nodesUnder (Key.servicePrefix service))).present?

/-- Every value under the service root either is no node or stands at the key of
the node that it is. -/
def Sound (t : Contents) : Prop :=
  ∀ key value version node, t.get? key = some (value, version) →
    Key.startsWith Key.serviceRoot key = true → Node.decode value = .ok node →
    Key.IsServiceName node.service ∧ key = Key.service node.service node.address

/-- A store that has these contents. -/
def toStore (t : Contents) : Store :=
  ⟨0, 0, 1, t.mapValues (fun _ entry => ⟨entry.1, entry.2, none⟩), [], .none⟩

theorem scan_contents (s : Store) (root : String) :
    s.contents.scan ⟨root, true⟩ = s.scan ⟨root, true⟩ :=
  (s.scan_eq_visible root).symm

/-- The nodes that a listing shows are those under its prefix, in whatever way the rows came
about. -/
theorem nodesOf_snapshot {listing : Listing} {t : Contents} {root : String}
    (h : listing.pairs = t.scan ⟨root, true⟩) : nodesOf listing = t.nodesUnder root := by
  rw [nodesOf, h]
  rfl

/-- Every contents are those of some store, so what is proved of stores can be used for
them. -/
theorem contents_toStore (t : Contents) : t.toStore.contents = t := by
  apply Table.ext_get?
  intro key
  rw [Store.get?_contents, toStore, Table.get?_mapValues, Option.map_map]
  exact Option.map_id'

/-- Which nodes stand under a prefix is settled by the contents, without deadlines and
channels. -/
theorem nodesUnder_contents (s : Store) (root : String) :
    s.contents.nodesUnder root = s.nodesUnder root := by
  rw [nodesUnder, scan_contents, Store.nodesOf_scan]

theorem membersOf_contents (s : Store) (service : String) :
    s.contents.membersOf service = s.membersOf service := by
  rw [membersOf, nodesUnder_contents, Store.membersOf]

/-- A change that is placed keeps the contents sound; a deletion always does. -/
theorem Sound.enter {t : Contents} (h : t.Sound) {c : Change} (hc : c.Placed) :
    (t.enter c).Sound := by
  intro key value version node hfound hroot hdecode
  unfold Contents.enter at hfound
  cases hkind : c.kind with
  | update =>
      simp only [hkind, Table.get?_insert] at hfound
      by_cases hkey : key = c.pair.key
      · rw [if_pos hkey] at hfound
        obtain ⟨rfl, -⟩ := Prod.mk.inj (Option.some.inj hfound)
        rw [hkey] at hroot ⊢
        exact hc hkind hroot node hdecode
      · rw [if_neg hkey] at hfound
        exact h key value version node hfound hroot hdecode
  | delete =>
      simp only [hkind, Table.get?_erase] at hfound
      by_cases hkey : key = c.pair.key
      · rw [if_pos hkey] at hfound
        cases hfound
      · rw [if_neg hkey] at hfound
        exact h key value version node hfound hroot hdecode

theorem sound_after {cs : List Change} (h : ∀ c ∈ cs, c.Placed) :
    ((∅ : Contents).after cs).Sound := by
  have hrun (t : Contents) (ht : t.Sound) : (t.after cs).Sound := by
    induction cs generalizing t with
    | nil => exact ht
    | cons c rest ih =>
        exact ih (fun d hd => h d (List.mem_cons_of_mem _ hd)) (t.enter c)
          (ht.enter (h c List.mem_cons_self))
  exact hrun ∅ nofun

theorem sound_toStore {t : Contents} (h : t.Sound) : t.toStore.Sound := by
  intro key e node hentry hroot hdecode
  have hfound : t.get? key = some (e.value, e.version) := by
    rw [← contents_toStore t, Store.get?_contents, hentry, Option.map_some]
  exact h key e.value e.version node hfound hroot hdecode

/-- Grouping the full listing gives every service its own members. -/
theorem get?_byService {t : Contents} (h : t.Sound) {service : String}
    (hservice : Key.IsServiceName service) :
    (byService (t.nodesUnder Key.serviceRoot)).get? service = t.membersOf service := by
  have hgrouped := (sound_toStore h).get?_byService hservice
  rwa [← nodesUnder_contents, ← membersOf_contents, contents_toStore] at hgrouped

theorem get?_byService_of_not {t : Contents} (h : t.Sound) {service : String}
    (hservice : ¬ Key.IsServiceName service) :
    (byService (t.nodesUnder Key.serviceRoot)).get? service = none := by
  have hgrouped := (sound_toStore h).get?_byService_of_not hservice
  rwa [← nodesUnder_contents, contents_toStore] at hgrouped

theorem scan_enter {t : Contents} {c : Change} {root : String}
    (h : Key.startsWith root c.pair.key = false) :
    (t.enter c).scan ⟨root, true⟩ = t.scan ⟨root, true⟩ := by
  have hfilter : (t.enter c).filter (fun key _ => Key.startsWith root key) =
      t.filter (fun key _ => Key.startsWith root key) := by
    unfold enter
    cases c.kind with
    | update => exact Table.filter_key_insert_of_not t h _
    | delete => exact Table.filter_key_erase_of_not t h
  exact congrArg (List.map _) (congrArg Table.rows hfilter)

/-- Changes list something else under a prefix only if one of them is of such a key. -/
theorem nodesUnder_after (t : Contents) (cs : List Change) (root : String) :
    (t.after cs).nodesUnder root = t.nodesUnder root ∨
      ∃ c ∈ cs, Key.startsWith root c.pair.key = true := by
  induction cs generalizing t with
  | nil => exact .inl rfl
  | cons c rest ih =>
      cases hkey : Key.startsWith root c.pair.key with
      | true => exact .inr ⟨c, List.mem_cons_self, hkey⟩
      | false =>
          rcases ih (t.enter c) with hsame | ⟨d, hd, hroot⟩
          · left
            rw [after_cons, hsame, nodesUnder, nodesUnder, scan_enter hkey]
          · exact .inr ⟨d, List.mem_cons_of_mem _ hd, hroot⟩

end Contents

end Rollcall
