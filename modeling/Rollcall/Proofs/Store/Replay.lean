import Rollcall.Proofs.Store.Listing

/-!
What the published changes say about the entries. The contents of a store are its
keys with their values and versions, all that a query can see. An update publishes
one change if it changes the contents and none otherwise, and that change, entered
into the contents before, gives the contents after. So the changes of a run lead
from the contents at its start to those at its end. Main statements:
`contents_applyAll` and `Bounded.alters_applyAll`.
-/

namespace Rollcall

abbrev Contents := Table String (String × Int)

namespace Contents

def enter (t : Contents) (c : Change) : Contents :=
  match c.kind with
  | .update => t.insert c.pair.key (c.pair.value, c.pair.version)
  | .delete => t.erase c.pair.key

/-- The contents after some changes, entered in their order. -/
def after (t : Contents) (cs : List Change) : Contents := cs.foldl enter t

@[simp] theorem after_nil (t : Contents) : t.after [] = t := rfl

@[simp] theorem after_cons (t : Contents) (c : Change) (cs : List Change) :
    t.after (c :: cs) = (t.enter c).after cs := rfl

theorem after_append (t : Contents) (cs ds : List Change) :
    t.after (cs ++ ds) = (t.after cs).after ds :=
  List.foldl_append

/-- Each change, entered in its turn, makes a difference. -/
def Alters : Contents → List Change → Prop
  | _, [] => True
  | t, c :: rest => t.enter c ≠ t ∧ (t.enter c).Alters rest

end Contents

namespace Store

variable {s : Store}

def contents (s : Store) : Contents := s.visible

theorem contents_eq (s : Store) :
    s.contents = s.entries.mapValues (fun _ e => (e.value, e.version)) := rfl

theorem get?_contents (s : Store) (key : String) :
    s.contents.get? key = (s.entries.get? key).map (fun e => (e.value, e.version)) :=
  Table.get?_mapValues _ _ _

theorem contents_put (s : Store) (key value : String) (deadline : Option Instant) :
    (s.put key value deadline).contents = s.contents.insert key (value, s.revision + 1) := by
  rw [contents_eq, contents_eq]
  exact Table.mapValues_insert _ _ _ _

/-- A deadline is no part of the contents, so moving one leaves them. -/
theorem contents_extend (s : Store) (key : String) (deadline : Option Instant) :
    (s.extend key deadline).contents = s.contents := by
  unfold extend
  cases hentry : s.entries.get? key with
  | none => rfl
  | some e =>
      rw [contents_eq, contents_eq]
      exact Table.mapValues_insert_of_eq _ _ hentry rfl

/-- The contents follow what an update publishes: to enter the published changes is to apply
the update, as far as keys, values and versions are concerned. -/
theorem contents_apply (s : Store) (u : Update) :
    (s.apply u).contents = s.contents.after (changesOf (s.announced u)) := by
  cases u with
  | put key value deadline => exact contents_put s key value deadline
  | remove key =>
      cases hentry : s.entries.get? key with
      | none => simp only [apply, remove, announced, hentry, changesOf_nil, Contents.after_nil]
      | some e =>
          simp only [apply, remove, announced, hentry]
          rw [contents_eq, contents_eq]
          exact Table.mapValues_erase _ _ _
  | extend key deadline => exact contents_extend s key deadline
  | compact revision => rfl
  | refreshAll => rfl
  | watch scope version => rfl
  | receive id => rfl
  | drain id => rfl
  | dropWatch id => rfl
  | closeAll => rfl

/-- The contents after any updates are those before them with the announced changes entered
in their order. Whoever enters the changes has the contents, without the store. -/
theorem contents_applyAll (s : Store) (us : List Update) :
    (s.applyAll us).contents = s.contents.after (changesOf (s.announcedAll us)) := by
  induction us generalizing s with
  | nil => rfl
  | cons u rest ih =>
      rw [applyAll_cons, announcedAll, changesOf_append, Contents.after_append, ih, contents_apply]

def Bounded (s : Store) : Prop :=
  ∀ key e, s.entries.get? key = some e → e.version ≤ s.revision

namespace Bounded

theorem create (limit : Nat) : (Store.create limit).Bounded := nofun

/-- An update gives at most the version after the revision, and raises the revision to it. -/
theorem apply (h : s.Bounded) (u : Update) : (s.apply u).Bounded := by
  cases u with
  | put key value deadline =>
      intro k e hentry
      simp only [Store.apply, put, publish, Table.get?_insert] at hentry ⊢
      split at hentry
      · obtain rfl := Option.some.inj hentry
        exact Int.le_refl _
      · have hold := h k e hentry
        omega
  | remove key =>
      simp only [Store.apply, remove]
      cases s.entries.get? key with
      | none => exact h
      | some removed =>
          intro k e hentry
          simp only [publish, Table.get?_erase] at hentry ⊢
          split at hentry
          · cases hentry
          · have hold := h k e hentry
            omega
  | extend key deadline =>
      simp only [Store.apply, extend]
      cases hextended : s.entries.get? key with
      | none => exact h
      | some extended =>
          intro k e hentry
          simp only [Table.get?_insert] at hentry
          split at hentry
          · obtain rfl := Option.some.inj hentry
            exact h key extended hextended
          · exact h k e hentry
  | compact revision => exact h
  | refreshAll => exact h
  | watch scope version => exact h
  | receive id => exact h
  | drain id => exact h
  | dropWatch id => exact h
  | closeAll => exact h

theorem applyAll (h : s.Bounded) (us : List Update) : (s.applyAll us).Bounded := by
  induction us generalizing s with
  | nil => exact h
  | cons u rest ih => exact ih (h.apply u)

/-- What an update publishes is a difference: a new version, or a key that is gone. -/
theorem alters_apply (h : s.Bounded) (u : Update) :
    changesOf (s.announced u) = [] ∨
      ∃ c, changesOf (s.announced u) = [c] ∧ s.contents.enter c ≠ s.contents := by
  cases u with
  | put key value deadline =>
      refine .inr ⟨_, rfl, fun hsame => ?_⟩
      have hfound := congrArg (fun t => Table.get? t key) hsame
      simp only [Contents.enter, Table.get?_insert, if_true, get?_contents] at hfound
      obtain ⟨e, hentry, hpair⟩ := Option.map_eq_some_iff.mp hfound.symm
      have hold := h key e hentry
      have hnew : e.version = s.revision + 1 := congrArg Prod.snd hpair
      omega
  | remove key =>
      simp only [announced]
      cases hentry : s.entries.get? key with
      | none => exact .inl rfl
      | some e =>
          refine .inr ⟨_, rfl, fun hsame => ?_⟩
          have hfound := congrArg (fun t => Table.get? t key) hsame
          simp only [Contents.enter, Table.get?_erase, if_true, get?_contents, hentry,
            Option.map_some] at hfound
          cases hfound
  | extend key deadline => exact .inl rfl
  | compact revision => exact .inl rfl
  | refreshAll => exact .inl rfl
  | watch scope version => exact .inl rfl
  | receive id => exact .inl rfl
  | drain id => exact .inl rfl
  | dropWatch id => exact .inl rfl
  | closeAll => exact .inl rfl

/-- No announced change repeats what already stands there: a version is always a new one,
and a deletion is only announced of a key that was there. -/
theorem alters_applyAll (h : s.Bounded) (us : List Update) :
    s.contents.Alters (changesOf (s.announcedAll us)) := by
  induction us generalizing s with
  | nil => trivial
  | cons u rest ih =>
      have hrest := ih (h.apply u)
      rw [contents_apply] at hrest
      rw [announcedAll, changesOf_append]
      rcases h.alters_apply u with hquiet | ⟨c, hone, halters⟩
      · rw [hquiet] at hrest ⊢
        exact hrest
      · rw [hone] at hrest ⊢
        exact ⟨halters, hrest⟩

end Bounded

end Store

end Rollcall
