import Rollcall.Proofs.Memory.Renewals
import Rollcall.Proofs.Store.Listing

/-!
Entries that lapse. An expiry takes what is overdue and leaves the rest, so it does not
change what is live: a value with its deadline, as long as that lies ahead. What a
listing shows after an expiry is what is live. Main statements: `get?_expire`,
`live?_expire` and `listed_eq_of_live`.
-/

namespace Rollcall

def Entry.live? (now : Instant) (e : Entry) : Option (String × Option Instant) :=
  if e.isOverdue now then none else some (e.value, e.deadline)

theorem Entry.isOverdue_of_le {e : Entry} {now later : Instant} (h : e.isOverdue now = true)
    (hle : now ≤ later) : e.isOverdue later = true := by
  unfold isOverdue at h ⊢
  cases hdeadline : e.deadline with
  | none => simp [hdeadline] at h
  | some d =>
      simp only [hdeadline, decide_eq_true_eq] at h ⊢
      exact Nat.le_trans h hle

/-- What is live later is live now, and of that the deadline alone tells. -/
theorem Entry.live?_later {now later : Instant} (hle : now ≤ later) (e : Entry) :
    e.live? later = (e.live? now).bind (fun p => Entry.live? later ⟨p.1, 0, p.2⟩) := by
  unfold live?
  cases hnow : e.isOverdue now with
  | true => simp [isOverdue_of_le hnow hle]
  | false =>
      simp only [Bool.false_eq_true, if_false, Option.bind_some]
      rfl

namespace Store

variable {s t : Store} {now later : Instant} {key : String}

/-- The value of a key that is not overdue, and its deadline. -/
def live? (s : Store) (now : Instant) (key : String) : Option (String × Option Instant) :=
  (s.entries.get? key).bind (Entry.live? now)

theorem get?_remove (s : Store) (key other : String) :
    (s.remove key).entries.get? other = if other = key then none else s.entries.get? other := by
  unfold remove
  cases hentry : s.entries.get? key with
  | none =>
      by_cases hother : other = key
      · rw [if_pos hother, hother, hentry]
      · rw [if_neg hother]
  | some e => exact Table.get?_erase _ _ _

theorem get?_put (s : Store) (key value other : String) (deadline : Option Instant) :
    (s.put key value deadline).entries.get? other =
      if other = key then some ⟨value, s.revision + 1, deadline⟩ else s.entries.get? other :=
  Table.get?_insert _ _ _ _

/-- An expiry removes its keys one after the other; in the end exactly these are gone and
the other entries are untouched. -/
theorem get?_foldl_remove (keys : List String) (s : Store) (key : String) :
    (keys.foldl remove s).entries.get? key = if key ∈ keys then none else s.entries.get? key := by
  induction keys generalizing s with
  | nil => rfl
  | cons first rest ih =>
      rw [List.foldl_cons, ih, get?_remove]
      by_cases hfirst : key = first <;> by_cases hrest : key ∈ rest <;> simp [hfirst, hrest]

/-- An expiry is a filter of the entries: it takes what is overdue and leaves the rest as it
stands. -/
theorem get?_expire (s : Store) (now : Instant) (key : String) :
    (s.expire now).entries.get? key =
      (s.entries.get? key).filter (fun e => !e.isOverdue now) := by
  rw [expire, get?_foldl_remove]
  cases hentry : s.entries.get? key with
  | none => exact ite_self _
  | some e =>
      by_cases hoverdue : key ∈ s.overdue now
      · obtain ⟨e', he', hlate⟩ := mem_overdue.mp hoverdue
        obtain rfl := Option.some.inj (hentry.symm.trans he')
        simp [hoverdue, Option.filter, hlate]
      · have hlate : e.isOverdue now = false :=
          Bool.eq_false_iff.mpr (fun h => hoverdue (mem_overdue.mpr ⟨e, hentry, h⟩))
        simp [hoverdue, Option.filter, hlate]

/-- Two stores of which the same is live now agree for good, as long as nobody changes them:
what is live later depends on the value and the deadline alone. -/
theorem live?_later (h : s.live? now key = t.live? now key) (hle : now ≤ later) :
    s.live? later key = t.live? later key := by
  have hbind (r : Store) : r.live? later key =
      (r.live? now key).bind (fun p => Entry.live? later ⟨p.1, 0, p.2⟩) := by
    unfold live?
    cases r.entries.get? key with
    | none => rfl
    | some e => exact Entry.live?_later hle e
  rw [hbind s, hbind t, h]

/-- An expiry cannot be seen in what is live, since it takes only what is no longer live at
that instant. -/
theorem live?_expire (s : Store) (now : Instant) (key : String) :
    (s.expire now).live? now key = s.live? now key := by
  unfold live?
  rw [get?_expire]
  cases s.entries.get? key with
  | none => rfl
  | some e => cases hlate : e.isOverdue now <;> simp [Option.filter, Entry.live?, hlate]

theorem live?_remove (s : Store) (now : Instant) (key other : String) :
    (s.remove key).live? now other = if other = key then none else s.live? now other := by
  unfold live?
  rw [get?_remove]
  split <;> rfl

/-- What is live of a key that is written is its value, if the new deadline lies ahead; what
stood there before does not matter. -/
theorem live?_put (s : Store) (now : Instant) (key value other : String)
    (deadline : Option Instant) : (s.put key value deadline).live? now other =
      if other = key then Entry.live? now ⟨value, 0, deadline⟩ else s.live? now other := by
  unfold live?
  rw [get?_put]
  split <;> rfl

/-- A renewal leaves its value with the new deadline, whether it found it or not. -/
theorem live?_renew (s : Store) (now : Instant) (key value other : String)
    (deadline : Option Instant) : (s.renew key value deadline).live? now other =
      if other = key then Entry.live? now ⟨value, 0, deadline⟩ else s.live? now other := by
  unfold renew
  cases hentry : s.entries.get? key with
  | none => exact live?_put s now key value other deadline
  | some e =>
      by_cases hvalue : e.value = value
      · subst hvalue
        simp only [if_true, live?, Table.get?_insert]
        split <;> rfl
      · simp only [hvalue, if_false]
        exact live?_put s now key value other deadline

/-- The entries of a listing without their versions. -/
def listed (s : Store) (now : Instant) (scope : Scope) : List (String × String) :=
  ((s.expire now).scan scope).map (fun p => (p.key, p.value))

/-- A listing, after the expiry that a query does first, read off the entries: the rows of a
prefix in their order, or the one key if it is live. -/
theorem listed_eq (s : Store) (now : Instant) (scope : Scope) :
    s.listed now scope =
      if scope.wholePrefix then
        (((s.expire now).entries.mapValues (fun _ e => e.value)).filter
          (fun key _ => Key.startsWith scope.key key)).rows
      else ((s.live? now scope.key).map (fun p => (scope.key, p.1))).toList := by
  obtain ⟨root, wholePrefix⟩ := scope
  cases wholePrefix with
  | true =>
      rw [listed, scan_eq_filter]
      simp only [if_true, Table.mapValues, Table.filter, List.filter_map, List.map_map]
      rfl
  | false =>
      simp only [listed, scan, Bool.false_eq_true, if_false, live?, get?_expire]
      cases s.entries.get? root with
      | none => rfl
      | some e => cases hlate : e.isOverdue now <;> simp [Option.filter, Entry.live?, hlate, toPair]

/-- What is live settles what an expiry leaves to be listed. Two stores that differ in the
dead alone list the same, versions aside. -/
theorem listed_eq_of_live (h : ∀ key, s.live? now key = t.live? now key) (scope : Scope) :
    s.listed now scope = t.listed now scope := by
  have hvalue (r : Store) (key : String) :
      ((r.expire now).entries.mapValues (fun _ e => e.value)).get? key =
        (r.live? now key).map Prod.fst := by
    rw [Table.get?_mapValues, get?_expire, live?]
    cases r.entries.get? key with
    | none => rfl
    | some e => cases hlate : e.isOverdue now <;> simp [Option.filter, Entry.live?, hlate]
  have htables : (s.expire now).entries.mapValues (fun _ e => e.value) =
      (t.expire now).entries.mapValues (fun _ e => e.value) :=
    Table.ext_get? (fun key => by rw [hvalue, hvalue, h])
  rw [listed_eq, listed_eq, htables, h]

end Store

end Rollcall
