import Mathlib.Data.List.Basic

/-!
Lists in which the item at one place is replaced. The worlds of this library keep calls,
gets, registries and jobs by number: a step replaces one of them, and a new one comes at the
end. What then stands where is said here, for any items.
-/

namespace Rollcall

variable {α β : Type} {items : List α} {i j : Nat} {a b x : α}

/-- After `b` has been put at `j`, what stands at a place is `b` if that is the place, and
otherwise what stood there before. -/
theorem getElem?_set_cases (h : (items.set j b)[i]? = some x) :
    (i = j ∧ x = b) ∨ (i ≠ j ∧ items[i]? = some x) := by
  rw [List.getElem?_set] at h
  split at h
  · rename_i hij
    split at h
    · exact .inl ⟨hij.symm, (Option.some.inj h).symm⟩
    · cases h
  · rename_i hij
    exact .inr ⟨Ne.symm hij, h⟩

theorem getElem?_set_of_some (h : items[i]? = some x) (j : Nat) (b : α) :
    (i = j ∧ (items.set j b)[i]? = some b) ∨ (i ≠ j ∧ (items.set j b)[i]? = some x) := by
  by_cases hij : i = j
  · subst hij
    exact .inl ⟨rfl, List.getElem?_set_self (List.getElem?_eq_some_iff.mp h).1⟩
  · exact .inr ⟨hij, (List.getElem?_set_ne (Ne.symm hij)).trans h⟩

/-- To put back what stands in a place changes nothing. -/
theorem set_of_getElem? (h : items[i]? = some a) : items.set i a = items := by
  obtain ⟨hi, rfl⟩ := List.getElem?_eq_some_iff.mp h
  exact List.set_getElem_self hi

/-- Nor does it show to replace an item by one that looks the same through `f`. -/
theorem map_set_of_getElem? {f : α → β} (hfound : items[j]? = some a) (hsame : f b = f a) :
    (items.set j b).map f = items.map f := by
  rw [List.map_set, hsame]
  exact set_of_getElem? (by rw [List.getElem?_map, hfound, Option.map_some])

theorem getElem?_concat_cases (h : (items ++ [a])[i]? = some x) : x = a ∨ items[i]? = some x := by
  rw [List.getElem?_append] at h
  split at h
  · exact .inr h
  · exact .inl (List.mem_singleton.mp (List.mem_of_getElem? h))

theorem getElem?_concat_of_some (h : items[i]? = some x) (a : α) :
    (items ++ [a])[i]? = some x := by
  rw [List.getElem?_append_left (List.getElem?_eq_some_iff.mp h).1, h]

end Rollcall
