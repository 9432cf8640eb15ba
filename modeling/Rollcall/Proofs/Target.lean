import Rollcall.Resolver

/-!
Selectors and targets read back. A component has no dot in it, so the first dot of
a written selector is the one that was written between the component and its
sub-service, however many the sub-service has. So what a target resolves to depends
on the members of its component alone. Main statements: `ofString_toString`, `splits_iff`,
`ofString_of_parse` and `resolve_replace_of_ne`.
-/

namespace Rollcall

section SplitFirst

variable {c : Char} {cs front rest : List Char}

theorem splitFirst_eq_none (h : splitFirst c cs = none) : c ∉ cs := by
  induction cs with
  | nil => exact List.not_mem_nil
  | cons d tail ih =>
      rw [splitFirst] at h
      split at h
      · cases h
      · rename_i hne
        have htail := ih (Option.map_eq_none_iff.mp h)
        intro hmem
        rcases List.mem_cons.mp hmem with rfl | hlater
        · exact hne rfl
        · exact htail hlater

/-- The front has no separator in it, so the split is at the first one. -/
theorem splitFirst_eq_some (h : splitFirst c cs = some (front, rest)) :
    cs = front ++ c :: rest ∧ c ∉ front := by
  induction cs generalizing front with
  | nil => cases h
  | cons d tail ih =>
      rw [splitFirst] at h
      split at h
      · rename_i heq
        obtain ⟨rfl, rfl⟩ := Prod.mk.inj (Option.some.inj h)
        exact ⟨congrArg (· :: tail) heq, List.not_mem_nil⟩
      · rename_i hne
        obtain ⟨⟨before, after⟩, hsplit, hparts⟩ := Option.map_eq_some_iff.mp h
        obtain ⟨rfl, rfl⟩ := Prod.mk.inj hparts
        obtain ⟨htail, hfree⟩ := ih hsplit
        refine ⟨congrArg (d :: ·) htail, fun hmem => ?_⟩
        rcases List.mem_cons.mp hmem with rfl | hlater
        · exact hne rfl
        · exact hfree hlater

theorem splitFirst_of_not_mem (h : c ∉ cs) : splitFirst c cs = none := by
  cases hsplit : splitFirst c cs with
  | none => rfl
  | some parts =>
      obtain ⟨rfl, -⟩ := splitFirst_eq_some hsplit
      exact absurd (List.mem_append_right _ List.mem_cons_self) h

/-- A text that is put together around a separator, with none in its front, is split there. -/
theorem splitFirst_append (h : c ∉ front) (rest : List Char) :
    splitFirst c (front ++ c :: rest) = some (front, rest) := by
  induction front with
  | nil => rw [List.nil_append, splitFirst, if_pos rfl]
  | cons d tail ih =>
      have hne : d ≠ c := fun heq => h (heq ▸ List.mem_cons_self)
      rw [List.cons_append, splitFirst, if_neg hne,
        ih (fun hmem => h (List.mem_cons_of_mem _ hmem))]
      rfl

end SplitFirst

namespace Selector

/-- The component of a selector that was read has no dot, and its sub-service is not
empty. -/
structure IsRead (s : Selector) : Prop where
  component : '.' ∉ s.component.toList
  subService : s.subService ≠ some ""

/-- Whatever is read, its component has no dot and no sub-service is empty. -/
theorem isRead_ofChars (cs : List Char) : (ofChars cs).IsRead := by
  unfold ofChars
  split
  · rename_i hsplit
    refine ⟨?_, nofun⟩
    rw [String.toList_ofList]
    exact splitFirst_eq_none hsplit
  · rename_i component hsplit
    refine ⟨?_, nofun⟩
    rw [String.toList_ofList]
    exact (splitFirst_eq_some hsplit).2
  · rename_i component sub hnonempty hsplit
    refine ⟨?_, fun hsub => hnonempty ?_⟩
    · rw [String.toList_ofList]
      exact (splitFirst_eq_some hsplit).2
    · have hchars := congrArg String.toList (Option.some.inj hsub)
      rwa [String.toList_ofList] at hchars

theorem toList_dotted (component sub : String) :
    (component ++ "." ++ sub).toList = component.toList ++ '.' :: sub.toList := by
  rw [String.toList_append, String.toList_append, List.append_assoc]
  rfl

/-- What is read can be written and read again: the first dot of the written selector is the
one between component and sub-service. -/
theorem ofString_toString {s : Selector} (h : s.IsRead) : ofString s.toString = s := by
  obtain ⟨component, subService⟩ := s
  cases subService with
  | none =>
      rw [ofString, toString, ofChars, splitFirst_of_not_mem h.component]
      simp only [String.ofList_toList]
  | some sub =>
      have hsub : sub.toList ≠ [] := by
        intro hempty
        rw [String.toList_eq_nil_iff] at hempty
        exact h.subService (congrArg some hempty)
      rw [ofString, toString, toList_dotted, ofChars, splitFirst_append h.component]
      obtain ⟨c, rest, hcons⟩ := List.exists_cons_of_ne_nil hsub
      rw [hcons]
      simp only [← hcons, String.ofList_toList]

/-- A selector names its component up to the first dot, and what follows the dot, if
anything, is the sub-service. -/
inductive Splits : String → Selector → Prop
  | whole {component : String} : '.' ∉ component.toList → Splits component ⟨component, none⟩
  | trailing {component : String} : '.' ∉ component.toList →
      Splits (component ++ ".") ⟨component, none⟩
  | sub {component sub : String} : '.' ∉ component.toList → sub ≠ "" →
      Splits (component ++ "." ++ sub) ⟨component, some sub⟩

theorem splits_ofString (text : String) : Splits text (ofString text) := by
  unfold ofString ofChars
  split
  · rename_i hsplit
    rw [String.ofList_toList]
    exact .whole (splitFirst_eq_none hsplit)
  · rename_i component hsplit
    obtain ⟨htext, hcomponent⟩ := splitFirst_eq_some hsplit
    have hdot : text = String.ofList component ++ "." := by
      rw [← String.toList_inj, htext, String.toList_append, String.toList_ofList]
      rfl
    rw [hdot]
    exact .trailing (by rwa [String.toList_ofList])
  · rename_i component sub hnonempty hsplit
    obtain ⟨htext, hcomponent⟩ := splitFirst_eq_some hsplit
    have hdot : text = String.ofList component ++ "." ++ String.ofList sub := by
      rw [← String.toList_inj, htext, toList_dotted, String.toList_ofList, String.toList_ofList]
    have hsub : String.ofList sub ≠ "" := by
      intro hempty
      have hchars := congrArg String.toList hempty
      rw [String.toList_ofList] at hchars
      exact hnonempty hchars
    rw [hdot]
    exact .sub (by rwa [String.toList_ofList]) hsub

/-- A text that is put together around a first dot is split into just these parts. -/
theorem ofString_of_splits {text : String} {s : Selector} (h : Splits text s) :
    ofString text = s := by
  cases h with
  | whole hdot =>
      have hread : IsRead ⟨text, none⟩ := ⟨hdot, nofun⟩
      have hback := ofString_toString hread
      rwa [toString] at hback
  | trailing hdot =>
      rename_i component
      have hchars : (component ++ ".").toList = component.toList ++ '.' :: [] := by
        rw [String.toList_append]
        rfl
      rw [ofString, hchars, ofChars, splitFirst_append hdot]
      simp only [String.ofList_toList]
  | sub hdot hsub =>
      rename_i component sub
      have hread : IsRead ⟨component, some sub⟩ :=
        ⟨hdot, fun hempty => hsub (Option.some.inj hempty)⟩
      have hback := ofString_toString hread
      rwa [toString] at hback

theorem Splits.mem_of_component {text : String} {s : Selector} {c : Char} (h : Splits text s)
    (hc : c ∈ s.component.toList) : c ∈ text.toList := by
  cases h with
  | whole => exact hc
  | trailing => exact String.toList_append ▸ List.mem_append_left _ hc
  | sub => exact toList_dotted _ _ ▸ List.mem_append_left _ hc

/-- To read a selector is to split it by this grammar, and each text has one selector. -/
theorem splits_iff {text : String} {s : Selector} : Splits text s ↔ s = ofString text :=
  ⟨fun h => (ofString_of_splits h).symm, fun h => h ▸ splits_ofString text⟩

end Selector

namespace Membership

/-- A replacement does not change what is selected of another component. -/
theorem select_replace_of_ne {m : Membership} {service : String} {members : Members}
    {selector : Selector} (hne : selector.component ≠ service) :
    (m.replace service members).1.select selector = m.select selector := by
  have hmembers : (m.replace service members).1.members? selector.component =
      m.members? selector.component := by
    simp only [replace, members?]
    split
    · rw [Table.get?_erase, if_neg hne]
    · rw [Table.get?_insert, if_neg hne]
  simp only [select, hmembers]

end Membership

namespace Target

/-- The selector of a parsed target names the parts that were parsed. -/
theorem ofString_of_parse {text scheme : String} {t : Target} (h : parse text scheme = .ok t) :
    .ofString t.selector.toString = t.selector := by
  rcases hwritten : splitScheme scheme text with ⟨found, rest⟩
  simp only [parse, hwritten] at h
  split at h
  · cases h
  · split at h
    · cases h
    · obtain rfl := Except.ok.inj h
      exact Selector.ofString_toString (Selector.isRead_ofChars rest)

/-- A parsed target resolves as before when another component is replaced. -/
theorem resolve_replace_of_ne {text scheme service : String} {t : Target}
    (h : parse text scheme = .ok t) (hne : t.selector.component ≠ service) (m : Membership)
    (members : Members) : t.resolve (m.replace service members).1 = t.resolve m := by
  rw [resolve, resolve, addresses, addresses, ofString_of_parse h,
    Membership.select_replace_of_ne hne]

end Target

end Rollcall
