import Mathlib.Data.List.TakeWhile
import Rollcall.Text.Blank

/-!
Trimmed texts and comma-separated lists. A text is its trimmed part with blanks around
it, and it lists what stands between its commas with the blanks around that taken off.
So texts that are joined by commas list what they list one after the other, trimmed
before or not. Main statements: `mem_commaList` and `commaList_intercalate`.
-/

namespace Rollcall.Text

section Trimming

def Blanks (cs : List Char) : Prop := ∀ c ∈ cs, isBlank c = true

/-- Neither end is a blank. -/
structure IsTrimmed (cs : List Char) : Prop where
  head : ∀ c ∈ cs.head?, isBlank c = false
  last : ∀ c ∈ cs.getLast?, isBlank c = false

variable {cs front back : List Char}

theorem Blanks.reverse (h : Blanks cs) : Blanks cs.reverse :=
  fun c hc => h c (List.mem_reverse.mp hc)

theorem trimChars_append_left (h : Blanks front) (cs : List Char) :
    trimChars (front ++ cs) = trimChars cs := by
  rw [trimChars, List.dropWhile_append_of_pos h, trimChars]

theorem trimChars_append_right (cs : List Char) (h : Blanks back) :
    trimChars (cs ++ back) = trimChars cs := by
  have hback : back.dropWhile isBlank = [] := List.dropWhile_eq_nil_iff.mpr h
  rw [trimChars, trimChars, List.dropWhile_append]
  split
  · rename_i hempty
    rw [hback, List.isEmpty_iff.mp hempty]
  · rw [List.reverse_append, List.dropWhile_append_of_pos h.reverse]

theorem exists_blanks_trimChars (cs : List Char) :
    ∃ front back, Blanks front ∧ Blanks back ∧ cs = front ++ trimChars cs ++ back := by
  have hfront : cs = cs.takeWhile isBlank ++ cs.dropWhile isBlank :=
    List.takeWhile_append_dropWhile.symm
  have hback := List.takeWhile_append_dropWhile (p := isBlank) (l := (cs.dropWhile isBlank).reverse)
  have hrest := congrArg List.reverse hback
  rw [List.reverse_append, List.reverse_reverse] at hrest
  refine ⟨cs.takeWhile isBlank, ((cs.dropWhile isBlank).reverse.takeWhile isBlank).reverse,
    fun c hc => List.mem_takeWhile_imp hc,
    Blanks.reverse fun c hc => List.mem_takeWhile_imp hc, ?_⟩
  rw [trimChars, List.append_assoc, hrest]
  exact hfront

theorem head?_dropWhile_isBlank {c : Char} (h : c ∈ (cs.dropWhile isBlank).head?) :
    isBlank c = false := by
  have hfirst := List.head?_dropWhile_not isBlank cs
  rw [Option.mem_def.mp h] at hfirst
  exact hfirst

theorem isTrimmed_trimChars (cs : List Char) : IsTrimmed (trimChars cs) where
  head := by
    intro c hc
    -- what is trimmed at the end stands in front of what is left, if anything is left
    have hprefix : trimChars cs <+: cs.dropWhile isBlank := by
      rw [trimChars, ← List.reverse_suffix, List.reverse_reverse]
      exact List.dropWhile_suffix isBlank
    obtain ⟨back, hback⟩ := hprefix
    have hfirst : c ∈ (cs.dropWhile isBlank).head? := by
      rw [← hback, List.head?_append, Option.mem_def.mp hc]
      rfl
    exact head?_dropWhile_isBlank hfirst
  last := by
    intro c hc
    rw [trimChars, List.getLast?_reverse] at hc
    exact head?_dropWhile_isBlank hc

theorem IsTrimmed.trimChars_eq (h : IsTrimmed cs) : trimChars cs = cs := by
  have hdrop {ds : List Char} (hhead : ∀ c ∈ ds.head?, isBlank c = false) :
      ds.dropWhile isBlank = ds := by
    cases ds with
    | nil => rfl
    | cons d rest => rw [List.dropWhile_cons_of_neg (by simp [hhead d rfl])]
  rw [trimChars, hdrop h.head, hdrop (by rw [List.head?_reverse]; exact h.last),
    List.reverse_reverse]

/-- Trimmed is what has only blanks around it and none at its ends. -/
theorem trimChars_eq_iff {name : List Char} : trimChars cs = name ↔
    IsTrimmed name ∧ ∃ front back, Blanks front ∧ Blanks back ∧ cs = front ++ name ++ back := by
  constructor
  · rintro rfl
    exact ⟨isTrimmed_trimChars cs, exists_blanks_trimChars cs⟩
  · rintro ⟨htrimmed, front, back, hfront, hback, rfl⟩
    rw [trimChars_append_right _ hback, trimChars_append_left hfront, htrimmed.trimChars_eq]

end Trimming

section Splitting

variable {c : Char}

/-- A text has no comma, or the rest after its first comma is shorter. -/
theorem split_induction {motive : List Char → Prop} (plain : ∀ cs, c ∉ cs → motive cs)
    (split : ∀ front rest, c ∉ front → motive rest → motive (front ++ c :: rest))
    (cs : List Char) : motive cs := by
  induction hlength : cs.length using Nat.strongRecOn generalizing cs with
  | ind n ih =>
      by_cases hmem : c ∈ cs
      · obtain ⟨front, rest, rfl, hfront⟩ := List.eq_append_cons_of_mem hmem
        refine split front rest hfront (ih rest.length ?_ rest rfl)
        rw [← hlength, List.length_append, List.length_cons]
        omega
      · exact plain cs hmem

/-- The pieces of a text are what is left between two separators, or a separator and an
end, and has no separator in it. -/
theorem mem_splitOn {piece cs : List Char} :
    piece ∈ cs.splitOn c ↔ c ∉ piece ∧ ∃ before after, cs = before ++ piece ++ after ∧
      (before = [] ∨ ∃ b, before = b ++ [c]) ∧ (after = [] ∨ ∃ a, after = c :: a) := by
  constructor
  · induction cs using split_induction (c := c) with
    | plain cs hplain =>
        intro h
        rw [List.splitOn_eq_singleton hplain, List.mem_singleton] at h
        exact ⟨h ▸ hplain, [], [], by simp [h], .inl rfl, .inl rfl⟩
    | split front rest hfront ih =>
        intro h
        rw [List.splitOn_append_cons_self_of_not_mem hfront, List.mem_cons] at h
        rcases h with rfl | hlater
        · exact ⟨hfront, [], c :: rest, rfl, .inl rfl, .inr ⟨rest, rfl⟩⟩
        · obtain ⟨hpiece, before, after, rfl, hbefore, hafter⟩ := ih hlater
          refine ⟨hpiece, front ++ c :: before, after, by simp, .inr ?_, hafter⟩
          rcases hbefore with rfl | ⟨b, rfl⟩
          · exact ⟨front, rfl⟩
          · exact ⟨front ++ c :: b, by simp⟩
  · rintro ⟨hpiece, before, after, rfl, hbefore, hafter⟩
    have hself : piece ∈ (piece ++ after).splitOn c := by
      rcases hafter with rfl | ⟨a, rfl⟩
      · rw [List.append_nil, List.splitOn_eq_singleton hpiece]
        exact List.mem_singleton_self piece
      · rw [List.splitOn_append_cons_self_of_not_mem hpiece]
        exact List.mem_cons_self
    rcases hbefore with rfl | ⟨b, rfl⟩
    · exact hself
    · rw [List.append_assoc, List.append_assoc, List.singleton_append,
        List.splitOn_append_cons_self]
      exact List.mem_append_right _ hself

end Splitting

section Lists

theorem not_isBlank_comma : isBlank ',' = false := rfl

/-- A name stands in a text between commas or ends of the text, with nothing but blanks
around it. -/
structure Lists (text name : String) : Prop where
  nonempty : name ≠ ""
  trimmed : IsTrimmed name.toList
  plain : ',' ∉ name.toList
  placed : ∃ before front back after,
    text.toList = before ++ (front ++ name.toList ++ back) ++ after ∧
    Blanks front ∧ Blanks back ∧
    (before = [] ∨ ∃ b, before = b ++ [',']) ∧ (after = [] ∨ ∃ a, after = ',' :: a)

def listed (cs : List Char) : List String :=
  ((cs.splitOn ',').map (fun piece => String.ofList (trimChars piece))).filter (· ≠ "")

theorem commaList_eq (s : String) : commaList s = listed s.toList := rfl

theorem Blanks.no_comma {cs : List Char} (h : Blanks cs) : ',' ∉ cs := by
  intro hcomma
  have hblank := h ',' hcomma
  rw [not_isBlank_comma] at hblank
  cases hblank

/-- The names that a text lists are exactly the non-empty trimmed pieces between its commas. -/
theorem mem_commaList {text name : String} : name ∈ commaList text ↔ Lists text name := by
  simp only [commaList, List.mem_filter, List.mem_map, decide_eq_true_iff]
  constructor
  · rintro ⟨⟨piece, hpiece, rfl⟩, hnonempty⟩
    obtain ⟨hplain, before, after, htext, hbefore, hafter⟩ := mem_splitOn.mp hpiece
    obtain ⟨front, back, hfront, hback, hframed⟩ := exists_blanks_trimChars piece
    refine ⟨hnonempty, ?_, ?_, before, front, back, after, ?_, hfront, hback, hbefore, hafter⟩
    · rw [String.toList_ofList]
      exact isTrimmed_trimChars piece
    · rw [String.toList_ofList]
      intro hcomma
      rw [hframed] at hplain
      exact hplain (List.mem_append_left _ (List.mem_append_right _ hcomma))
    · rw [String.toList_ofList, ← hframed, htext]
  · rintro ⟨hnonempty, htrimmed, hplain, before, front, back, after, htext, hfront, hback,
      hbefore, hafter⟩
    refine ⟨⟨front ++ name.toList ++ back, mem_splitOn.mpr ⟨?_, before, after, htext, hbefore,
      hafter⟩, ?_⟩, hnonempty⟩
    · simp only [List.mem_append, not_or]
      exact ⟨⟨hfront.no_comma, hplain⟩, hback.no_comma⟩
    · rw [trimChars_eq_iff.mpr ⟨htrimmed, front, back, hfront, hback, rfl⟩, String.ofList_toList]

/-- A text without a comma lists one name, its trimmed self, or none if it is blank. -/
theorem listed_of_no_comma {cs : List Char} (h : ',' ∉ cs) :
    listed cs = [String.ofList (trimChars cs)].filter (· ≠ "") := by
  rw [listed, List.splitOn_eq_singleton h]
  rfl

/-- A comma separates two texts for good: together they list what each of them lists. -/
theorem listed_append_comma (cs ds : List Char) :
    listed (cs ++ ',' :: ds) = listed cs ++ listed ds := by
  rw [listed, List.splitOn_append_cons_self, List.map_append, List.filter_append]
  rfl

theorem not_comma_mem_append {cs ds : List Char} (hcs : ',' ∉ cs) (hds : ',' ∉ ds) :
    ',' ∉ cs ++ ds := by
  rw [List.mem_append, not_or]
  exact ⟨hcs, hds⟩

/-- Blanks in front of a text list nothing and change nothing of what follows, even where
the next thing is a comma. -/
theorem listed_append_left {front : List Char} (h : Blanks front) (cs : List Char) :
    listed (front ++ cs) = listed cs := by
  have hplain {ds : List Char} (hds : ',' ∉ ds) : listed (front ++ ds) = listed ds := by
    rw [listed_of_no_comma (not_comma_mem_append h.no_comma hds), listed_of_no_comma hds,
      trimChars_append_left h]
  cases cs using split_induction (c := ',') with
  | plain cs hcs => exact hplain hcs
  | split first rest hfirst _ =>
      rw [← List.append_assoc, listed_append_comma, listed_append_comma, hplain hfirst]

theorem listed_append_right {back : List Char} (h : Blanks back) (cs : List Char) :
    listed (cs ++ back) = listed cs := by
  induction cs using split_induction (c := ',') with
  | plain cs hcs =>
      rw [listed_of_no_comma (not_comma_mem_append hcs h.no_comma), listed_of_no_comma hcs,
        trimChars_append_right cs h]
  | split first rest _ ih =>
      rw [List.append_assoc, List.cons_append, listed_append_comma, listed_append_comma, ih]

/-- A list is read the same from a text and from the trimmed text. -/
theorem commaList_trim (s : String) : commaList (trim s) = commaList s := by
  obtain ⟨front, back, hfront, hback, hframed⟩ := exists_blanks_trimChars s.toList
  rw [commaList_eq, commaList_eq, trim, String.toList_ofList]
  calc
    listed (trimChars s.toList) = listed (front ++ trimChars s.toList ++ back) := by
      rw [listed_append_right hback, listed_append_left hfront]
    _ = listed s.toList := by rw [← hframed]

/-- Texts that are written with commas between them list, in order, what each of them lists.
So a name is read back as itself only if it is trimmed, not empty, and has no comma in it. -/
theorem commaList_intercalate (names : List String) :
    commaList (String.intercalate "," names) = names.flatMap commaList := by
  induction names with
  | nil => rfl
  | cons name rest ih =>
      cases rest with
      | nil => rw [String.intercalate_singleton, List.flatMap_singleton]
      | cons next more =>
          have hchars : (name ++ "," ++ String.intercalate "," (next :: more)).toList =
              name.toList ++ ',' :: (String.intercalate "," (next :: more)).toList := by
            rw [String.toList_append, String.toList_append, List.append_assoc]
            rfl
          rw [String.intercalate_cons_cons, commaList_eq, hchars, listed_append_comma,
            ← commaList_eq, ← commaList_eq, ih]
          rfl

end Lists

end Rollcall.Text
