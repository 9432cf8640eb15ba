import Mathlib.Data.List.TakeWhile
import Rollcall.Proofs.Target

/-!
Targets read back from how they are written. A target is spelled bare, or behind its scheme
and any slashes, and it is written in the second way. Slashes in front of a bare name belong
to it, those behind a scheme do not, so a target is read back unless its component begins
with a slash or its scheme has a colon. Main statements: `parse_eq_ok_iff`, `parse_toString`
and `read_back`.
-/

namespace Rollcall

section Slashes

def Slashes (text : String) : Prop := ∀ c ∈ text.toList, c = '/'

def Slashless (text : String) : Prop := text.toList.head? ≠ some '/'

instance (text : String) : Decidable (Slashless text) :=
  inferInstanceAs (Decidable (text.toList.head? ≠ some '/'))

def stripSlashes (text : String) : String := String.ofList (text.toList.dropWhile (· = '/'))

variable {text slashes rest : String}

/-- All slashes in front are stripped, not just the ones that were expected. -/
theorem slashless_stripSlashes (text : String) : Slashless (stripSlashes text) := by
  rw [Slashless, stripSlashes, String.toList_ofList]
  intro hslash
  have hkept := List.head?_dropWhile_not (fun c : Char => decide (c = '/')) text.toList
  rw [hslash] at hkept
  simp at hkept

theorem stripSlashes_append (h : Slashes slashes) (rest : String) :
    stripSlashes (slashes ++ rest) = stripSlashes rest := by
  have hall : ∀ c ∈ slashes.toList, decide (c = '/') = true := fun c hc =>
    decide_eq_true (h c hc)
  rw [stripSlashes, String.toList_append, List.dropWhile_append_of_pos hall]
  rfl

theorem slashless_iff_stripSlashes : Slashless text ↔ stripSlashes text = text := by
  rw [stripSlashes, ← String.toList_inj, String.toList_ofList, List.dropWhile_eq_self_iff,
    Slashless]
  cases text.toList with
  | nil => simp
  | cons c rest => simp

theorem stripSlashes_of_slashless (h : Slashless text) : stripSlashes text = text :=
  slashless_iff_stripSlashes.mp h

theorem exists_slashes (text : String) :
    ∃ slashes, Slashes slashes ∧ text = slashes ++ stripSlashes text := by
  refine ⟨String.ofList (text.toList.takeWhile (· = '/')), ?_, ?_⟩
  · intro c hc
    rw [String.toList_ofList] at hc
    exact of_decide_eq_true (List.mem_takeWhile_imp (p := fun c => decide (c = '/')) hc)
  · rw [← String.toList_inj, stripSlashes, String.toList_append, String.toList_ofList,
      String.toList_ofList, List.takeWhile_append_dropWhile]

theorem slashless_append {front : String} (hne : front ≠ "") (rest : String) :
    Slashless (front ++ rest) ↔ Slashless front := by
  obtain ⟨c, tail, hchars⟩ := List.exists_cons_of_ne_nil (mt String.toList_eq_nil_iff.mp hne)
  rw [Slashless, Slashless, String.toList_append, hchars, List.cons_append, List.head?_cons,
    List.head?_cons]

/-- Slashes in front of a dot are not in front of what follows it. -/
theorem stripSlashes_dotted (component sub : String) :
    stripSlashes (component ++ "." ++ sub) = stripSlashes component ++ "." ++ sub := by
  obtain ⟨slashes, hslashes, hcomponent⟩ := exists_slashes component
  have hdotted : component ++ "." ++ sub = slashes ++ (stripSlashes component ++ "." ++ sub) := by
    rw [← String.append_assoc, ← String.append_assoc, ← hcomponent]
  rw [hdotted, stripSlashes_append hslashes]
  refine stripSlashes_of_slashless ?_
  by_cases hempty : stripSlashes component = ""
  · rw [hempty, Slashless, Selector.toList_dotted]
    simp
  · rw [String.append_assoc]
    exact (slashless_append hempty _).mpr (slashless_stripSlashes component)

end Slashes

namespace Selector

variable {text : String} {s : Selector}

/-- A text begins with a slash if its component does, as long as the component is not empty. -/
theorem Splits.slashless_iff (h : Splits text s) (hne : s.component ≠ "") :
    Slashless s.component ↔ Slashless text := by
  cases h with
  | whole => exact Iff.rfl
  | trailing => exact (slashless_append hne _).symm
  | sub => rw [String.append_assoc]; exact (slashless_append hne _).symm

theorem isRead_ofString (text : String) : (ofString text).IsRead :=
  isRead_ofChars text.toList

/-- The selector without slashes in front of its component. -/
def stripped (s : Selector) : Selector := ⟨stripSlashes s.component, s.subService⟩

/-- Stripping changes nothing exactly where there is nothing in front. -/
theorem stripped_eq_iff : s.stripped = s ↔ Slashless s.component := by
  obtain ⟨component, subService⟩ := s
  rw [slashless_iff_stripSlashes, stripped, mk.injEq]
  exact and_iff_left rfl

/-- To strip a selector and write it is to write it and strip the text. -/
theorem toString_stripped (s : Selector) : s.stripped.toString = stripSlashes s.toString := by
  obtain ⟨component, subService⟩ := s
  cases subService with
  | none => rfl
  | some sub => exact (stripSlashes_dotted component sub).symm

theorem IsRead.stripped (h : s.IsRead) : s.stripped.IsRead := by
  refine ⟨fun hdot => h.component ?_, h.subService⟩
  obtain ⟨slashes, -, hcomponent⟩ := exists_slashes s.component
  rw [hcomponent, String.toList_append]
  exact List.mem_append_right _ hdot

end Selector

namespace Target

/-- How a selector is spelled where a scheme is the default: bare, or behind the scheme, a
colon and any slashes. -/
inductive Spells (scheme : String) (s : Selector) : String → Prop
  | bare {text : String} : ':' ∉ text.toList → Selector.Splits text s → Spells scheme s text
  | behind {slashes rest : String} : ':' ∉ scheme.toList → Slashes slashes → Slashless rest →
      Selector.Splits rest s → Spells scheme s (scheme ++ ":" ++ (slashes ++ rest))

def named (text : String) (t : Target) : Except Error Target :=
  if t.selector.component = "" then .error (.invalidTarget text "empty component name") else .ok t

variable {text scheme front rest : String} {t : Target}

theorem named_eq_ok_iff {t' : Target} :
    named text t' = .ok t ↔ t' = t ∧ t.selector.component ≠ "" := by
  rw [named]
  split
  · rename_i hempty
    simp only [reduceCtorEq, false_iff, not_and]
    rintro rfl hne
    exact hne hempty
  · rename_i hne
    simp only [Except.ok.injEq]
    constructor
    · rintro rfl
      exact ⟨rfl, hne⟩
    · exact And.left

theorem colon_cases (text : String) :
    ':' ∉ text.toList ∨ ∃ front rest, ':' ∉ front.toList ∧ text = front ++ ":" ++ rest := by
  cases hsplit : splitFirst ':' text.toList with
  | none => exact .inl (splitFirst_eq_none hsplit)
  | some parts =>
      obtain ⟨front, rest⟩ := parts
      obtain ⟨htext, hfront⟩ := splitFirst_eq_some hsplit
      refine .inr ⟨String.ofList front, String.ofList rest, ?_, ?_⟩
      · rwa [String.toList_ofList]
      · rw [← String.toList_inj, htext]
        simp only [String.toList_append, String.toList_ofList, List.append_assoc]
        rfl

theorem toList_colon (front rest : String) :
    (front ++ ":" ++ rest).toList = front.toList ++ ':' :: rest.toList := by
  rw [String.toList_append, String.toList_append, List.append_assoc]
  rfl

theorem mem_colon (front rest : String) : ':' ∈ (front ++ ":" ++ rest).toList := by
  rw [toList_colon]
  exact List.mem_append_right _ List.mem_cons_self

/-- A text without a colon is a target of the default scheme, taken as it is: here slashes
are not stripped. -/
theorem parse_bare (h : ':' ∉ text.toList) (scheme : String) :
    parse text scheme = named text ⟨scheme, .ofString text⟩ := by
  simp only [parse, splitScheme, splitFirst_of_not_mem h, ne_eq, not_true_eq_false, if_false]
  rfl

/-- A text with a colon names a scheme, which has to be the default one, and behind it
slashes are stripped. -/
theorem parse_behind (h : ':' ∉ front.toList) (rest scheme : String) :
    parse (front ++ ":" ++ rest) scheme =
      if front = scheme then
        named (front ++ ":" ++ rest) ⟨scheme, .ofString (stripSlashes rest)⟩
      else
        .error (.invalidTarget (front ++ ":" ++ rest)
          ("unsupported scheme " ++ Text.quoted front)) := by
  simp only [parse, splitScheme, toList_colon, splitFirst_append h, String.ofList_toList]
  by_cases hscheme : front = scheme
  · subst hscheme
    simp only [ne_eq, not_true_eq_false, if_false, if_true, named, stripSlashes,
      Selector.ofString, String.toList_ofList]
  · simp only [ne_eq, hscheme, not_false_eq_true, if_true, if_false]

/-- What a text parses to: the default scheme, a component that is not empty, and a selector
that the text spells. -/
theorem parse_eq_ok_iff : parse text scheme = .ok t ↔
    t.scheme = scheme ∧ t.selector.component ≠ "" ∧ Spells scheme t.selector text := by
  obtain ⟨found, s⟩ := t
  constructor
  · intro h
    rcases colon_cases text with hbare | ⟨front, rest, hfront, rfl⟩
    · rw [parse_bare hbare, named_eq_ok_iff] at h
      obtain ⟨heq, hne⟩ := h
      obtain ⟨rfl, rfl⟩ := Target.mk.inj heq
      exact ⟨rfl, hne, .bare hbare (Selector.splits_ofString text)⟩
    · rw [parse_behind hfront] at h
      split at h
      · rename_i hscheme
        subst hscheme
        obtain ⟨heq, hne⟩ := named_eq_ok_iff.mp h
        obtain ⟨rfl, rfl⟩ := Target.mk.inj heq
        obtain ⟨slashes, hslashes, hrest⟩ := exists_slashes rest
        refine ⟨rfl, hne, ?_⟩
        have hspells := Spells.behind hfront hslashes (slashless_stripSlashes rest)
          (Selector.splits_ofString (stripSlashes rest))
        rwa [← hrest] at hspells
      · cases h
  · rintro ⟨rfl, hne, hspells⟩
    cases hspells with
    | bare hbare hsplits =>
        rw [parse_bare hbare, Selector.ofString_of_splits hsplits, named_eq_ok_iff]
        exact ⟨rfl, hne⟩
    | behind hscheme hslashes hrest hsplits =>
        rw [parse_behind hscheme, if_pos rfl, stripSlashes_append hslashes,
          stripSlashes_of_slashless hrest, Selector.ofString_of_splits hsplits, named_eq_ok_iff]
        exact ⟨rfl, hne⟩

theorem toString_eq (t : Target) :
    t.toString = t.scheme ++ ":" ++ ("///" ++ t.selector.toString) := by
  have hwritten : ":///" = ":" ++ "///" := rfl
  rw [toString, hwritten, String.append_assoc, String.append_assoc, String.append_assoc]

theorem slashes_three : Slashes "///" := by
  intro c hc
  have hchars : "///".toList = List.replicate 3 '/' := rfl
  rw [hchars] at hc
  exact List.eq_of_mem_replicate hc

/-- Behind a scheme without a colon a selector loses the slashes in front of it. -/
theorem parse_toString (hread : t.selector.IsRead) (hscheme : ':' ∉ t.scheme.toList) :
    parse t.toString t.scheme = named t.toString ⟨t.scheme, t.selector.stripped⟩ := by
  have hselector : Selector.ofString (stripSlashes ("///" ++ t.selector.toString)) =
      t.selector.stripped := by
    rw [stripSlashes_append slashes_three, ← Selector.toString_stripped]
    exact Selector.ofString_toString hread.stripped
  rw [toString_eq, parse_behind hscheme, if_pos rfl, hselector]

/-- A scheme with a colon is not found again, since a text is split at its first colon and
what stands in front is then no more than a part of it. -/
theorem parse_toString_of_colon (hfront : ':' ∉ front.toList)
    (hscheme : t.scheme = front ++ ":" ++ rest) :
    parse t.toString t.scheme =
      .error (.invalidTarget t.toString ("unsupported scheme " ++ Text.quoted front)) := by
  have hne : front ≠ t.scheme := fun heq => hfront (heq ▸ hscheme ▸ mem_colon front rest)
  have htext : t.toString = front ++ ":" ++ (rest ++ ":///" ++ t.selector.toString) := by
    rw [toString, hscheme]
    simp only [String.append_assoc]
  rw [htext, parse_behind hfront, if_neg hne]

/-- What is read back can only be the target without slashes in front. -/
theorem parse_toString_eq_ok_iff {t' : Target} (hread : t.selector.IsRead) :
    parse t.toString t.scheme = .ok t' ↔ ':' ∉ t.scheme.toList ∧
      ⟨t.scheme, t.selector.stripped⟩ = t' ∧ t'.selector.component ≠ "" := by
  rcases colon_cases t.scheme with hcolon | ⟨front, rest, hfront, hscheme⟩
  · rw [parse_toString hread hcolon, named_eq_ok_iff, and_iff_right hcolon]
  · have hcolon : ':' ∈ t.scheme.toList := hscheme ▸ mem_colon front rest
    rw [parse_toString_of_colon hfront hscheme]
    exact iff_of_false nofun fun h => h.1 hcolon

theorem stripped_eq_iff :
    (⟨t.scheme, t.selector.stripped⟩ : Target) = t ↔ Slashless t.selector.component := by
  obtain ⟨scheme, s⟩ := t
  rw [mk.injEq, and_iff_right rfl, Selector.stripped_eq_iff]

/-- The selector of a target that was parsed has no dot in its component. -/
theorem isRead_of_parse (h : parse text scheme = .ok t) : t.selector.IsRead := by
  rw [← ofString_of_parse h]
  exact Selector.isRead_ofString _

/-- Slashes in front of a component are those in front of a bare name. -/
theorem slashless_of_parse (h : parse text scheme = .ok t) :
    Slashless t.selector.component ↔ ':' ∈ text.toList ∨ Slashless text := by
  obtain ⟨-, hne, hspells⟩ := parse_eq_ok_iff.mp h
  cases hspells with
  | bare hbare hsplits => rw [hsplits.slashless_iff hne, or_iff_right hbare]
  | behind hscheme hslashes hrest hsplits =>
      exact iff_of_true ((hsplits.slashless_iff hne).mpr hrest) (.inl (mem_colon _ _))

/-- What a target that was parsed is when its written form is parsed: itself, as long as the
scheme has no colon and no slash is in front of a bare name. Where its scheme has a colon, it
is refused; where slashes are in front, they are lost, and no more after that. -/
structure ReadBack (text scheme : String) (t : Target) : Prop where
  same : parse t.toString scheme = .ok t ↔
    ':' ∉ scheme.toList ∧ (':' ∈ text.toList ∨ Slashless text)
  unsupported : ∀ front rest, ':' ∉ front.toList → scheme = front ++ ":" ++ rest →
    parse t.toString scheme =
      .error (.invalidTarget t.toString ("unsupported scheme " ++ Text.quoted front))
  stripped : ':' ∉ scheme.toList → ∀ slashes rest, Slashes slashes → Slashless rest →
    t.selector.component = slashes ++ rest → parse t.toString scheme =
      if rest = "" then .error (.invalidTarget t.toString "empty component name")
      else .ok ⟨scheme, rest, t.selector.subService⟩
  settled : ∀ t', parse t.toString scheme = .ok t' → parse t'.toString scheme = .ok t'

/-- For every text that parses, under every default scheme, what comes of its written form:
the same target, the one without slashes in front of its component, or the refusal of a
scheme that cannot be written. Which of them is settled by colons and the first character
alone. -/
theorem read_back (h : parse text scheme = .ok t) : ReadBack text scheme t := by
  have hread := isRead_of_parse h
  obtain ⟨rfl, hne, -⟩ := parse_eq_ok_iff.mp h
  constructor
  case same =>
    rw [parse_toString_eq_ok_iff hread, stripped_eq_iff, and_iff_left hne, slashless_of_parse h]
  case unsupported =>
    intro front rest hfront hscheme
    exact parse_toString_of_colon hfront hscheme
  case stripped =>
    intro hscheme slashes rest hslashes hrest hcomponent
    have hstripped : t.selector.stripped = ⟨rest, t.selector.subService⟩ := by
      rw [Selector.stripped, hcomponent, stripSlashes_append hslashes,
        stripSlashes_of_slashless hrest]
    rw [parse_toString hread hscheme, hstripped, named]
  case settled =>
    intro t' ht'
    obtain ⟨hscheme, rfl, hname⟩ := (parse_toString_eq_ok_iff hread).mp ht'
    exact (parse_toString_eq_ok_iff hread.stripped).mpr
      ⟨hscheme, stripped_eq_iff.mpr (slashless_stripSlashes _), hname⟩

/-- Behind its scheme a target is read back, whatever slashes were written. -/
theorem read_back_behind :
    let t : Target := ⟨"discovery", "orders", some "billing.eu"⟩
    parse "discovery:/orders.billing.eu" "discovery" = .ok t ∧
      t.toString = "discovery:///orders.billing.eu" ∧
      parse "discovery:///orders.billing.eu" "discovery" = .ok t := by
  intro t
  have hparse : parse "discovery:/orders.billing.eu" "discovery" = .ok t := by decide +kernel
  exact ⟨hparse, by decide +kernel, (read_back hparse).same.mpr ⟨by decide, .inl (by decide)⟩⟩

/-- A bare name keeps the slash in front of it, and its written form does not. A scheme with
a colon is the default, and cannot be written. -/
theorem slash_lost :
    parse "/a" "discovery" = .ok ⟨"discovery", "/a", none⟩ ∧
      (⟨"discovery", "/a", none⟩ : Target).toString = "discovery:////a" ∧
      parse "discovery:////a" "discovery" = .ok ⟨"discovery", "a", none⟩ ∧
    parse "a" "x:y" = .ok ⟨"x:y", "a", none⟩ ∧
      (⟨"x:y", "a", none⟩ : Target).toString = "x:y:///a" ∧
      parse "x:y:///a" "x:y" =
        .error (.invalidTarget "x:y:///a" "unsupported scheme \"x\"") := by
  decide +kernel

end Target

end Rollcall
