import Rollcall.Toml.Basic

/-!
What values are written for. A typed reader takes the values of its kind, each for the one
thing that it stands for, and no others. Main statements: `nat_eq_ok_iff`, `double_eq_ok_iff`
and `texts_eq_ok_iff`.
-/

namespace Rollcall

/-- Two readings one after the other succeed if the first does, and the second with what it
gave. -/
theorem bind_eq_ok_iff {ε α β : Type} {x : Except ε α} {f : α → Except ε β} {b : β} :
    x >>= f = .ok b ↔ ∃ a, x = .ok a ∧ f a = .ok b := by
  cases x with
  | error fault => simp [bind, Except.bind]
  | ok a => simp [bind, Except.bind]

namespace Toml.Value

def IsNat (high : Nat) (v : Value) (n : Nat) : Prop := v = .integer n ∧ n ≤ high

/-- A number with a fraction, or one without that 64 bits hold, stands for the nearest
double. -/
inductive IsDouble : Value → Float → Prop
  | float {literal : FloatLiteral} {x : Float} : literal.value? = some x →
      IsDouble (.float literal) x
  | integer {n : Int} : -0x8000000000000000 ≤ n → n < 0x10000000000000000 →
      IsDouble (.integer n) (Float.ofInt n)

def IsBool (v : Value) (b : Bool) : Prop := v = .boolean b

def IsText (v : Value) (s : String) : Prop := v = .string s

def IsTexts (v : Value) (texts : List String) : Prop := v.items? = some (texts.map .string)

variable {v : Value}

theorem wrongType_ne_ok {α : Type} {expected : String} {a : α} : v.wrongType expected ≠ .ok a := by
  rw [wrongType]
  cases v.found <;> nofun

/-- A whole number is read from a whole number in bounds, and from nothing else: no float,
no text. -/
theorem nat_eq_ok_iff {high n : Nat} {expected : String} :
    v.nat high expected = .ok n ↔ v.IsNat high n := by
  unfold nat IsNat
  split
  · rename_i value
    rw [Value.integer.injEq]
    split
    · rw [Except.ok.injEq]
      omega
    · have hno : ¬ (value = n ∧ n ≤ high) := by omega
      split <;> simp [hno, wrongType_ne_ok]
  · rename_i hother
    simp only [wrongType_ne_ok, false_iff, not_and]
    rintro rfl
    exact absurd rfl (hother n)

/-- A double is read from a float or from an integer of 64 bits. -/
theorem double_eq_ok_iff {x : Float} : v.double = .ok x ↔ v.IsDouble x := by
  constructor
  · intro h
    unfold double at h
    split at h
    · split at h
      · rename_i hvalue
        obtain rfl := Except.ok.inj h
        exact .float hvalue
      · cases h
    · split at h
      · rename_i hrange
        obtain rfl := Except.ok.inj h
        exact .integer hrange.1 hrange.2
      · exact absurd h wrongType_ne_ok
    · exact absurd h wrongType_ne_ok
  · rintro (hvalue | ⟨hlow, hhigh⟩)
    · simp only [double, hvalue]
    · simp only [double, hlow, hhigh, and_self, if_true]

theorem bool_eq_ok_iff {b : Bool} : v.bool = .ok b ↔ v.IsBool b := by
  unfold bool IsBool
  split
  · simp
  · rename_i hother
    simp only [wrongType_ne_ok, false_iff]
    exact hother b

theorem text_eq_ok_iff {s : String} : v.text = .ok s ↔ v.IsText s := by
  unfold text IsText
  split
  · simp
  · rename_i hother
    simp only [wrongType_ne_ok, false_iff]
    exact hother s

theorem mapM_text_eq_ok_iff {items : List Value} {texts : List String} :
    items.mapM text = .ok texts ↔ items = texts.map .string := by
  induction items generalizing texts with
  | nil => cases texts <;> simp [pure, Except.pure]
  | cons v rest ih =>
      simp only [List.mapM_cons, bind_eq_ok_iff, text_eq_ok_iff, ih, IsText, pure, Except.pure,
        Except.ok.injEq]
      constructor
      · rintro ⟨s, rfl, rest, rfl, rfl⟩
        rfl
      · intro h
        cases texts with
        | nil => cases h
        | cons s texts =>
            obtain ⟨rfl, rfl⟩ := List.cons.inj h
            exact ⟨s, rfl, texts, rfl, rfl⟩

/-- Several texts are read from an array of nothing but texts, in its order. -/
theorem texts_eq_ok_iff {texts : List String} : v.texts = .ok texts ↔ v.IsTexts texts := by
  unfold Value.texts IsTexts
  split
  · rename_i items hitems
    rw [mapM_text_eq_ok_iff, hitems, Option.some.injEq]
  · rename_i hnone
    simp [wrongType_ne_ok, hnone]

theorem skip_eq_ok_iff : v.skip = .ok () ↔ v.hasValue = true := by
  rw [skip]
  split <;> simp_all

end Toml.Value

end Rollcall
