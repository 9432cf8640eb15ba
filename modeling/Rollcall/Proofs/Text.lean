import Rollcall.Decimal.Integer
import Rollcall.Text.Utf8

/-!
What is written reads back: text from its bytes, a 64-bit integer from its
decimal text. Main statements: `ofUtf8?_utf8` and `readInt64_showInt`.
-/

namespace Rollcall

namespace Text

theorem toList_loop (bytes : ByteArray) (i : Nat) (taken : Bytes) :
    ByteArray.toList.loop bytes i taken = taken.reverse ++ bytes.data.toList.drop i := by
  fun_induction ByteArray.toList.loop bytes i taken with
  | case1 i taken hlt ih =>
      have hi : i < bytes.data.toList.length := by simpa using hlt
      rw [ih, List.drop_eq_getElem_cons hi]
      simp [ByteArray.get!, hlt]
  | case2 i taken hge =>
      rw [List.drop_eq_nil_of_le (by simpa using Nat.le_of_not_lt hge)]
      simp

/-- The list of bytes that stands for a text is its encoding, byte for byte. -/
theorem toByteArray_utf8 (s : String) : (utf8 s).toByteArray = s.toByteArray := by
  apply ByteArray.ext
  rw [List.data_toByteArray, utf8, ByteArray.toList, toList_loop]
  simp

/-- Every text can be read back from its bytes, so two texts with the same bytes are the
same. -/
theorem ofUtf8?_utf8 (s : String) : ofUtf8? (utf8 s) = some s := by
  rw [ofUtf8?, toByteArray_utf8]
  exact dif_pos s.isValidUTF8

end Text

namespace Decimal

section Reading

variable {limit : Nat} {beyond : IntFault}

/-- More digits never make a number smaller. So once the limit is passed it stays passed. -/
theorem le_ofDigitChars (n : Nat) (cs : List Char) : n ≤ Nat.ofDigitChars 10 cs n := by
  induction cs generalizing n with
  | nil => exact Nat.le_refl n
  | cons c rest ih =>
      rw [Nat.ofDigitChars_cons]
      have := ih (10 * n + (c.toNat - '0'.toNat))
      omega

/-- Digits read as what they stand for, as long as that is within the limit. -/
theorem readDigits_eq {n : Nat} {cs : List Char} (hdigits : ∀ c ∈ cs, c.isDigit = true)
    (hlimit : Nat.ofDigitChars 10 cs n ≤ limit) :
    readDigits limit beyond n cs = .ok (Nat.ofDigitChars 10 cs n) := by
  induction cs generalizing n with
  | nil => rfl
  | cons c rest ih =>
      have hrest : ∀ c ∈ rest, c.isDigit = true := fun d hd => hdigits d (List.mem_cons_of_mem _ hd)
      rw [Nat.ofDigitChars_cons] at hlimit ⊢
      have hnext := Nat.le_trans (le_ofDigitChars _ rest) hlimit
      rw [readDigits, if_pos (hdigits c List.mem_cons_self)]
      simp only [hnext, if_true]
      exact ih hrest hlimit

/-- A number within the limit is read back from its decimal digits. -/
theorem readDigits_digits (limit : Nat) (beyond : IntFault) {n : Nat} (h : n ≤ limit) :
    readDigits limit beyond 0 (digits n) = .ok n := by
  have hvalue : Nat.ofDigitChars 10 (digits n) 0 = n := value_digits n
  rw [readDigits_eq (fun _ => isDigit_of_mem_digits) (by rw [hvalue]; exact h), hvalue]

/-- Whatever digits are read give a number within the limit, or a fault. -/
theorem readDigits_le {n m : Nat} {cs : List Char} (hn : n ≤ limit)
    (h : readDigits limit beyond n cs = .ok m) : m ≤ limit := by
  induction cs generalizing n with
  | nil =>
      obtain rfl := Except.ok.inj h
      exact hn
  | cons c rest ih =>
      rw [readDigits] at h
      split at h
      · dsimp only at h
        split at h
        · rename_i hnext
          exact ih hnext h
        · cases h
      · cases h

end Reading

theorem digits_eq_cons (n : Nat) : ∃ c rest, digits n = c :: rest ∧ c ≠ '+' ∧ c ≠ '-' := by
  cases hdigits : digits n with
  | nil => exact absurd hdigits Nat.toDigits_ne_nil
  | cons c rest =>
      have hc : c.isDigit = true := isDigit_of_mem_digits (hdigits ▸ List.mem_cons_self)
      refine ⟨c, rest, rfl, ?_, ?_⟩ <;> rintro rfl <;> cases hc

theorem readInt64Chars_unsigned {c : Char} {rest : List Char} (hplus : c ≠ '+') (hminus : c ≠ '-') :
    readInt64Chars (c :: rest) =
      (readDigits (int64Limit - 1) .tooLarge 0 (c :: rest)).map Int.ofNat := by
  unfold readInt64Chars
  split <;> simp_all

/-- Every number of 64 bits is read back from the text that it is shown as, the least one
included. -/
theorem readInt64_showInt {n : Int} (hlow : -(int64Limit : Int) ≤ n) (hhigh : n < int64Limit) :
    readInt64 (showInt n) = .ok n := by
  rw [readInt64, showInt, String.toList_ofList]
  cases n with
  | ofNat n =>
      rw [Int.ofNat_eq_natCast] at hhigh
      obtain ⟨c, rest, hdigits, hplus, hminus⟩ := digits_eq_cons n
      have hbound : n ≤ int64Limit - 1 := by omega
      have hread := readDigits_digits (int64Limit - 1) .tooLarge hbound
      rw [intChars, hdigits, readInt64Chars_unsigned hplus hminus, ← hdigits, hread]
      rfl
  | negSucc n =>
      obtain ⟨c, rest, hdigits, -, -⟩ := digits_eq_cons (n + 1)
      have hbound : n + 1 ≤ int64Limit := by omega
      have hread := readDigits_digits int64Limit .tooSmall hbound
      rw [intChars, hdigits]
      rw [hdigits] at hread
      simp only [readInt64Chars, hread]
      rfl

/-- Whatever text is read, the number that comes of it is one of 64 bits. -/
theorem readInt64_bounds {s : String} {n : Int} (h : readInt64 s = .ok n) :
    -(int64Limit : Int) ≤ n ∧ n < int64Limit := by
  have hlimit : int64Limit = 0x8000000000000000 := rfl
  have hpositive {cs : List Char}
      (hread : (readDigits (int64Limit - 1) .tooLarge 0 cs).map Int.ofNat = .ok n) :
      -(int64Limit : Int) ≤ n ∧ n < int64Limit := by
    cases hdigits : readDigits (int64Limit - 1) .tooLarge 0 cs with
    | error fault => simp [hdigits, Except.map] at hread
    | ok m =>
        have hle := readDigits_le (Nat.zero_le _) hdigits
        simp only [hdigits, Except.map, Except.ok.injEq, Int.ofNat_eq_natCast] at hread
        omega
  unfold readInt64 readInt64Chars at h
  split at h
  · cases h
  · cases h
  · cases h
  · rename_i cs _ _
    cases hdigits : readDigits int64Limit .tooSmall 0 cs with
    | error fault => simp [hdigits, Except.map, bind, Except.bind] at h
    | ok m =>
        have hle := readDigits_le (Nat.zero_le _) hdigits
        simp only [hdigits, Except.map, bind, Except.bind, pure, Except.pure,
          Except.ok.injEq] at h
        omega
  · exact hpositive h
  · exact hpositive h

end Decimal

end Rollcall
