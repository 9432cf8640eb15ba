import Mathlib.Tactic.SplitIfs
import Rollcall.Key
import Rollcall.Proofs.Text

/-!
Texts and their bytes. Bytes are compared as the texts are, one text starts with another
if its bytes do, and no two texts have the same bytes. So a store that is keyed by text
and one that is keyed by bytes list the same keys in the same order. Main statements:
`utf8_lt` and `isPrefixOf_utf8`.
-/

namespace Rollcall.Text

section Characters

variable {m n : Nat}

theorem ofNat_lt_ofNat (hm : m < 256) (hn : n < 256) :
    UInt8.ofNat m < UInt8.ofNat n ↔ m < n := by
  rw [UInt8.lt_iff_toNat_lt, UInt8.toNat_ofNat', UInt8.toNat_ofNat', Nat.mod_eq_of_lt hm,
    Nat.mod_eq_of_lt hn]

theorem ofNat_inj (hm : m < 256) (hn : n < 256) : UInt8.ofNat m = UInt8.ofNat n ↔ m = n := by
  rw [← UInt8.toNat_inj, UInt8.toNat_ofNat', UInt8.toNat_ofNat', Nat.mod_eq_of_lt hm,
    Nat.mod_eq_of_lt hn]

theorem toNat_lt (c : Char) : c.val.toNat < 0x110000 := by
  rcases c.valid with hlow | ⟨-, hhigh⟩
  · have : c.val.toNat < 0xd800 := hlow
    omega
  · exact hhigh

/-- Whatever follows them. A longer encoding has a greater first byte, and of two that are
equally long the digits of the characters to the base 64 decide. -/
theorem utf8EncodeChar_lt {c d : Char} (h : c < d) (xs ys : Bytes) :
    String.utf8EncodeChar c ++ xs < String.utf8EncodeChar d ++ ys := by
  have hlt : c.val.toNat < d.val.toNat := h
  have hd := toNat_lt d
  unfold String.utf8EncodeChar
  generalize c.val.toNat = m at hlt
  generalize d.val.toNat = n at hlt hd
  have hdigit (k : Nat) : k / 4096 = k / 64 / 64 ∧ k / 262144 = k / 64 / 64 / 64 := by omega
  simp only [hdigit]
  split_ifs <;>
    simp (disch := omega) only [List.cons_append, List.nil_append, List.cons_lt_cons_iff,
      ofNat_lt_ofNat, ofNat_inj] <;>
    omega

end Characters

theorem utf8_eq (s : String) : utf8 s = s.toList.flatMap String.utf8EncodeChar := by
  apply List.toByteArray_inj.mp
  rw [toByteArray_utf8, ← String.utf8Encode_toList]
  rfl

/-- The first character at which two texts differ decides, as its encoding decides between
the bytes. -/
theorem flatMap_utf8EncodeChar_lt {cs ds : List Char} (h : cs < ds) :
    cs.flatMap String.utf8EncodeChar < ds.flatMap String.utf8EncodeChar := by
  induction cs generalizing ds with
  | nil =>
      cases ds with
      | nil => exact absurd h (List.not_lt_nil [])
      | cons d rest =>
          rw [List.flatMap_nil, List.flatMap_cons]
          have hlength := String.length_utf8EncodeChar d
          have hpositive := d.utf8Size_pos
          cases hbytes : String.utf8EncodeChar d with
          | nil =>
              rw [hbytes, List.length_nil] at hlength
              omega
          | cons b bytes => exact List.nil_lt_cons b _
  | cons c rest ih =>
      cases ds with
      | nil => exact absurd h (List.not_lt_nil _)
      | cons d more =>
          rw [List.flatMap_cons, List.flatMap_cons]
          rcases List.cons_lt_cons_iff.mp h with hlt | ⟨rfl, hrest⟩
          · exact utf8EncodeChar_lt hlt _ _
          · exact List.append_left_lt (ih hrest)

/-- The bytes of texts are ordered as their characters are, so a table that is ordered by
texts lists them in the order of their bytes. -/
theorem utf8_lt {s t : String} (h : s < t) : utf8 s < utf8 t := by
  rw [utf8_eq, utf8_eq]
  exact flatMap_utf8EncodeChar_lt (String.lt_iff.mp h)

/-- Different texts have different bytes, so a server that knows keys as bytes keeps apart
what callers keep apart. -/
theorem utf8_injective {s t : String} (h : utf8 s = utf8 t) : s = t := by
  have hread := congrArg ofUtf8? h
  rw [ofUtf8?_utf8, ofUtf8?_utf8] at hread
  exact Option.some.inj hread

/-- A text starts with another one exactly if its bytes start with those of the other: no
encoding begins in the middle of another. -/
theorem isPrefixOf_utf8 (root key : String) :
    (utf8 root).isPrefixOf (utf8 key) = Key.startsWith root key := by
  rw [Key.startsWith, Bool.eq_iff_iff, List.isPrefixOf_iff_prefix, List.isPrefixOf_iff_prefix,
    utf8_eq, utf8_eq]
  constructor
  · rintro ⟨rest, hrest⟩
    apply List.isPrefix_of_utf8Encode_append_eq_utf8Encode rest.toByteArray
    rw [List.utf8Encode, List.utf8Encode, ← hrest, List.toByteArray_append]
  · rintro ⟨rest, hrest⟩
    rw [← hrest, List.flatMap_append]
    exact List.prefix_append _ _

end Rollcall.Text
