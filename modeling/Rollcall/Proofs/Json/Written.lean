import Rollcall.Json.Reader
import Rollcall.Json.Writer
import Rollcall.Proofs.Text

/-!
What is written as JSON reads back: texts, integers, and objects with members that
do. A value is read to where it was written, whether the text ends there or goes on
as an object does. Main statements: `reads_text`, `reads_int`, `reads_object` and
`read_of_reads`.
-/

namespace Rollcall

namespace Decimal

theorem digits_leading_zero {n : Nat} {rest : List Char} (h : digits n = '0' :: rest) :
    rest = [] := by
  induction n using Nat.strongRecOn generalizing rest with
  | ind n ih =>
      by_cases hsmall : n < 10
      · rw [digits, Nat.toDigits_of_lt_base hsmall] at h
        exact (List.cons.inj h).2.symm
      · have hsplit : digits n = digits (n / 10) ++ [(n % 10).digitChar] :=
          Nat.toDigits_of_base_le (by decide) (by omega)
        obtain ⟨c, tail, htail, -, -⟩ := digits_eq_cons (n / 10)
        rw [hsplit, htail] at h
        obtain rfl := (List.cons.inj h).1
        have hnil := ih (n / 10) (by omega) htail
        have hvalue := value_digits (n / 10)
        rw [htail, hnil] at hvalue
        have hzero : value ['0'] = 0 := by decide
        omega

end Decimal

namespace Json

open Decimal (digits intChars)

/-- The text is over, or goes on behind a member of an object. -/
def Ends : List Char → Prop
  | [] => True
  | c :: _ => c = ',' ∨ c = '}'

/-- The characters are read as the value, to their last. -/
def Reads (cs : List Char) (v : Json) : Prop :=
  ∀ fuel rest, cs.length < fuel → Ends rest → readValue fuel (cs ++ rest) = (v, rest)

section Texts

/-- A control character that was escaped by its number is read as itself. -/
theorem joinPieces_unit {n : Nat} (h : n < 0x20) (pieces : List Piece) :
    joinPieces (.unit n :: pieces) = (joinPieces pieces).map (Char.ofNat n :: ·) := by
  have hleading : isLeading n = false := by
    simp only [isLeading, Bool.and_eq_false_iff, decide_eq_false_iff_not]
    omega
  have htrailing : isTrailing n = false := by
    simp only [isTrailing, Bool.and_eq_false_iff, decide_eq_false_iff_not]
    omega
  cases pieces with
  | nil => simp [joinPieces, hleading, htrailing]
  | cons p rest => cases p <;> simp [joinPieces, hleading, htrailing]

/-- The hexadecimal digits of a control character give its number back. -/
theorem unit?_hexDigit : ∀ n < 0x20,
    unit? '0' '0' (hexDigit (n / 16)) (hexDigit (n % 16)) = some n := by
  decide

theorem readPieces_letter {e c : Char} (hu : e ≠ 'u') (hescape : escape? e = some c)
    (rest : List Char) : readPieces ('\\' :: e :: rest) =
      (readPieces rest).map (fun found => (.char c :: found.1, found.2)) := by
  rw [readPieces, hescape]
  · cases readPieces rest <;> rfl
  · intro a b c d rest' h
    exact absurd h hu

theorem readPieces_plain {c : Char} (hquote : c ≠ '"') (hback : c ≠ '\\')
    (hplain : ¬ c.toNat < 0x20) (rest : List Char) : readPieces (c :: rest) =
      (readPieces rest).map (fun found => (.char c :: found.1, found.2)) := by
  rw [readPieces, if_neg hplain]
  · cases readPieces rest <;> rfl
  · exact hquote
  · intro a b c d rest' h
    exact absurd h hback
  · intro e rest' h
    exact absurd h hback

/-- An escaped character is read as one piece, which stands for it. -/
theorem readPieces_escapeChar (c : Char) : ∃ p,
    (∀ rest, readPieces (escapeChar c ++ rest) =
      (readPieces rest).map (fun found => (p :: found.1, found.2))) ∧
    ∀ pieces, joinPieces (p :: pieces) = (joinPieces pieces).map (c :: ·) := by
  unfold escapeChar
  split
  · exact ⟨_, readPieces_letter (by decide) rfl, fun pieces => rfl⟩
  · exact ⟨_, readPieces_letter (by decide) rfl, fun pieces => rfl⟩
  · exact ⟨_, readPieces_letter (by decide) rfl, fun pieces => rfl⟩
  · exact ⟨_, readPieces_letter (by decide) rfl, fun pieces => rfl⟩
  · exact ⟨_, readPieces_letter (by decide) rfl, fun pieces => rfl⟩
  · exact ⟨_, readPieces_letter (by decide) rfl, fun pieces => rfl⟩
  · exact ⟨_, readPieces_letter (by decide) rfl, fun pieces => rfl⟩
  · rename_i hquote hback _ _ _ _ _
    split
    · rename_i hcontrol
      refine ⟨.unit c.toNat, ?_, ?_⟩
      · intro rest
        simp only [List.cons_append, List.nil_append, readPieces, unit?_hexDigit _ hcontrol]
        cases readPieces rest <;> rfl
      · intro pieces
        rw [joinPieces_unit hcontrol, Char.ofNat_toNat]
    · rename_i hplain
      exact ⟨.char c, readPieces_plain hquote hback hplain, fun pieces => rfl⟩

/-- A text between quotes is read back, whatever characters it has. -/
theorem readPieces_written (cs rest : List Char) : ∃ pieces,
    readPieces (cs.flatMap escapeChar ++ '"' :: rest) = some (pieces, rest) ∧
      joinPieces pieces = some cs := by
  induction cs with
  | nil => exact ⟨[], rfl, rfl⟩
  | cons c cs ih =>
      obtain ⟨pieces, hread, hjoin⟩ := ih
      obtain ⟨p, hp, hjoinp⟩ := readPieces_escapeChar c
      refine ⟨p :: pieces, ?_, ?_⟩
      · rw [List.flatMap_cons, List.append_assoc, hp, hread]
        rfl
      · rw [hjoinp, hjoin]
        rfl

theorem readValue_text (s : String) (fuel : Nat) (rest : List Char) :
    readValue (fuel + 1) (textChars s ++ rest) = (.text (some s), rest) := by
  obtain ⟨pieces, hread, hjoin⟩ := readPieces_written s.toList rest
  have hchars : textChars s ++ rest = '"' :: (s.toList.flatMap escapeChar ++ '"' :: rest) := by
    simp only [textChars, List.cons_append, List.append_assoc, List.nil_append]
  have hblank : skipBlanks ('"' :: (s.toList.flatMap escapeChar ++ '"' :: rest)) =
      '"' :: (s.toList.flatMap escapeChar ++ '"' :: rest) := List.dropWhile_cons_of_neg (by decide)
  rw [hchars, readValue, hblank]
  simp only [hread, hjoin, Option.map_some, String.ofList_toList]

/-- Every text is read as it was written. Quotes, backslashes and control characters are
escaped, and all other characters stand for themselves. -/
theorem reads_text (s : String) : Reads (textChars s) (.text (some s)) := by
  intro fuel rest hfuel _
  obtain ⟨fuel, rfl⟩ := Nat.exists_eq_add_one_of_ne_zero (Nat.ne_zero_of_lt hfuel)
  exact readValue_text s fuel rest

end Texts

section Numbers

def numeral (i : Int) : Numeral :=
  ⟨decide (i < 0), (digits i.natAbs).map (fun c => c.toNat - '0'.toNat), [], none⟩

theorem isDigit_of_ends {c : Char} {rest : List Char} (h : Ends (c :: rest)) :
    c.isDigit = false := by
  rcases h with rfl | rfl <;> rfl

theorem digitsOf_digits (n : Nat) {rest : List Char} (hends : Ends rest) :
    digitsOf (digits n ++ rest) = ((digits n).map (fun c => c.toNat - '0'.toNat), rest) := by
  have hdigits : ∀ c ∈ digits n, c.isDigit = true := fun _ => Decimal.isDigit_of_mem_digits
  rw [digitsOf, List.takeWhile_append_of_pos hdigits, List.dropWhile_append_of_pos hdigits]
  cases rest with
  | nil => simp only [List.takeWhile_nil, List.dropWhile_nil, List.append_nil]
  | cons c rest =>
      have hstop := isDigit_of_ends hends
      simp only [List.takeWhile_cons, List.dropWhile_cons, hstop, Bool.false_eq_true, if_false,
        List.append_nil]

/-- A whole number is written without leading zeros, so its literal is accepted. -/
theorem readWhole_digits (n : Nat) {rest : List Char} (hends : Ends rest) :
    readWhole (digits n ++ rest) =
      some ((digits n).map (fun c => c.toNat - '0'.toNat), rest) := by
  rw [readWhole, digitsOf_digits n hends]
  obtain ⟨c, tail, hdigits, -, -⟩ := Decimal.digits_eq_cons n
  rw [hdigits, List.map_cons]
  split
  · rename_i heq
    cases heq
  · rename_i d more _ heq
    obtain ⟨hhead, htail⟩ := List.cons.inj (Prod.mk.inj heq).1
    have hc : c.isDigit = true := Decimal.isDigit_of_mem_digits (hdigits ▸ List.mem_cons_self)
    have hzero : c = '0' := by
      simp only [Char.isDigit, Bool.and_eq_true, decide_eq_true_eq] at hc
      have hlow : '0'.toNat ≤ c.toNat := UInt32.le_iff_toNat_le.mp hc.1
      have hnat : c.toNat = '0'.toNat := by omega
      rw [← Char.ofNat_toNat c, hnat]
      rfl
    rw [hzero] at hdigits
    rw [Decimal.digits_leading_zero hdigits] at htail
    cases htail
  · rfl

theorem readUnsigned_digits (negative : Bool) (n : Nat) {rest : List Char} (hends : Ends rest) :
    readUnsigned negative (digits n ++ rest) =
      some (⟨negative, (digits n).map (fun c => c.toNat - '0'.toNat), [], none⟩, rest) := by
  simp only [readUnsigned, readWhole_digits n hends]
  cases rest with
  | nil => rfl
  | cons c rest => rcases hends with rfl | rfl <;> rfl

/-- An integer is read as its own literal, with a minus sign if it is negative. -/
theorem readNumeral_int (i : Int) {rest : List Char} (hends : Ends rest) :
    readNumeral (intChars i ++ rest) = some (numeral i, rest) := by
  cases i with
  | ofNat n =>
      obtain ⟨c, tail, hdigits, -, hminus⟩ := Decimal.digits_eq_cons n
      have hnegative : decide (Int.ofNat n < 0) = false :=
        decide_eq_false (Int.not_lt.mpr (Int.natCast_nonneg n))
      rw [intChars, numeral, hnegative]
      have hread := readUnsigned_digits false n hends
      have hunsigned : readNumeral (digits n ++ rest) = readUnsigned false (digits n ++ rest) := by
        rw [hdigits, List.cons_append, readNumeral]
        intro cs heq
        exact hminus (List.cons.inj heq).1
      exact hunsigned.trans hread
  | negSucc n =>
      have hnegative : decide (Int.negSucc n < 0) = true := decide_eq_true (by omega)
      rw [intChars, numeral, hnegative, List.cons_append, readNumeral]
      exact readUnsigned_digits true (n + 1) hends

theorem readValue_numeral {c : Char} (hc : c.isDigit = true ∨ c = '-') (fuel : Nat)
    (cs : List Char) : readValue (fuel + 1) (c :: cs) =
      match readNumeral (c :: cs) with
      | some (n, rest) => (.number n, rest)
      | none => (.broken, []) := by
  have hne {d : Char} (hd : d.isDigit = false) (hminus : d ≠ '-') : c ≠ d := by
    rintro rfl
    rcases hc with hdigit | rfl
    · exact absurd hdigit (by rw [hd]; exact Bool.false_ne_true)
    · exact hminus rfl
  have hblank : skipBlanks (c :: cs) = c :: cs := by
    refine List.dropWhile_cons_of_neg ?_
    simp only [Bool.or_eq_true, decide_eq_true_eq, not_or]
    exact ⟨⟨⟨hne rfl (by decide), hne rfl (by decide)⟩, hne rfl (by decide)⟩,
      hne rfl (by decide)⟩
  rw [readValue, hblank]
  split
  · rename_i heq
    exact absurd (List.cons.inj heq).1 (hne rfl (by decide))
  · rename_i heq
    exact absurd (List.cons.inj heq).1 (hne rfl (by decide))
  · rename_i heq
    exact absurd (List.cons.inj heq).1 (hne rfl (by decide))
  · rename_i heq
    exact absurd (List.cons.inj heq).1 (hne rfl (by decide))
  · rename_i heq
    exact absurd (List.cons.inj heq).1 (hne rfl (by decide))
  · rename_i heq
    exact absurd (List.cons.inj heq).1 (hne rfl (by decide))
  · rfl

theorem intChars_eq_cons (i : Int) :
    ∃ c cs, intChars i = c :: cs ∧ (c.isDigit = true ∨ c = '-') := by
  cases i with
  | ofNat n =>
      obtain ⟨c, cs, hdigits, -, -⟩ := Decimal.digits_eq_cons n
      exact ⟨c, cs, hdigits, .inl (Decimal.isDigit_of_mem_digits (hdigits ▸ List.mem_cons_self))⟩
  | negSucc n => exact ⟨'-', digits (n + 1), rfl, .inr rfl⟩

/-- Every integer is read as the literal that it was written as, of whatever size. -/
theorem reads_int (i : Int) : Reads (intChars i) (.number (numeral i)) := by
  intro fuel rest hfuel hends
  obtain ⟨fuel, rfl⟩ := Nat.exists_eq_add_one_of_ne_zero (Nat.ne_zero_of_lt hfuel)
  have hread := readNumeral_int i hends
  obtain ⟨c, cs, hchars, hc⟩ := intChars_eq_cons i
  rw [hchars, List.cons_append] at hread ⊢
  rw [readValue_numeral hc, hread]

theorem wholeValue_numeral (i : Int) : (numeral i).wholeValue = i.natAbs := by
  rw [Numeral.wholeValue, numeral, List.foldl_map]
  exact Decimal.value_digits i.natAbs

/-- A literal that fits 64 bits is the integer that it was written for. -/
theorem number_numeral {i : Int} (hlow : -0x8000000000000000 ≤ i)
    (hhigh : i < 0x10000000000000000) : (numeral i).number = .integer i := by
  simp only [Numeral.number, wholeValue_numeral]
  rw [if_pos ⟨rfl, rfl⟩]
  by_cases hnegative : i < 0
  · have hsign : (numeral i).negative = true := decide_eq_true hnegative
    rw [hsign, if_pos rfl, if_pos (by omega)]
    congr 1
    omega
  · have hsign : (numeral i).negative = false := decide_eq_false hnegative
    rw [hsign, if_neg Bool.false_ne_true, if_pos (by omega)]
    congr 1
    omega

end Numbers

section Objects

/-- A member of an object: its name, and its value as written and as read. -/
structure Member where
  name : String
  chars : List Char
  value : Json

def Member.written (m : Member) : String × List Char := (m.name, m.chars)

def Member.read (m : Member) : Json × Json := (.text (some m.name), m.value)

theorem skipBlanks_cons {c : Char} (hc : c = ':' ∨ c = ',' ∨ c = '}' ∨ c = '"')
    (cs : List Char) : skipBlanks (c :: cs) = c :: cs := by
  rcases hc with rfl | rfl | rfl | rfl <;> exact List.dropWhile_cons_of_neg (by decide)

theorem memberChars_eq_cons (first : String × List Char) (more : List (String × List Char)) :
    ∃ cs, memberChars (first :: more) = '"' :: cs := by
  cases more with
  | nil => exact ⟨_, rfl⟩
  | cons second more => exact ⟨_, rfl⟩

/-- A name, its colon and the value, up to what follows the value. -/
theorem readMember_written {m : Member} (h : Reads m.chars m.value) {fuel : Nat} {rest : List Char}
    (hfuel : (textChars m.name ++ ':' :: m.chars).length < fuel + 1) (hends : Ends rest) :
    readValue fuel (textChars m.name ++ ':' :: m.chars ++ rest) =
        (.text (some m.name), ':' :: m.chars ++ rest) ∧
      readValue fuel (m.chars ++ rest) = (m.value, rest) := by
  have hname : (textChars m.name).length ≠ 0 := by simp [textChars]
  rw [List.length_append, List.length_cons] at hfuel
  obtain ⟨fuel, rfl⟩ := Nat.exists_eq_add_one_of_ne_zero (n := fuel) (by omega)
  refine ⟨?_, h (fuel + 1) rest (by omega) hends⟩
  rw [List.append_assoc]
  exact readValue_text m.name fuel _

/-- The members of an object are read one after the other, up to its closing brace. The fuel
is more than the characters, so it does not run out. -/
theorem readMembers_written {first : Member} {more : List Member}
    (h : ∀ m ∈ first :: more, Reads m.chars m.value) {fuel : Nat} (rest : List Char)
    (hfuel : (memberChars ((first :: more).map Member.written)).length < fuel) :
    readMembers fuel (memberChars ((first :: more).map Member.written) ++ '}' :: rest) =
      ((first :: more).map Member.read, true, rest) := by
  induction more generalizing first fuel with
  | nil =>
      obtain ⟨fuel, rfl⟩ := Nat.exists_eq_add_one_of_ne_zero (Nat.ne_zero_of_lt hfuel)
      have hends : Ends ('}' :: rest) := .inr rfl
      obtain ⟨hname, hvalue⟩ := readMember_written (h first List.mem_cons_self) hfuel hends
      have hcolon := skipBlanks_cons (.inl rfl) (first.chars ++ '}' :: rest)
      have hclose := skipBlanks_cons (.inr (.inr (.inl rfl))) rest
      simp only [List.map_cons, List.map_nil, Member.written, memberChars, readMembers, hname,
        List.cons_append, hcolon, hvalue, hclose]
      rfl
  | cons second more ih =>
      obtain ⟨fuel, rfl⟩ := Nat.exists_eq_add_one_of_ne_zero (Nat.ne_zero_of_lt hfuel)
      have hwritten : memberChars ((first :: second :: more).map Member.written) =
          textChars first.name ++ ':' :: first.chars ++
            ',' :: memberChars ((second :: more).map Member.written) := rfl
      rw [hwritten, List.length_append, List.length_cons] at hfuel
      have hfirst : (textChars first.name ++ ':' :: first.chars).length < fuel + 1 := by omega
      have hrest : (memberChars ((second :: more).map Member.written)).length < fuel := by omega
      have hmore := ih (fun m hm => h m (List.mem_cons_of_mem _ hm)) hrest
      obtain ⟨cs, hcs⟩ := memberChars_eq_cons second.written (more.map Member.written)
      rw [List.map_cons, hcs, List.cons_append] at hmore
      have hends : Ends (',' :: '"' :: cs ++ '}' :: rest) := .inl rfl
      obtain ⟨hname, hvalue⟩ := readMember_written (h first List.mem_cons_self) hfirst hends
      have hcolon := skipBlanks_cons (.inl rfl) (first.chars ++ (',' :: '"' :: cs ++ '}' :: rest))
      have hcomma := skipBlanks_cons (.inr (.inl rfl)) ('"' :: cs ++ '}' :: rest)
      have hquote := skipBlanks_cons (.inr (.inr (.inr rfl))) (cs ++ '}' :: rest)
      rw [hwritten, List.map_cons, hcs, List.append_assoc]
      simp only [List.cons_append] at hname hvalue hcolon hcomma hquote ⊢
      simp only [readMembers, hname, hcolon, hvalue, hcomma, hquote]
      split
      · rename_i heq
        cases heq
      · rw [hmore]
        rfl

/-- An object is read as its members, if each of these is read as its value. -/
theorem reads_object {members : List Member} (h : ∀ m ∈ members, Reads m.chars m.value) :
    Reads (objectChars (members.map Member.written)) (.object (members.map Member.read) true) := by
  intro fuel rest hfuel _
  obtain ⟨fuel, rfl⟩ := Nat.exists_eq_add_one_of_ne_zero (Nat.ne_zero_of_lt hfuel)
  have hopen (cs : List Char) : skipBlanks ('{' :: cs) = '{' :: cs :=
    List.dropWhile_cons_of_neg (by decide)
  cases members with
  | nil =>
      have hclose := skipBlanks_cons (.inr (.inr (.inl rfl))) rest
      simp only [objectChars, memberChars, List.map_nil, List.nil_append, List.cons_append,
        readValue, hopen, hclose]
  | cons first more =>
      have hlength : (memberChars ((first :: more).map Member.written)).length < fuel := by
        simp only [objectChars, List.cons_append, List.length_cons, List.length_append,
          List.length_nil] at hfuel
        omega
      have hmembers := readMembers_written h rest hlength
      obtain ⟨cs, hcs⟩ := memberChars_eq_cons first.written (more.map Member.written)
      have hquote := skipBlanks_cons (.inr (.inr (.inr rfl))) (cs ++ '}' :: rest)
      rw [List.map_cons, hcs] at hmembers
      rw [List.map_cons, objectChars, hcs]
      simp only [List.cons_append, List.append_assoc, List.nil_append] at hmembers ⊢
      simp only [readValue, hopen, hquote]
      split
      · rename_i heq
        cases heq
      · rw [hmembers]

end Objects

/-- A text that is one value is read as that, and is well formed. -/
theorem read_of_reads {s : String} {v : Json} (h : Reads s.toList v) : read s = (v, true) := by
  have hvalue := h (2 * s.toList.length + 2) [] (by omega) trivial
  rw [List.append_nil] at hvalue
  simp only [read, hvalue]
  rfl

end Json

end Rollcall
