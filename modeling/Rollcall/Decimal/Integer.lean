/-!
Integers in decimal text, and reading them back into a fixed range. Faults are
found from left to right: a text that is too long and also holds a stray
character is at fault where the first of the two shows.
-/

namespace Rollcall.Decimal

def digits (n : Nat) : List Char := Nat.toDigits 10 n

def value (cs : List Char) : Nat := Nat.ofDigitChars 10 cs 0

@[simp] theorem value_digits (n : Nat) : value (digits n) = n :=
  Nat.ofDigitChars_toDigits (by decide) (by decide)

theorem isDigit_of_mem_digits {n : Nat} {c : Char} (h : c ∈ digits n) : c.isDigit = true :=
  Nat.isDigit_of_mem_toDigits (by decide) (by decide) h

def showNat (n : Nat) : String := String.ofList (digits n)

def intChars : Int → List Char
  | .ofNat n => digits n
  | .negSucc n => '-' :: digits (n + 1)

def showInt (i : Int) : String := String.ofList (intChars i)

inductive IntFault where
  | empty
  | invalidDigit
  | tooLarge
  | tooSmall
deriving DecidableEq, Repr

def IntFault.message : IntFault → String
  | .empty => "cannot parse integer from empty string"
  | .invalidDigit => "invalid digit found in string"
  | .tooLarge => "number too large to fit in target type"
  | .tooSmall => "number too small to fit in target type"

/-- Reads digits onto `n` while the value stays within `limit`. -/
def readDigits (limit : Nat) (beyond : IntFault) : Nat → List Char → Except IntFault Nat
  | n, [] => .ok n
  | n, c :: cs =>
      if c.isDigit then
        let n' := 10 * n + (c.toNat - '0'.toNat)
        if n' ≤ limit then readDigits limit beyond n' cs else .error beyond
      else .error .invalidDigit

def int64Limit : Nat := 0x8000000000000000

/-- A signed 64-bit integer: an optional sign, then at least one digit. -/
def readInt64Chars : List Char → Except IntFault Int
  | [] => .error .empty
  | ['+'] | ['-'] => .error .invalidDigit
  | '-' :: cs => (readDigits int64Limit .tooSmall 0 cs).map (fun n => -(n : Int))
  | '+' :: cs => (readDigits (int64Limit - 1) .tooLarge 0 cs).map Int.ofNat
  | cs => (readDigits (int64Limit - 1) .tooLarge 0 cs).map Int.ofNat

def readInt64 (s : String) : Except IntFault Int := readInt64Chars s.toList

/-- An unsigned 64-bit integer: an optional `+`, then at least one digit. -/
def readNat64Chars : List Char → Except IntFault Nat
  | [] => .error .empty
  | ['+'] => .error .invalidDigit
  | '+' :: cs => readDigits (0x10000000000000000 - 1) .tooLarge 0 cs
  | cs => readDigits (0x10000000000000000 - 1) .tooLarge 0 cs

def readNat64 (s : String) : Except IntFault Nat := readNat64Chars s.toList

end Rollcall.Decimal
