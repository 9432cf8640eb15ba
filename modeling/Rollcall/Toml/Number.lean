/-!
Numbers and moments of time as TOML writes them. Underscores may stand between
two digits; a decimal integer has no leading zero. Of a moment only the form and
the ranges of its parts matter here, because no setting is one.
-/

namespace Rollcall.Toml

/-- A double as it is written. -/
inductive FloatLiteral where
  /-- The value is `significand * 10 ^ exponent`. -/
  | decimal (negative : Bool) (significand : Nat) (exponent : Int)
  | infinity (negative : Bool)
  | notANumber
deriving DecidableEq, Repr

namespace FloatLiteral

def signed (negative : Bool) (x : Float) : Float := if negative then -x else x

/-- The nearest double. Powers far beyond the range of doubles need no computing. -/
def nearest (significand : Nat) (exponent : Int) : Float :=
  let power := exponent + ((Nat.toDigits 10 significand).length : Int)
  if significand = 0 ∨ power < -400 then 0.0
  else if 400 < power then 1.0 / 0.0
  else Float.ofScientific significand (exponent < 0) exponent.natAbs

/-- A decimal too large for a finite double has no value. -/
def value? : FloatLiteral → Option Float
  | .decimal negative significand exponent =>
      let x := nearest significand exponent
      if x.isInf then none else some (signed negative x)
  | .infinity negative => some (signed negative (1.0 / 0.0))
  | .notANumber => some (0.0 / 0.0)

end FloatLiteral

inductive Scalar where
  | integer (value : Int)
  | float (literal : FloatLiteral)
  | boolean (value : Bool)
  | moment
deriving DecidableEq, Repr

namespace Scalar

def digitValue (c : Char) : Nat :=
  if c.isDigit then c.toNat - '0'.toNat else c.toLower.toNat - 'a'.toNat + 10

def isHexDigit (c : Char) : Bool :=
  c.isDigit || ('a' ≤ c && c ≤ 'f') || ('A' ≤ c && c ≤ 'F')

def isOctalDigit (c : Char) : Bool := '0' ≤ c && c ≤ '7'

def isBinaryDigit (c : Char) : Bool := c = '0' || c = '1'

/-- The digits of a run in which single underscores may stand between two. -/
def separated (isDigit : Char → Bool) : List Char → Option (List Nat)
  | [] => none
  | [c] => if isDigit c then some [digitValue c] else none
  | c :: '_' :: rest =>
      if isDigit c then (separated isDigit rest).map (digitValue c :: ·) else none
  | c :: rest =>
      if isDigit c then (separated isDigit rest).map (digitValue c :: ·) else none

def ofDigits (base : Nat) (ds : List Nat) : Nat := ds.foldl (fun n d => base * n + d) 0

def splitSign : List Char → Bool × List Char
  | '-' :: rest => (true, rest)
  | '+' :: rest => (false, rest)
  | cs => (false, cs)

/-- Decimal digits without a leading zero. -/
def decimalDigits (cs : List Char) : Option (List Nat) :=
  match separated Char.isDigit cs with
  | some (0 :: _ :: _) => none
  | found => found

/-- A sign goes with decimal digits only. -/
def integer? : List Char → Option Int
  | '0' :: 'x' :: cs => (separated isHexDigit cs).map (fun ds => (ofDigits 16 ds : Int))
  | '0' :: 'o' :: cs => (separated isOctalDigit cs).map (fun ds => (ofDigits 8 ds : Int))
  | '0' :: 'b' :: cs => (separated isBinaryDigit cs).map (fun ds => (ofDigits 2 ds : Int))
  | cs =>
      let (negative, cs) := splitSign cs
      (decimalDigits cs).map (fun ds =>
        if negative then -(ofDigits 10 ds : Int) else (ofDigits 10 ds : Int))

/-- The parts before and after the first character that is wanted. -/
def splitAt? (wanted : Char → Bool) (cs : List Char) : List Char × Option (List Char) :=
  match cs.dropWhile (fun c => !wanted c) with
  | [] => (cs, none)
  | _ :: rest => (cs.takeWhile (fun c => !wanted c), some rest)

def exponent? : Option (List Char) → Option Int
  | none => some 0
  | some cs =>
      let (negative, cs) := splitSign cs
      (separated Char.isDigit cs).map (fun ds =>
        if negative then -(ofDigits 10 ds : Int) else (ofDigits 10 ds : Int))

def fraction? : Option (List Char) → Option (List Nat)
  | none => some []
  | some cs => separated Char.isDigit cs

/-- Digits with a fraction, an exponent, or both. -/
def decimal? (negative : Bool) (cs : List Char) : Option FloatLiteral := do
  let (mantissa, exponent) := splitAt? (fun c => c = 'e' || c = 'E') cs
  let (whole, fraction) := splitAt? (· = '.') mantissa
  if exponent.isNone && fraction.isNone then none
  else
    let whole ← decimalDigits whole
    let fraction ← fraction? fraction
    let exponent ← exponent? exponent
    return .decimal negative (ofDigits 10 (whole ++ fraction)) (exponent - fraction.length)

def float? (cs : List Char) : Option FloatLiteral :=
  let (negative, cs) := splitSign cs
  match cs with
  | ['i', 'n', 'f'] => some (.infinity negative)
  | ['n', 'a', 'n'] => some .notANumber
  | cs => decimal? negative cs

/-! Moments. -/

/-- `n` digits and what follows them. -/
def fixed (n : Nat) (cs : List Char) : Option (Nat × List Char) :=
  let ds := cs.take n
  if ds.length = n && ds.all Char.isDigit then
    some (ofDigits 10 (ds.map digitValue), cs.drop n)
  else none

def skip (c : Char) : List Char → Option (List Char)
  | d :: rest => if d = c then some rest else none
  | [] => none

def isLeapYear (year : Nat) : Bool := year % 4 = 0 && (year % 100 ≠ 0 || year % 400 = 0)

def daysIn (year month : Nat) : Nat :=
  if month = 2 then (if isLeapYear year then 29 else 28)
  else if [4, 6, 9, 11].contains month then 30
  else 31

def date (cs : List Char) : Option (List Char) := do
  let (year, cs) ← fixed 4 cs
  let (month, cs) ← fixed 2 (← skip '-' cs)
  let (day, cs) ← fixed 2 (← skip '-' cs)
  if 1 ≤ month ∧ month ≤ 12 ∧ 1 ≤ day ∧ day ≤ daysIn year month then some cs else none

def secondFraction : List Char → Option (List Char)
  | '.' :: cs =>
      match cs.takeWhile Char.isDigit with
      | [] => none
      | _ => some (cs.dropWhile Char.isDigit)
  | cs => some cs

/-- The seconds may be left out. A minute may have a leap second. -/
def time (cs : List Char) : Option (List Char) := do
  let (hour, cs) ← fixed 2 cs
  let (minute, cs) ← fixed 2 (← skip ':' cs)
  if 23 < hour ∨ 59 < minute then none
  else
    match cs with
    | ':' :: cs =>
        let (second, cs) ← fixed 2 cs
        if 60 < second then none else secondFraction cs
    | cs => some cs

def offset : List Char → Option (List Char)
  | 'Z' :: cs | 'z' :: cs => some cs
  | '+' :: cs | '-' :: cs => do
      let (hour, cs) ← fixed 2 cs
      let (minute, cs) ← fixed 2 (← skip ':' cs)
      if 23 < hour ∨ 59 < minute then none else some cs
  | cs => some cs

def timeWithOffset (cs : List Char) : Option (List Char) := (time cs).bind offset

/-- A date, a time, or both, and then possibly an offset. -/
def isMoment (cs : List Char) : Bool :=
  match date cs with
  | some [] => true
  | some (c :: rest) =>
      (c = 'T' || c = 't' || c = ' ') && timeWithOffset rest = some []
  | none => time cs = some []

def ofChars? : List Char → Option Scalar
  | ['t', 'r', 'u', 'e'] => some (.boolean true)
  | ['f', 'a', 'l', 's', 'e'] => some (.boolean false)
  | cs =>
      match integer? cs with
      | some n => some (.integer n)
      | none =>
          match float? cs with
          | some literal => some (.float literal)
          | none => if isMoment cs then some .moment else none

/-! Scalars in a text. -/

def isScalarChar (c : Char) : Bool :=
  c.isAlphanum || c = '+' || c = '-' || c = '.' || c = '_' || c = ':'

/-- The characters of a scalar. One blank may stand between a date and a time. -/
def splitChars (cs : List Char) : List Char × List Char :=
  let first := cs.takeWhile isScalarChar
  let rest := cs.dropWhile isScalarChar
  match date first, rest with
  | some [], ' ' :: c :: rest' =>
      if c.isDigit then
        (first ++ ' ' :: (c :: rest').takeWhile isScalarChar, (c :: rest').dropWhile isScalarChar)
      else (first, rest)
  | _, _ => (first, rest)

def read (cs : List Char) : Option (Scalar × List Char) :=
  let (token, rest) := splitChars cs
  (ofChars? token).map (fun scalar => (scalar, rest))

end Scalar

end Rollcall.Toml
