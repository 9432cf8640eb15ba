import Rollcall.Decimal.Shortest
import Rollcall.Mismatch

/-!
Number literals and the numbers they stand for. A literal without fraction and
exponent is an integer if it fits 64 bits; any other is a double. A double is
made from as many leading digits as fit 64 bits, scaled by one power of ten.
-/

namespace Rollcall.Json

/-- A literal, with digits as numbers below ten. -/
structure Numeral where
  negative : Bool
  whole : List Nat
  fraction : List Nat
  exponent : Option Int
deriving DecidableEq, Repr

inductive Number where
  | integer (value : Int)
  | float (value : Float)
  | tooLarge

/-- A significand that takes digits while it fits 64 bits. -/
structure Significand where
  value : Nat
  exponent : Int
  full : Bool

namespace Significand

def push (s : Significand) (d : Nat) : Option Significand :=
  if s.full ∨ 0x10000000000000000 ≤ s.value * 10 + d then none
  else some { s with value := s.value * 10 + d }

/-- A whole digit that no longer fits still counts as a power of ten. -/
def pushWhole (s : Significand) (d : Nat) : Significand :=
  (s.push d).getD { s with exponent := s.exponent + 1, full := true }

/-- A fraction digit that no longer fits is dropped with all after it. -/
def pushFraction (s : Significand) (d : Nat) : Significand :=
  match s.push d with
  | some s' => { s' with exponent := s.exponent - 1 }
  | none => { s with full := true }

end Significand

namespace Numeral

def significand (n : Numeral) : Significand :=
  let whole := n.whole.foldl Significand.pushWhole ⟨0, 0, false⟩
  n.fraction.foldl Significand.pushFraction { whole with full := false }

/-- Scales down by steps of `10 ^ 308` until one table entry is enough. -/
def scaleDown : Nat → Float → Nat → Float
  | 0, x, _ => x
  | fuel + 1, x, e =>
      if e ≤ 308 then x / Float.ofScientific 1 false e
      else if x == 0 then x
      else scaleDown fuel (x / Float.ofScientific 1 false 308) (e - 308)

/-- `value * 10 ^ exponent` as a finite double. -/
def scale? (value : Nat) (exponent : Int) : Option Float :=
  let x := Float.ofNat value
  if exponent < 0 then some (scaleDown 5 x (-exponent).toNat)
  else if 308 < exponent then (if x == 0 then some x else none)
  else
    let y := x * Float.ofScientific 1 false exponent.toNat
    if y.isInf then none else some y

def float? (n : Numeral) : Option Float :=
  let s := n.significand
  (scale? s.value (s.exponent + n.exponent.getD 0)).map (fun x => if n.negative then -x else x)

def wholeValue (n : Numeral) : Nat := n.whole.foldl (fun v d => 10 * v + d) 0

def number (n : Numeral) : Number :=
  let asFloat := (n.float?.map Number.float).getD .tooLarge
  if n.fraction = [] ∧ n.exponent = none then
    let v := n.wholeValue
    if n.negative then
      if 0 < v ∧ v ≤ 0x8000000000000000 then .integer (-(v : Int)) else asFloat
    else if v < 0x10000000000000000 then .integer v else asFloat
  else asFloat

end Numeral

/-- Doubles between `10 ^ -5` and `10 ^ 16` are written without an exponent. -/
def floatLayout : Decimal.Layout := ⟨some (-5, 15)⟩

end Rollcall.Json
