import Rollcall.Decimal.Integer

/-!
The fewest decimal digits that read back as a given double. A positive finite
double is `m * 2 ^ q`; the reals that round to it form an interval, closed when
`m` is even. On each decimal grid, coarse to fine, only the two neighbours of
the value can lie in that interval, and the nearer one is taken. All
arithmetic is exact.
-/

namespace Rollcall.Decimal

/-- The value is `coefficient * 10 ^ exponent`. -/
structure Scientific where
  coefficient : Nat
  exponent : Int
deriving DecidableEq, Repr

/-- An interval of rationals over one denominator, with a point inside it. -/
structure Neighbourhood where
  low : Nat
  point : Nat
  high : Nat
  denominator : Nat
  closed : Bool

namespace Neighbourhood

/-- The reals that round to the positive finite double with these bits. -/
def ofBits (bits : Nat) : Neighbourhood :=
  let fraction : Nat := bits % 0x10000000000000
  let biased : Nat := bits / 0x10000000000000 % 0x800
  let m : Nat := if biased = 0 then fraction else 0x10000000000000 + fraction
  let q : Int := (if biased = 0 then 1 else (biased : Int)) - 1075
  let below := if fraction = 0 ∧ 1 < biased then 1 else 2
  let up := Nat.pow 2 (q - 2).toNat
  ⟨(4 * m - below) * up, 4 * m * up, (4 * m + 2) * up, Nat.pow 2 (2 - q).toNat, m % 2 == 0⟩

/-- Does `n / d` lie in the interval? -/
def holds (v : Neighbourhood) (n d : Nat) : Bool :=
  let left := v.low * d
  let right := v.high * d
  let x := n * v.denominator
  if v.closed then left ≤ x && x ≤ right else left < x && x < right

/-- The neighbour of the value on the grid of multiples of `10 ^ e` that lies in
the interval; of two the nearer, of two equally near the even one. -/
def onGrid? (v : Neighbourhood) (e : Int) : Option Scientific :=
  let up := Nat.pow 10 e.toNat
  let down := Nat.pow 10 (-e).toNat
  let floor := v.point * down / (v.denominator * up)
  let lower := 0 < floor && v.holds (floor * up) down
  let upper := v.holds ((floor + 1) * up) down
  let twice := 2 * v.point * down
  let middle := (2 * floor + 1) * (v.denominator * up)
  match lower, upper with
  | false, false => none
  | true, false => some ⟨floor, e⟩
  | false, true => some ⟨floor + 1, e⟩
  | true, true =>
      if twice < middle ∨ (twice = middle ∧ floor % 2 = 0) then some ⟨floor, e⟩
      else some ⟨floor + 1, e⟩

/-- Tries `n` grids, each ten times finer than the one before. -/
def firstGrid? (v : Neighbourhood) : Nat → Int → Option Scientific
  | 0, _ => none
  | n + 1, e => (v.onGrid? e).or (v.firstGrid? n (e - 1))

end Neighbourhood

/-- The fewest digits for the positive finite double with these bits; every such
double lies between `10 ^ -324` and `10 ^ 309`. A grid that is hit first has no
coarser one, so the last digit is not zero. -/
def shortest (bits : Nat) : Scientific :=
  ((Neighbourhood.ofBits bits).firstGrid? 660 310).getD ⟨0, 0⟩

/-- How the digits are laid out: numbers whose first digit stands for a power of
ten in `positional` are written without an exponent, all of them if it is
`none`. -/
structure Layout where
  positional : Option (Int × Int)

namespace Layout

def zeros (n : Nat) : List Char := List.replicate n '0'

/-- Digits with the point after the first `power + 1` of them; at least one digit
stands on either side. -/
def place (ds : List Char) (power : Int) : List Char :=
  if power < 0 then
    '0' :: '.' :: zeros (-power - 1).toNat ++ ds
  else
    let whole := power.toNat + 1
    if ds.length ≤ whole then ds ++ zeros (whole - ds.length) ++ ['.', '0']
    else ds.take whole ++ '.' :: ds.drop whole

def exponentChars (power : Int) : List Char :=
  if power < 0 then 'e' :: '-' :: digits (-power).toNat else 'e' :: '+' :: digits power.toNat

def withExponent (ds : List Char) (power : Int) : List Char :=
  match ds with
  | [] => []
  | [d] => d :: exponentChars power
  | d :: rest => d :: '.' :: rest ++ exponentChars power

def finite (layout : Layout) (bits : Nat) : List Char :=
  if bits = 0 then ['0', '.', '0']
  else
    let x := shortest bits
    let ds := digits x.coefficient
    let power := x.exponent + (ds.length : Int) - 1
    match layout.positional with
    | none => place ds power
    | some (low, high) =>
        if low ≤ power ∧ power ≤ high then place ds power else withExponent ds power

/-- The text of the double with these 64 bits. -/
def showBits (layout : Layout) (bits : Nat) : String :=
  let negative := 0x8000000000000000 ≤ bits
  let magnitude := bits % 0x8000000000000000
  let sign := if negative then ['-'] else []
  if magnitude < 0x7FF0000000000000 then String.ofList (sign ++ layout.finite magnitude)
  else if magnitude = 0x7FF0000000000000 then String.ofList (sign ++ ['i', 'n', 'f'])
  else "NaN"

def showFloat (layout : Layout) (x : Float) : String := layout.showBits x.toBits.toNat

end Layout

end Rollcall.Decimal
