import Rollcall.Json.Basic

/-!
Reading a text into a JSON tree. Blanks are space, tab, line feed and carriage
return. Fuel bounds the number of values that are begun; the length of the text
is enough.
-/

namespace Rollcall.Json

def skipBlanks (cs : List Char) : List Char :=
  cs.dropWhile (fun c => c = ' ' || c = '\t' || c = '\n' || c = '\r')

def digitsOf (cs : List Char) : List Nat × List Char :=
  ((cs.takeWhile Char.isDigit).map (fun c => c.toNat - '0'.toNat), cs.dropWhile Char.isDigit)

/-- A leading zero stands alone. -/
def readWhole (cs : List Char) : Option (List Nat × List Char) :=
  match digitsOf cs with
  | ([], _) => none
  | (0 :: _ :: _, _) => none
  | found => some found

def readFraction (cs : List Char) : Option (List Nat × List Char) :=
  match cs with
  | '.' :: rest =>
      match digitsOf rest with
      | ([], _) => none
      | found => some found
  | _ => some ([], cs)

def readExponent (cs : List Char) : Option (Option Int × List Char) :=
  let magnitude (sign : Int) (rest : List Char) : Option (Option Int × List Char) :=
    match digitsOf rest with
    | ([], _) => none
    | (ds, rest) => some (some (sign * ((ds.foldl (fun v d => 10 * v + d) 0 : Nat) : Int)), rest)
  match cs with
  | c :: rest =>
      if c = 'e' ∨ c = 'E' then
        match rest with
        | '+' :: rest => magnitude 1 rest
        | '-' :: rest => magnitude (-1) rest
        | rest => magnitude 1 rest
      else some (none, cs)
  | [] => some (none, cs)

def readUnsigned (negative : Bool) (cs : List Char) : Option (Numeral × List Char) := do
  let (whole, cs) ← readWhole cs
  let (fraction, cs) ← readFraction cs
  let (exponent, cs) ← readExponent cs
  return (⟨negative, whole, fraction, exponent⟩, cs)

def readNumeral : List Char → Option (Numeral × List Char)
  | '-' :: cs => readUnsigned true cs
  | cs => readUnsigned false cs

/-- A piece of a text: a character, or a UTF-16 unit given by its number. -/
inductive Piece where
  | char (c : Char)
  | unit (n : Nat)
deriving DecidableEq, Repr

def hexValue? (c : Char) : Option Nat :=
  if '0' ≤ c ∧ c ≤ '9' then some (c.toNat - '0'.toNat)
  else if 'a' ≤ c ∧ c ≤ 'f' then some (c.toNat - 'a'.toNat + 10)
  else if 'A' ≤ c ∧ c ≤ 'F' then some (c.toNat - 'A'.toNat + 10)
  else none

def unit? (a b c d : Char) : Option Nat := do
  let digits ← [a, b, c, d].mapM hexValue?
  return digits.foldl (fun n digit => n * 16 + digit) 0

def escape? : Char → Option Char
  | '"' => some '"'
  | '\\' => some '\\'
  | '/' => some '/'
  | 'b' => some '\x08'
  | 'f' => some '\x0c'
  | 'n' => some '\n'
  | 'r' => some '\r'
  | 't' => some '\t'
  | _ => none

/-- The pieces up to the closing quote, and what follows it. -/
def readPieces : List Char → Option (List Piece × List Char)
  | [] => none
  | '"' :: rest => some ([], rest)
  | '\\' :: 'u' :: a :: b :: c :: d :: rest => do
      let n ← unit? a b c d
      let (pieces, rest) ← readPieces rest
      return (.unit n :: pieces, rest)
  | '\\' :: c :: rest => do
      let c ← escape? c
      let (pieces, rest) ← readPieces rest
      return (.char c :: pieces, rest)
  | c :: rest =>
      if c.toNat < 0x20 then none
      else do
        let (pieces, rest) ← readPieces rest
        return (.char c :: pieces, rest)

def isLeading (n : Nat) : Bool := 0xD800 ≤ n && n < 0xDC00
def isTrailing (n : Nat) : Bool := 0xDC00 ≤ n && n < 0xE000

/-- A leading unit needs a trailing one right after it, and the reverse. -/
def joinPieces : List Piece → Option (List Char)
  | [] => some []
  | .char c :: rest => (joinPieces rest).map (c :: ·)
  | .unit n :: .unit m :: rest =>
      if isLeading n then
        if isTrailing m then
          (joinPieces rest).map
            (Char.ofNat ((n - 0xD800) * 0x400 + (m - 0xDC00) + 0x10000) :: ·)
        else none
      else if isTrailing n then none
      else (joinPieces (.unit m :: rest)).map (Char.ofNat n :: ·)
  | .unit n :: rest =>
      if isLeading n ∨ isTrailing n then none
      else (joinPieces rest).map (Char.ofNat n :: ·)

mutual

def readValue : Nat → List Char → Json × List Char
  | 0, _ => (.broken, [])
  | fuel + 1, cs =>
      match skipBlanks cs with
      | 'n' :: 'u' :: 'l' :: 'l' :: rest => (.null, rest)
      | 't' :: 'r' :: 'u' :: 'e' :: rest => (.bool true, rest)
      | 'f' :: 'a' :: 'l' :: 's' :: 'e' :: rest => (.bool false, rest)
      | '"' :: rest =>
          match readPieces rest with
          | some (pieces, rest) => (.text ((joinPieces pieces).map String.ofList), rest)
          | none => (.broken, [])
      | '[' :: rest =>
          match skipBlanks rest with
          | ']' :: rest => (.array [] true, rest)
          | rest =>
              let (items, closed, rest) := readItems fuel rest
              (.array items closed, rest)
      | '{' :: rest =>
          match skipBlanks rest with
          | '}' :: rest => (.object [] true, rest)
          | rest =>
              let (members, closed, rest) := readMembers fuel rest
              (.object members closed, rest)
      | cs =>
          match readNumeral cs with
          | some (numeral, rest) => (.number numeral, rest)
          | none => (.broken, [])

/-- At the start of an item. -/
def readItems : Nat → List Char → List Json × Bool × List Char
  | 0, _ => ([], false, [])
  | fuel + 1, cs =>
      let (item, rest) := readValue fuel cs
      match skipBlanks rest with
      | ']' :: rest => ([item], true, rest)
      | ',' :: rest =>
          match skipBlanks rest with
          | ']' :: _ => ([item], false, [])
          | rest =>
              let (items, closed, rest) := readItems fuel rest
              (item :: items, closed, rest)
      | _ => ([item], false, [])

/-- At the start of a key. -/
def readMembers : Nat → List Char → List (Json × Json) × Bool × List Char
  | 0, _ => ([], false, [])
  | fuel + 1, cs =>
      let (k, rest) := readValue fuel cs
      match skipBlanks rest with
      | ':' :: rest =>
          let (v, rest) := readValue fuel rest
          match skipBlanks rest with
          | '}' :: rest => ([(k, v)], true, rest)
          | ',' :: rest =>
              match skipBlanks rest with
              | '}' :: _ => ([(k, v)], false, [])
              | rest =>
                  let (members, closed, rest) := readMembers fuel rest
                  ((k, v) :: members, closed, rest)
          | _ => ([(k, v)], false, [])
      | _ => ([(k, .broken)], false, [])

end

/-- The value that a text begins with, and whether only blanks follow it. -/
def read (s : String) : Json × Bool :=
  let cs := s.toList
  let (v, rest) := readValue (2 * cs.length + 2) cs
  (v, (skipBlanks rest).isEmpty)

/-- Reads a whole text by a typed reader; what follows the value is looked at
last. -/
def decode {α : Type} (reader : Json → Except ReadFault α) (s : String) :
    Except ReadFault α := do
  let (v, complete) := read s
  let a ← reader v
  if complete then .ok a else .error .malformed

end Rollcall.Json
