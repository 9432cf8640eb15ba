import Rollcall.Decimal.Integer

/-!
Writing compact JSON. A quote, a backslash and the control characters below the
space are escaped, by a letter where there is one.
-/

namespace Rollcall.Json

def hexDigit (n : Nat) : Char :=
  if n < 10 then Char.ofNat ('0'.toNat + n) else Char.ofNat ('a'.toNat + (n - 10))

def escapeChar (c : Char) : List Char :=
  match c with
  | '"' => ['\\', '"']
  | '\\' => ['\\', '\\']
  | '\x08' => ['\\', 'b']
  | '\x0c' => ['\\', 'f']
  | '\n' => ['\\', 'n']
  | '\r' => ['\\', 'r']
  | '\t' => ['\\', 't']
  | c =>
      if c.toNat < 0x20 then
        ['\\', 'u', '0', '0', hexDigit (c.toNat / 16), hexDigit (c.toNat % 16)]
      else [c]

def textChars (s : String) : List Char :=
  '"' :: s.toList.flatMap escapeChar ++ ['"']

/-- The members of an object in the order given, from their written values. -/
def memberChars : List (String × List Char) → List Char
  | [] => []
  | [(k, v)] => textChars k ++ ':' :: v
  | (k, v) :: rest => textChars k ++ ':' :: v ++ ',' :: memberChars rest

def objectChars (members : List (String × List Char)) : List Char :=
  '{' :: memberChars members ++ ['}']

end Rollcall.Json
