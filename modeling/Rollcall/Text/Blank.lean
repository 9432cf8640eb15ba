/-!
White space as the Unicode property White_Space lists it, and trimming.
-/

namespace Rollcall.Text

def isBlank (c : Char) : Bool :=
  let n := c.toNat
  (9 ≤ n && n ≤ 13) || n = 0x20 || n = 0x85 || n = 0xA0 || n = 0x1680 ||
    (0x2000 ≤ n && n ≤ 0x200A) || n = 0x2028 || n = 0x2029 || n = 0x202F ||
    n = 0x205F || n = 0x3000

def trimChars (cs : List Char) : List Char :=
  ((cs.dropWhile isBlank).reverse.dropWhile isBlank).reverse

def trim (s : String) : String :=
  String.ofList (trimChars s.toList)

/-- The pieces between the commas of a text, trimmed, without the empty ones. -/
def commaList (s : String) : List String :=
  ((s.toList.splitOn ',').map (fun piece => String.ofList (trimChars piece))).filter (· ≠ "")

end Rollcall.Text
