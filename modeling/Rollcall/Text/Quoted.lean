import Rollcall.Text.Invisible

/-!
Text in double quotes for a reader's eye: the usual escapes, code points in
braces for what cannot be seen, everything else as it stands.
-/

namespace Rollcall.Text

def hexDigits (n : Nat) : String := String.ofList (Nat.toDigits 16 n)

def quotedChar (c : Char) : String :=
  match c with
  | '\x00' => "\\0"
  | '\t' => "\\t"
  | '\r' => "\\r"
  | '\n' => "\\n"
  | '"' => "\\\""
  | '\\' => "\\\\"
  | c =>
      if isInvisible c then "\\u\x7b" ++ hexDigits c.toNat ++ "\x7d"
      else String.ofList [c]

def quoted (s : String) : String :=
  "\"" ++ String.join (s.toList.map quotedChar) ++ "\""

end Rollcall.Text
