import Rollcall.Json.Numeral

/-!
JSON documents as far as they can be read. A text is read into a tree once; where
it stops being well formed the tree says so, and whoever walks the tree in
reading order meets that spot, or a mismatch before it, in the order in which
the text shows them.
-/

namespace Rollcall

/-- An array or object is `closed` if the text goes on well formed up to its
closing bracket. The content of a text is missing if its escapes form no
characters; the key of a member may stand where the text breaks off. -/
inductive Json where
  | null
  | bool (value : Bool)
  | number (numeral : Json.Numeral)
  | text (content : Option String)
  | array (items : List Json) (closed : Bool)
  | object (members : List (Json × Json)) (closed : Bool)
  | broken

namespace Json

/-- What a typed reader reports to have found; reading the value itself may fail
first. -/
def found : Json → Except ReadFault Found
  | .null => .ok .null
  | .bool value => .ok (.boolean value)
  | .number numeral =>
      match numeral.number with
      | .integer value => .ok (.integer value)
      | .float value => .ok (.float (floatLayout.showFloat value))
      | .tooLarge => .error .malformed
  | .text (some content) => .ok (.string content)
  | .text none => .error .malformed
  | .array .. => .ok .sequence
  | .object .. => .ok .map
  | .broken => .error .malformed

def wrongType {α : Type} (v : Json) (expected : String) : Except ReadFault α := do
  throw (.mismatch (.wrongType (← v.found) expected))

/-- An integer between `low` and `high`. -/
def integer (low high : Int) (expected : String) (v : Json) : Except ReadFault Int :=
  match v with
  | .number numeral =>
      match numeral.number with
      | .integer value =>
          if low ≤ value ∧ value ≤ high then .ok value
          else .error (.mismatch (.outOfRange (.integer value) expected))
      | _ => v.wrongType expected
  | _ => v.wrongType expected

def nat64 (v : Json) : Except ReadFault Nat :=
  (v.integer 0 (0x10000000000000000 - 1) "u64").map Int.toNat

def int64 (v : Json) : Except ReadFault Int :=
  v.integer (-0x8000000000000000) (0x8000000000000000 - 1) "i64"

def string (v : Json) : Except ReadFault String :=
  match v with
  | .text (some content) => .ok content
  | _ => v.wrongType "a string"

/-- A member's key must be a text. -/
def key : Json → Except ReadFault String
  | .text (some content) => .ok content
  | _ => .error .malformed

mutual

/-- Is the value well formed to its end? Nothing more is asked of a value that
is skipped. -/
def isWhole : Json → Bool
  | .null | .bool _ | .number _ | .text _ => true
  | .array items closed => closed && areWhole items
  | .object members closed => closed && areWholeMembers members
  | .broken => false

def areWhole : List Json → Bool
  | [] => true
  | v :: rest => isWhole v && areWhole rest

def areWholeMembers : List (Json × Json) → Bool
  | [] => true
  | (k, v) :: rest => k matches .text _ && isWhole v && areWholeMembers rest

end

def skip (v : Json) : Except ReadFault Unit :=
  if v.isWhole then .ok () else .error .malformed

/-- A map from texts to texts; of members with one key the last wins. -/
def stringMembers : List (Json × Json) → Except ReadFault (List (String × String))
  | [] => .ok []
  | (k, v) :: rest => do
      let k ← k.key
      let v ← v.string
      return (k, v) :: (← stringMembers rest)

def stringMap (v : Json) : Except ReadFault (List (String × String)) :=
  match v with
  | .object members closed => do
      let rows ← stringMembers members
      if closed then .ok rows else .error .malformed
  | _ => v.wrongType "a map"

end Json

end Rollcall
