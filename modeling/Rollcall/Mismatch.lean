import Rollcall.Decimal.Integer
import Rollcall.Text.Quoted

/-!
Why a well-formed document does not describe the value that was asked for:
what stood there, what was expected instead, and the wording of both.
-/

namespace Rollcall

/-- What a reader met where it expected something else. A floating point number
is given by its text, which each document format lays out in its own way. -/
inductive Found where
  | integer (value : Int)
  /-- An integer that 64 bits do not hold, but 128 do. -/
  | wideInteger (value : Int)
  | float (text : String)
  | boolean (value : Bool)
  | string (value : String)
  | null
  | map
  | sequence
deriving DecidableEq, Repr

def Found.describe : Found → String
  | .integer value => "integer `" ++ Decimal.showInt value ++ "`"
  | .wideInteger value =>
      "integer `" ++ Decimal.showInt value ++
        (if value < 0x80000000000000000000000000000000 then "` as i128" else "` as u128")
  | .float text => "floating point `" ++ text ++ "`"
  | .boolean value => "boolean `" ++ (if value then "true" else "false") ++ "`"
  | .string value => "string " ++ Text.quoted value
  | .null => "null"
  | .map => "map"
  | .sequence => "sequence"

inductive Mismatch where
  | missingField (name : String)
  | duplicateField (name : String)
  | wrongLength (length : Nat) (expected : String)
  | wrongType (found : Found) (expected : String)
  | outOfRange (found : Found) (expected : String)
  | unknownVariant (name : String) (known : List String)
  | notVariant
  /-- A table that names a variant has one entry. -/
  | notSingle (entries : Nat)
  | notEmpty (kind : String)
  | notTable (kind : String)
deriving DecidableEq, Repr

namespace Mismatch

def inTicks (name : String) : String := "`" ++ name ++ "`"

/-- Two names are joined by a word, more are listed. -/
def oneOf : List String → String
  | [] => "there are no variants"
  | [a] => "expected " ++ inTicks a
  | [a, b] => "expected " ++ inTicks a ++ " or " ++ inTicks b
  | names => "expected one of " ++ String.intercalate ", " (names.map inTicks)

def message : Mismatch → String
  | .missingField name => "missing field " ++ inTicks name
  | .duplicateField name => "duplicate field " ++ inTicks name
  | .wrongLength length expected =>
      "invalid length " ++ Decimal.showNat length ++ ", expected " ++ expected
  | .wrongType found expected =>
      "invalid type: " ++ found.describe ++ ", expected " ++ expected
  | .outOfRange found expected =>
      "invalid value: " ++ found.describe ++ ", expected " ++ expected
  | .unknownVariant name known => "unknown variant " ++ inTicks name ++ ", " ++ oneOf known
  | .notVariant => "wanted string or table"
  | .notSingle entries =>
      "wanted exactly 1 element, " ++
        (if entries = 0 then "found 0 elements" else "more than 1 element")
  | .notEmpty kind => "expected empty " ++ kind
  | .notTable kind => "expected table, found " ++ kind

end Mismatch

/-- Reading fails because the text is no document of its format, or because the
document does not describe the value. -/
inductive ReadFault where
  | malformed
  | mismatch (cause : Mismatch)
deriving DecidableEq, Repr

end Rollcall
