import Rollcall.Error
import Rollcall.Json.Reader
import Rollcall.Json.Writer

/-!
Names of a fixed list in JSON: a text, or an object with the name as its one key
and `null` beside it. Error codes and categories are written and read so.
-/

namespace Rollcall

def Json.knownName (names : List String) (name : String) : Except ReadFault String :=
  if names.contains name then .ok name else .error (.mismatch (.unknownVariant name names))

def Json.variantName (names : List String) : Json → Except ReadFault String
  | .text (some name) => knownName names name
  | .object ((k, v) :: rest) closed => do
      let name ← match k with
        | .text (some name) => knownName names name
        | _ => k.wrongType "variant identifier"
      match v with
      | .null => if closed ∧ rest = [] then .ok name else .error .malformed
      | _ => v.wrongType "unit"
  | _ => .error .malformed

/-- Looks a name up among values that have one. -/
def Json.variant {α : Type} (name : α → String) (all : List α) (v : Json) :
    Except ReadFault α := do
  let found ← v.variantName (all.map name)
  match all.find? (fun a => name a = found) with
  | some a => .ok a
  | none => .error .malformed

def ErrorCode.decode (s : String) : Except ReadFault ErrorCode :=
  Json.decode (Json.variant ErrorCode.name ErrorCode.all) s

def ErrorCode.encode (code : ErrorCode) : String :=
  String.ofList (Json.textChars code.name)

def ErrorCategory.decode (s : String) : Except ReadFault ErrorCategory :=
  Json.decode (Json.variant ErrorCategory.name ErrorCategory.all) s

def ErrorCategory.encode (category : ErrorCategory) : String :=
  String.ofList (Json.textChars category.name)

end Rollcall
