import Rollcall.Json.Reader
import Rollcall.Json.Writer
import Rollcall.Node

/-!
Nodes as JSON text. The time to live is written in whole milliseconds, as a
64-bit word; the metadata in ascending order of its keys. A node is read from
an object, whose unknown members are skipped, or from an array of the fields in
order; only the metadata may be left out.
-/

namespace Rollcall.Node

open Json (textChars objectChars)

def encodeChars (n : Node) : List Char :=
  objectChars [
    ("ttl_ms", Decimal.digits n.ttl.millisWord),
    ("unique_id", Decimal.intChars n.uniqueId),
    ("service", textChars n.service),
    ("address", textChars n.address),
    ("metadata", objectChars (n.metadata.rows.map (fun row => (row.1, textChars row.2))))]

def encode (n : Node) : String := String.ofList n.encodeChars

/-- The fields read so far. -/
structure Fields where
  ttl : Option Span
  uniqueId : Option Int
  service : Option String
  address : Option String
  metadata : Option (Table String String)

namespace Fields

def none : Fields := ⟨.none, .none, .none, .none, .none⟩

def fresh {α : Type} (field : Option α) (name : String) : Except ReadFault Unit :=
  if field.isSome then .error (.mismatch (.duplicateField name)) else .ok ()

def require {α : Type} (field : Option α) (name : String) : Except ReadFault α :=
  match field with
  | some a => .ok a
  | .none => .error (.mismatch (.missingField name))

def readTtl (v : Json) : Except ReadFault Span := v.nat64.map Span.ofMillis

def readMetadata (v : Json) : Except ReadFault (Table String String) :=
  v.stringMap.map Table.ofList

/-- A repeated field is noticed at its name, before its value is read. -/
def add (f : Fields) (name : String) (v : Json) : Except ReadFault Fields :=
  match name with
  | "ttl_ms" => do fresh f.ttl name; return { f with ttl := some (← readTtl v) }
  | "unique_id" => do fresh f.uniqueId name; return { f with uniqueId := some (← v.int64) }
  | "service" => do fresh f.service name; return { f with service := some (← v.string) }
  | "address" => do fresh f.address name; return { f with address := some (← v.string) }
  | "metadata" => do fresh f.metadata name; return { f with metadata := some (← readMetadata v) }
  | _ => do v.skip; return f

def addAll (f : Fields) : List (Json × Json) → Except ReadFault Fields
  | [] => .ok f
  | (k, v) :: rest => do
      let name ← k.key
      let f ← f.add name v
      f.addAll rest

def node (f : Fields) : Except ReadFault Node := do
  return {
    ttl := ← require f.ttl "ttl_ms"
    uniqueId := ← require f.uniqueId "unique_id"
    service := ← require f.service "service"
    address := ← require f.address "address"
    metadata := f.metadata.getD ∅ }

end Fields

def structName : String := "struct NodeInfo"

/-- The next item of an array that must still hold one. -/
def nextItem (items : List Json) (closed : Bool) (count : Nat) :
    Except ReadFault (Json × List Json) :=
  match items with
  | v :: rest => .ok (v, rest)
  | [] =>
      if closed then .error (.mismatch (.wrongLength count (structName ++ " with 5 elements")))
      else .error .malformed

def ofItems (items : List Json) (closed : Bool) : Except ReadFault Node := do
  let (v, items) ← nextItem items closed 0
  let ttl ← Fields.readTtl v
  let (v, items) ← nextItem items closed 1
  let uniqueId ← v.int64
  let (v, items) ← nextItem items closed 2
  let service ← v.string
  let (v, items) ← nextItem items closed 3
  let address ← v.string
  match items with
  | [] => if closed then .ok ⟨ttl, uniqueId, service, address, ∅⟩ else .error .malformed
  | v :: rest =>
      let metadata ← Fields.readMetadata v
      if closed ∧ rest = [] then .ok ⟨ttl, uniqueId, service, address, metadata⟩
      else .error .malformed

def ofMembers (members : List (Json × Json)) (closed : Bool) : Except ReadFault Node := do
  let fields ← Fields.none.addAll members
  if closed then fields.node else .error .malformed

def ofJson (v : Json) : Except ReadFault Node :=
  match v with
  | .object members closed => ofMembers members closed
  | .array items closed => ofItems items closed
  | _ => v.wrongType structName

def decode (s : String) : Except ReadFault Node := Json.decode ofJson s

end Rollcall.Node
