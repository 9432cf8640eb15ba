import Rollcall.Mismatch
import Rollcall.Table
import Rollcall.Toml.Number
import Rollcall.Decimal.Shortest

/-!
TOML documents. The entries of a table stand in ascending order of their keys.
How a table came to be decides what may be added to it later: a table with a
header of its own and an inline table are complete, one that only a longer path
implies may still get its header, one made by dotted keys only further dotted
keys.
-/

namespace Rollcall.Toml

inductive TableKind where
  | headed
  | implied
  | dotted
  | inlined
deriving DecidableEq, Repr

inductive Value where
  | string (content : String)
  | integer (value : Int)
  | float (literal : FloatLiteral)
  | boolean (value : Bool)
  | moment
  | array (items : List Value)
  /-- An array of tables, each under a header of its own. -/
  | tables (items : List (List (String × Value)))
  | table (kind : TableKind) (entries : List (String × Value))

abbrev Entries := List (String × Value)

namespace Value

def ofScalar : Scalar → Value
  | .integer value => .integer value
  | .float literal => .float literal
  | .boolean value => .boolean value
  | .moment => .moment

def typeName : Value → String
  | .string _ => "string"
  | .integer _ => "integer"
  | .float _ => "float"
  | .boolean _ => "boolean"
  | .moment => "datetime"
  | .array _ | .tables _ => "array"
  | .table .. => "table"

/-- What a typed reader reports to have found. A number too large for any word has
no value at all. -/
def found : Value → Except ReadFault Found
  | .string content => .ok (.string content)
  | .integer value =>
      if -0x8000000000000000 ≤ value ∧ value < 0x10000000000000000 then .ok (.integer value)
      else if -0x80000000000000000000000000000000 ≤ value ∧
          value < 0x100000000000000000000000000000000 then .ok (.wideInteger value)
      else .error .malformed
  | .float literal =>
      match literal.value? with
      | some x => .ok (.float ((⟨none⟩ : Decimal.Layout).showFloat x))
      | none => .error .malformed
  | .boolean value => .ok (.boolean value)
  | .moment | .table .. => .ok .map
  | .array _ | .tables _ => .ok .sequence

def wrongType {α : Type} (v : Value) (expected : String) : Except ReadFault α := do
  throw (.mismatch (.wrongType (← v.found) expected))

/-- An unsigned integer up to `high`. -/
def nat (high : Nat) (expected : String) (v : Value) : Except ReadFault Nat :=
  match v with
  | .integer value =>
      if 0 ≤ value ∧ value ≤ high then .ok value.toNat
      else if -0x8000000000000000 ≤ value ∧ value < 0x10000000000000000 then
        .error (.mismatch (.outOfRange (.integer value) expected))
      else v.wrongType expected
  | _ => v.wrongType expected

def nat64 (v : Value) : Except ReadFault Nat := v.nat (0x10000000000000000 - 1) "u64"

def nat32 (v : Value) : Except ReadFault Nat := v.nat (0x100000000 - 1) "u32"

/-- An integer of 64 bits will do. -/
def double (v : Value) : Except ReadFault Float :=
  match v with
  | .float literal =>
      match literal.value? with
      | some x => .ok x
      | none => .error .malformed
  | .integer value =>
      if -0x8000000000000000 ≤ value ∧ value < 0x10000000000000000 then .ok (Float.ofInt value)
      else v.wrongType "f64"
  | _ => v.wrongType "f64"

def bool (v : Value) : Except ReadFault Bool :=
  match v with
  | .boolean value => .ok value
  | _ => v.wrongType "a boolean"

def text (v : Value) : Except ReadFault String :=
  match v with
  | .string content => .ok content
  | _ => v.wrongType "a string"

/-- The items of an array of either kind. -/
def items? : Value → Option (List Value)
  | .array items => some items
  | .tables items => some (items.map (.table .headed))
  | _ => none

def texts (v : Value) : Except ReadFault (List String) :=
  match v.items? with
  | some items => items.mapM text
  | none => v.wrongType "a sequence"

mutual

/-- A value that is skipped must still have one. -/
def hasValue : Value → Bool
  | .integer value =>
      -0x80000000000000000000000000000000 ≤ value && value < 0x100000000000000000000000000000000
  | .float literal => literal.value?.isSome
  | .array items => allHaveValues items
  | .tables items => allTablesHaveValues items
  | .table _ entries => entriesHaveValues entries
  | .string _ | .boolean _ | .moment => true

def allHaveValues : List Value → Bool
  | [] => true
  | v :: rest => hasValue v && allHaveValues rest

def entriesHaveValues : List (String × Value) → Bool
  | [] => true
  | (_, v) :: rest => hasValue v && entriesHaveValues rest

def allTablesHaveValues : List (List (String × Value)) → Bool
  | [] => true
  | entries :: rest => entriesHaveValues entries && allTablesHaveValues rest

end

def skip (v : Value) : Except ReadFault Unit :=
  if v.hasValue then .ok () else .error .malformed

end Value

namespace Entries

/-- May a path go through a table of this kind? -/
def mayEnter (byDots : Bool) : TableKind → Bool
  | .headed => !byDots
  | .implied | .dotted => true
  | .inlined => false

/-- Changes the table at the end of a path; tables that are missing on the way are
made. The path of a header goes through the last table of an array. -/
def change (byDots : Bool) (work : TableKind → Entries → Option Entries) :
    List String → TableKind → Entries → Option Entries
  | [], kind, entries => work kind entries
  | key :: path, _, entries =>
      match Table.lookup key entries with
      | none =>
          let kind := if byDots then .dotted else .implied
          (change byDots work path kind []).map (fun t => Table.place key (.table kind t) entries)
      | some (.table kind t) =>
          if mayEnter byDots kind then
            (change byDots work path kind t).map
              (fun t => Table.place key (.table kind t) entries)
          else none
      | some (.tables items) =>
          match items.getLast? with
          | none => none
          | some last =>
              (change byDots work path .headed last).map (fun t =>
                Table.place key (.tables (items.dropLast ++ [t])) entries)
      | some _ => none

/-- Adds a key that is new. -/
def add (key : String) (v : Value) (entries : Entries) : Option Entries :=
  if (Table.lookup key entries).isSome then none else some (Table.place key v entries)

/-- Adds a value under a dotted key, whose table must have been made by dots. -/
def addAt (path : List String) (key : String) (v : Value) (kind : TableKind)
    (entries : Entries) : Option Entries :=
  if path.isEmpty then entries.add key v
  else
    change true (fun kind t => if kind = .dotted then t.add key v else none) path kind entries

/-- Gives a table its header. -/
def openTable (key : String) (entries : Entries) : Option Entries :=
  match Table.lookup key entries with
  | none => some (Table.place key (.table .headed []) entries)
  | some (.table .implied t) => some (Table.place key (.table .headed t) entries)
  | some _ => none

/-- Begins another table of an array. -/
def openItem (key : String) (entries : Entries) : Option Entries :=
  match Table.lookup key entries with
  | none => some (Table.place key (.tables [[]]) entries)
  | some (.tables items) => some (Table.place key (.tables (items ++ [[]])) entries)
  | some _ => none

end Entries

end Rollcall.Toml
