import Rollcall.Toml.Basic
import Rollcall.Toml.Quoted

/-!
Reading a text into a TOML document, or finding that it is none. Fuel bounds the
number of values and lines that are begun; the length of the text is enough.
-/

namespace Rollcall.Toml

/-- Arrays and inline tables may lie this deep in each other. -/
def depthLimit : Nat := 80

mutual

def readValue : Nat → Nat → List Char → Option (Value × List Char)
  | 0, _, _ => none
  | fuel + 1, depth, cs =>
      match cs with
      | '[' :: rest =>
          match depth with
          | 0 => none
          | depth + 1 => do
              let (items, rest) ← readItems fuel depth rest
              return (.array items, rest)
      | '{' :: rest =>
          match depth with
          | 0 => none
          | depth + 1 => do
              let (entries, rest) ← readEntries fuel depth [] rest
              return (.table .inlined entries, rest)
      | '"' :: _ | '\'' :: _ =>
          (readQuoted cs).map (fun r => (.string (String.ofList r.1), r.2))
      | cs => (Scalar.read cs).map (fun r => (.ofScalar r.1, r.2))

/-- Items up to the closing bracket; a comma may stand after the last. -/
def readItems : Nat → Nat → List Char → Option (List Value × List Char)
  | 0, _, _ => none
  | fuel + 1, depth, cs => do
      match ← skipFiller (cs.length + 1) cs with
      | ']' :: rest => return ([], rest)
      | cs =>
          let (item, rest) ← readValue fuel depth cs
          match ← skipFiller (rest.length + 1) rest with
          | ']' :: rest => return ([item], rest)
          | ',' :: rest =>
              let (items, rest) ← readItems fuel depth rest
              return (item :: items, rest)
          | _ => none

/-- Entries of an inline table up to its closing brace. -/
def readEntries : Nat → Nat → Entries → List Char → Option (Entries × List Char)
  | 0, _, _, _ => none
  | fuel + 1, depth, entries, cs => do
      match ← skipFiller (cs.length + 1) cs with
      | '}' :: rest => return (entries, rest)
      | cs =>
          let (path, key, rest) ← readPath (cs.length + 1) cs
          let rest ← Scalar.skip '=' rest
          let (v, rest) ← readValue fuel depth (skipBlanks rest)
          let entries ← entries.addAt path key v .inlined
          match ← skipFiller (rest.length + 1) rest with
          | '}' :: rest => return (entries, rest)
          | ',' :: rest => readEntries fuel depth entries rest
          | _ => none

end

/-- What has been read, and the path of the table that lines now go to. -/
structure Document where
  root : Entries
  current : List String

namespace Document

def empty : Document := ⟨[], []⟩

/-- Works on the table at the end of the path of a header. -/
def changeAt (d : Document) (path : List String)
    (work : TableKind → Entries → Option Entries) : Option Entries :=
  Entries.change false work path .headed d.root

def addEntry (d : Document) (path : List String) (key : String) (v : Value) : Option Document :=
  (d.changeAt d.current (fun kind t => t.addAt path key v kind)).map
    (fun root => { d with root })

def openTable (d : Document) (path : List String) (key : String) : Option Document :=
  (d.changeAt path (fun _ t => t.openTable key)).map (fun root => ⟨root, path ++ [key]⟩)

def openItem (d : Document) (path : List String) (key : String) : Option Document :=
  (d.changeAt path (fun _ t => t.openItem key)).map (fun root => ⟨root, path ++ [key]⟩)

end Document

/-- One line that is not blank, and what follows its last character. -/
def readLine (fuel : Nat) (d : Document) (cs : List Char) : Option (Document × List Char) :=
  match cs with
  | '[' :: '[' :: rest => do
      let (path, key, rest) ← readPath fuel rest
      let rest ← Scalar.skip ']' (← Scalar.skip ']' rest)
      return (← d.openItem path key, rest)
  | '[' :: rest => do
      let (path, key, rest) ← readPath fuel rest
      let rest ← Scalar.skip ']' rest
      return (← d.openTable path key, rest)
  | cs => do
      let (path, key, rest) ← readPath fuel cs
      let rest ← Scalar.skip '=' rest
      let (v, rest) ← readValue fuel depthLimit (skipBlanks rest)
      return (← d.addEntry path key v, rest)

def readLines : Nat → Document → List Char → Option Document
  | 0, _, _ => none
  | fuel + 1, d, cs => do
      match ← skipFiller (fuel + 1) cs with
      | [] => return d
      | cs =>
          let (d, rest) ← readLine (2 * cs.length + 2) d (skipBlanks cs)
          readLines fuel d (← endLine rest)

/-- A mark of byte order may stand in front. -/
def skipMark : List Char → List Char
  | '\ufeff' :: rest => rest
  | cs => cs

/-- The entries of the document that a text is. -/
def read (s : String) : Option Entries :=
  let cs := skipMark s.toList
  (readLines (cs.length + 2) .empty cs).map Document.root

/-- Reads a whole text by a typed reader. -/
def decode {α : Type} (reader : Entries → Except ReadFault α) (s : String) :
    Except ReadFault α :=
  match read s with
  | some entries => reader entries
  | none => .error .malformed

end Rollcall.Toml
