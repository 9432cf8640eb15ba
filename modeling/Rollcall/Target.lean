import Rollcall.Error
import Rollcall.Text.Quoted

/-!
Selectors and targets. A selector names a component, and after its first dot
possibly a sub-service. A target is a selector that may carry a scheme in front
of a colon; slashes right after the colon do not count.
-/

namespace Rollcall

/-- The parts of a text before and after its first `c`, if there is one. -/
def splitFirst (c : Char) : List Char → Option (List Char × List Char)
  | [] => none
  | d :: rest =>
      if d = c then some ([], rest)
      else (splitFirst c rest).map (fun parts => (d :: parts.1, parts.2))

structure Selector where
  component : String
  subService : Option String
deriving DecidableEq, Repr

namespace Selector

def ofChars (cs : List Char) : Selector :=
  match splitFirst '.' cs with
  | none => ⟨String.ofList cs, none⟩
  | some (component, []) => ⟨String.ofList component, none⟩
  | some (component, sub) => ⟨String.ofList component, some (String.ofList sub)⟩

def ofString (s : String) : Selector := ofChars s.toList

def toString (s : Selector) : String :=
  match s.subService with
  | none => s.component
  | some sub => s.component ++ "." ++ sub

end Selector

structure Target where
  scheme : String
  selector : Selector
deriving DecidableEq, Repr

namespace Target

/-- The scheme and what follows it, the default scheme if none is written. -/
def splitScheme (defaultScheme target : String) : String × List Char :=
  match splitFirst ':' target.toList with
  | some (scheme, rest) => (String.ofList scheme, rest.dropWhile (· = '/'))
  | none => (defaultScheme, target.toList)

def parse (target defaultScheme : String) : Except Error Target :=
  let (scheme, rest) := splitScheme defaultScheme target
  if scheme ≠ defaultScheme then
    .error (.invalidTarget target ("unsupported scheme " ++ Text.quoted scheme))
  else
    let selector := Selector.ofChars rest
    if selector.component = "" then .error (.invalidTarget target "empty component name")
    else .ok ⟨scheme, selector⟩

def toString (t : Target) : String :=
  t.scheme ++ ":///" ++ t.selector.toString

end Target

end Rollcall
