/-!
The layout of keys in a backend: a node is published under
`service/<component>/<address>`, and a component counts its node ids under
`node_id/<component>`.
-/

namespace Rollcall.Key

def serviceRoot : String := "service/"
def nodeIdRoot : String := "node_id/"

def service (component address : String) : String :=
  serviceRoot ++ component ++ "/" ++ address

/-- What the keys of all nodes of a component start with. -/
def servicePrefix (component : String) : String :=
  serviceRoot ++ component ++ "/"

def nodeId (component : String) : String :=
  nodeIdRoot ++ component

/-- `key` without `root` in front. -/
def stripRoot? (root key : List Char) : Option (List Char) :=
  if root.isPrefixOf key then some (key.drop root.length) else none

/-- The first segment of `key` after `root`, if there is a non-empty one. -/
def serviceName? (root key : String) : Option String :=
  match stripRoot? root.toList key.toList with
  | none => none
  | some rest =>
      match rest.takeWhile (· ≠ '/') with
      | [] => none
      | name => some (String.ofList name)

/-- Does `key` start with `root`? -/
def startsWith (root key : String) : Bool :=
  root.toList.isPrefixOf key.toList

end Rollcall.Key
