import Rollcall.Table
import Rollcall.Text.Blank
import Rollcall.Time

/-!
A node is one registered instance of a component. Which sub-services it
provides is part of its metadata, as a comma-separated list under a key of its
own.
-/

namespace Rollcall

structure Node where
  ttl : Span
  uniqueId : Int
  service : String
  address : String
  metadata : Table String String
deriving DecidableEq

namespace Node

def subServicesKey : String := "sub_services"

def create (service address : String) (uniqueId : Int) (ttl : Span) : Node :=
  ⟨ttl, uniqueId, service, address, ∅⟩

def withMetadata (n : Node) (key value : String) : Node :=
  { n with metadata := n.metadata.insert key value }

/-- Declares the sub-services: trimmed, without empty names, joined by commas.
An empty list leaves no entry behind. -/
def withSubServices (n : Node) (names : List String) : Node :=
  let joined := String.intercalate "," ((names.map Text.trim).filter (· ≠ ""))
  if joined = "" then { n with metadata := n.metadata.erase subServicesKey }
  else n.withMetadata subServicesKey joined

def subServices (n : Node) : List String :=
  ((n.metadata.get? subServicesKey).map Text.commaList).getD []

def serves (n : Node) (name : String) : Bool :=
  n.subServices.contains name

end Node

end Rollcall
