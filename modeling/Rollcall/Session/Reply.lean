import Rollcall.Session.Basic

/-!
What a user of a session is answered. An outcome is a reply with the session after
it, or nothing when the process was cut off.
-/

namespace Rollcall.Session

inductive Reply where
  | nothing
  | done
  | flag (b : Bool)
  | flags (bs : List Bool)
  | number (n : Int)
  | text (s : String)
  | texts (ss : List String)
  | error (e : Error)
  | listing (l : Listing)
  | events (es : List Event) (isOpen : Bool)
  | node (n : Node)
  | nodes (ns : List Node)
  | members (m : Members)
  | target (t : Target)
  | config (c : Config)
  | calls (log : List Scripted.Logged)
  | requests (log : List Etcd.Request)
  | server (s : Etcd.Server)
  | list (rs : List Reply)

abbrev Outcome := Option (Reply × Session)

namespace Outcome

/-- The reply to a call: its answer, or its error. -/
def ofAnswer {α : Type} (reply : α → Reply) : Except Failure α × Session → Outcome
  | (.ok a, s) => some (reply a, s)
  | (.error (.error e), s) => some (.error e, s)
  | (.error .crash, _) => none

def unit (answer : Except Failure Unit × Session) : Outcome := ofAnswer (fun _ => .done) answer

def number (answer : Except Failure Int × Session) : Outcome := ofAnswer .number answer

/-- The outcome of work that may have found nothing to work on. -/
def ofWork {α : Type} (reply : α → Reply) : Option (Except Failure α) × Session → Outcome
  | (some answer, s) => .ofAnswer reply (answer, s)
  | (none, s) => some (.nothing, s)

end Outcome

def Reply.ofOption {α : Type} (reply : α → Reply) : Option α → Reply
  | some a => reply a
  | none => .nothing

end Rollcall.Session
