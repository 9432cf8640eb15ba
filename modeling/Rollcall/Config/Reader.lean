import Rollcall.Config
import Rollcall.Text.Utf8
import Rollcall.Toml.Reader

/-!
Settings from TOML. Settings are read in the order of their names; those that are
not written keep their defaults, unknown ones are passed over. Then the
environment overrides, and what comes of it must be valid.
-/

namespace Rollcall

open Toml (Entries Value)

/-- A name by itself, or as the one key of a table with nothing in it. -/
def BackendKind.ofToml (v : Value) : Except ReadFault BackendKind :=
  let known (name : String) : Except ReadFault BackendKind :=
    match all.find? (fun kind => kind.name = name) with
    | some kind => .ok kind
    | none => .error (.mismatch (.unknownVariant name (all.map BackendKind.name)))
  match v with
  | .string content => known content
  | .table _ [(name, v)] => do
      let kind ← known name
      match v with
      | .table _ [] | .array [] => return kind
      | .table .. => .error (.mismatch (.notEmpty "table"))
      | .array _ | .tables _ => .error (.mismatch (.notEmpty "array"))
      | v => .error (.mismatch (.notTable v.typeName))
  | .table _ entries => .error (.mismatch (.notSingle entries.length))
  | _ => .error (.mismatch .notVariant)

/-- Reads the fields of a structure from a table, or in order from an array, whose
further items are not looked at. -/
def readFields {α : Type} (name : String) (fields : List String)
    (set : α → String → Value → Except ReadFault α) (start : α) (v : Value) :
    Except ReadFault α :=
  match v with
  | .table _ entries => entries.foldlM (fun a entry => set a entry.1 entry.2) start
  | .moment => .ok start
  | v =>
      match v.items? with
      | some items => (fields.zip items).foldlM (fun a field => set a field.1 field.2) start
      | none => v.wrongType ("struct " ++ name)

namespace PoolConfig

def fields : List String :=
  ["base_delay_ms", "max_delay_ms", "multiplier", "jitter", "max_attempts", "connect_timeout_ms"]

def set (p : PoolConfig) (field : String) (v : Value) : Except ReadFault PoolConfig :=
  match field with
  | "base_delay_ms" => return { p with baseDelayMs := ← v.nat64 }
  | "max_delay_ms" => return { p with maxDelayMs := ← v.nat64 }
  | "multiplier" => return { p with multiplier := ← v.double }
  | "jitter" => return { p with jitter := ← v.double }
  | "max_attempts" => return { p with maxAttempts := ← v.nat32 }
  | "connect_timeout_ms" => return { p with connectTimeoutMs := ← v.nat64 }
  | _ => do v.skip; return p

def ofToml (v : Value) : Except ReadFault PoolConfig :=
  readFields "PoolConfig" fields set default v

end PoolConfig

namespace LogConfig

def fields : List String := ["level", "json"]

def set (l : LogConfig) (field : String) (v : Value) : Except ReadFault LogConfig :=
  match field with
  | "level" => return { l with level := ← v.text }
  | "json" => return { l with json := ← v.bool }
  | _ => do v.skip; return l

def ofToml (v : Value) : Except ReadFault LogConfig :=
  readFields "LogConfig" fields set default v

end LogConfig

namespace Config

/-- Where nothing is written there are no endpoints. -/
def unwritten : Config := { default with endpoints := [] }

def set (c : Config) (field : String) (v : Value) : Except ReadFault Config :=
  match field with
  | "backend" => return { c with backend := ← BackendKind.ofToml v }
  | "endpoints" => return { c with endpoints := ← v.texts }
  | "ttl_secs" => return { c with ttlSecs := ← v.nat64 }
  | "scheme" => return { c with scheme := ← v.text }
  | "watch_retry_interval_ms" => return { c with watchRetryMs := ← v.nat64 }
  | "pool" => return { c with pool := ← PoolConfig.ofToml v }
  | "log" => return { c with log := ← LogConfig.ofToml v }
  | _ => do v.skip; return c

def ofEntries (entries : Entries) : Except ReadFault Config :=
  entries.foldlM (fun c entry => c.set entry.1 entry.2) unwritten

/-- The settings that a text describes, before the environment and validation. -/
def decode (s : String) : Except ReadFault Config := Toml.decode ofEntries s

end Config

/-- Why settings could not be loaded. -/
inductive ConfigFault where
  | missing
  | notText
  | read (fault : ReadFault)
  | invalid (e : Error)
deriving DecidableEq, Repr

namespace Config

def ofText (env : Environment) (s : String) : Except ConfigFault Config :=
  match decode s with
  | .error fault => .error (.read fault)
  | .ok c =>
      let c := c.applyEnvironment env
      match c.validate with
      | .error e => .error (.invalid e)
      | .ok () => .ok c

/-- Loads a file by its content, if there is one. -/
def load (env : Environment) : Option Bytes → Except ConfigFault Config
  | none => .error .missing
  | some content =>
      match Text.ofUtf8? content with
      | none => .error .notText
      | some s => ofText env s

end Config

end Rollcall
