import Rollcall.Decimal.Integer
import Rollcall.Error
import Rollcall.Text.Blank
import Rollcall.Time

/-!
The settings of a discovery process: defaults, changes by the program,
overrides from the environment, and what makes settings valid.
-/

namespace Rollcall

inductive BackendKind where
  | etcd
  | memory
deriving DecidableEq, Repr

namespace BackendKind

def name : BackendKind → String
  | .etcd => "etcd"
  | .memory => "memory"

def all : List BackendKind := [.etcd, .memory]

/-- Accepts the usual short names. Only ASCII letters have lower forms that occur
in them. -/
def parse (s : String) : Except String BackendKind :=
  let lower := s.map Char.toLower
  if ["etcd", "etcd3"].contains lower then .ok .etcd
  else if ["memory", "mem", "debug"].contains lower then .ok .memory
  else .error ("Unknown backend type: " ++ s)

end BackendKind

structure PoolConfig where
  baseDelayMs : Nat
  maxDelayMs : Nat
  multiplier : Float
  jitter : Float
  maxAttempts : Nat
  connectTimeoutMs : Nat

def PoolConfig.default : PoolConfig := ⟨1000, 120000, 1.6, 0.2, 5, 20000⟩

structure LogConfig where
  level : String
  json : Bool
deriving DecidableEq, Repr

def LogConfig.default : LogConfig := ⟨"info", false⟩

structure Config where
  backend : BackendKind
  endpoints : List String
  ttlSecs : Nat
  scheme : String
  watchRetryMs : Nat
  pool : PoolConfig
  log : LogConfig

namespace PoolConfig

def validate (p : PoolConfig) : Except Error Unit :=
  if p.multiplier < 1.0 then .error (.config "pool.multiplier must be >= 1.0")
  else if ¬ (0.0 ≤ p.jitter ∧ p.jitter ≤ 1.0) then
    .error (.config "pool.jitter must be within [0, 1]")
  else if p.maxAttempts = 0 then .error (.config "pool.max_attempts must be positive")
  else .ok ()

end PoolConfig

/-- The environment variables that override settings, where they are set. -/
structure Environment where
  ttlSeconds : Option String
  endpoints : Option String
deriving DecidableEq, Repr

namespace Config

def default : Config :=
  ⟨.etcd, ["http://127.0.0.1:2379"], 60, "discovery", 1000, .default, .default⟩

def validate (c : Config) : Except Error Unit :=
  if c.ttlSecs = 0 then .error (.config "ttl_secs must be positive")
  else if c.scheme = "" then .error (.config "scheme must not be empty")
  else if c.backend = .etcd ∧ c.endpoints = [] then
    .error (.config "etcd backend requires at least one endpoint")
  else c.pool.validate

/-- A variable that cannot be read, or that lists nothing, overrides nothing. -/
def applyEnvironment (c : Config) (env : Environment) : Config :=
  let c := match env.ttlSeconds.bind (fun s => (Decimal.readNat64 s).toOption) with
    | some ttlSecs => { c with ttlSecs }
    | none => c
  match (env.endpoints.map Text.commaList).getD [] with
  | [] => c
  | endpoints => { c with endpoints }

def ttl (c : Config) : Span := .ofSeconds c.ttlSecs
def watchRetryInterval (c : Config) : Span := .ofMillis c.watchRetryMs

/-- A change of settings by the program. -/
inductive Change where
  | backend (kind : BackendKind)
  | endpoints (endpoints : List String)
  | ttl (ttl : Span)
  | ttlSecs (secs : Nat)
  | scheme (scheme : String)
  | watchRetryInterval (interval : Span)
  | pool (pool : PoolConfig)
  | environment

/-- The time to live is kept in whole seconds, at least one. -/
def apply (env : Environment) (c : Config) : Change → Config
  | .backend backend => { c with backend }
  | .endpoints endpoints => { c with endpoints }
  | .ttl ttl => { c with ttlSecs := max ttl.seconds 1 }
  | .ttlSecs ttlSecs => { c with ttlSecs }
  | .scheme scheme => { c with scheme }
  | .watchRetryInterval interval => { c with watchRetryMs := interval.millisWord }
  | .pool pool => { c with pool }
  | .environment => c.applyEnvironment env

def build (env : Environment) (changes : List Change) : Config :=
  changes.foldl (apply env) default

end Config

end Rollcall
