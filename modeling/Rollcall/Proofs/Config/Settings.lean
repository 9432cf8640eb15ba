import Mathlib
import Rollcall.Proofs.Config.Schema
import Rollcall.Proofs.Toml.Document

/-!
Settings as they are written. Each of the three structures has a schema, with a reader for
every field, and its setter keeps to it; what a reader takes is then said without it, as the
value that is written. A setting that is not written has its default, but for the
endpoints: nothing is put for them, and the default back end does not go without
(`endpoints_unwritten`). Main statements: `ofEntries_eq_ok_iff` and `settings_as_written`.
-/

namespace Rollcall

open Toml (Value Entries)

namespace BackendKind

/-- A back end is named by itself, or as the one key of a table with nothing in it. -/
inductive Named : Value → BackendKind → Prop
  | alone (kind : BackendKind) : Named (.string kind.name) kind
  | overTable (kind : BackendKind) (outer inner : Toml.TableKind) :
      Named (.table outer [(kind.name, .table inner [])]) kind
  | overArray (kind : BackendKind) (outer : Toml.TableKind) :
      Named (.table outer [(kind.name, .array [])]) kind

variable {name : String} {kind : BackendKind}

def ofName (name : String) : Except ReadFault BackendKind :=
  match all.find? (fun kind => kind.name = name) with
  | some kind => .ok kind
  | none => .error (.mismatch (.unknownVariant name (all.map BackendKind.name)))

@[simp] theorem ofName_name (kind : BackendKind) : ofName kind.name = .ok kind := by
  cases kind <;> rfl

theorem ofName_eq_ok_iff : ofName name = .ok kind ↔ name = kind.name := by
  constructor
  · intro h
    unfold ofName at h
    split at h
    · rename_i found hfound
      obtain rfl := Except.ok.inj h
      have hname := List.find?_some hfound
      exact (of_decide_eq_true hname).symm
    · cases h
  · rintro rfl
    exact ofName_name kind

/-- The values that are read as a back end are exactly those that name it. -/
theorem ofToml_eq_ok_iff {v : Value} : ofToml v = .ok kind ↔ Named v kind := by
  constructor
  · intro h
    unfold ofToml at h
    split at h
    · rename_i content
      obtain rfl := ofName_eq_ok_iff.mp h
      exact .alone kind
    · obtain ⟨found, hfound, hempty⟩ := bind_eq_ok_iff.mp h
      clear h
      obtain rfl := ofName_eq_ok_iff.mp hfound
      split at hempty
      · obtain rfl := Except.ok.inj hempty
        exact .overTable ..
      · obtain rfl := Except.ok.inj hempty
        exact .overArray ..
      · cases hempty
      · cases hempty
      · cases hempty
      · cases hempty
    · cases h
    · cases h
  · rintro (_ | _ | _)
    · exact ofName_name kind
    · exact bind_eq_ok_iff.mpr ⟨kind, ofName_name kind, rfl⟩
    · exact bind_eq_ok_iff.mpr ⟨kind, ofName_name kind, rfl⟩

end BackendKind

namespace PoolConfig

inductive Field : Type → Type
  | baseDelayMs : Field Nat
  | maxDelayMs : Field Nat
  | multiplier : Field Float
  | jitter : Field Float
  | maxAttempts : Field Nat
  | connectTimeoutMs : Field Nat

def slot {α : Type} : Field α → Slot PoolConfig α
  | .baseDelayMs =>
      ⟨"base_delay_ms", Value.nat64, baseDelayMs, fun n p => { p with baseDelayMs := n }⟩
  | .maxDelayMs =>
      ⟨"max_delay_ms", Value.nat64, maxDelayMs, fun n p => { p with maxDelayMs := n }⟩
  | .multiplier =>
      ⟨"multiplier", Value.double, multiplier, fun x p => { p with multiplier := x }⟩
  | .jitter => ⟨"jitter", Value.double, jitter, fun x p => { p with jitter := x }⟩
  | .maxAttempts =>
      ⟨"max_attempts", Value.nat32, maxAttempts, fun n p => { p with maxAttempts := n }⟩
  | .connectTimeoutMs =>
      ⟨"connect_timeout_ms", Value.nat64, connectTimeoutMs,
        fun n p => { p with connectTimeoutMs := n }⟩

def schema : Schema PoolConfig where
  Field := Field
  slot := slot
  get_put x y p := by cases x <;> rfl
  get_put_of_ne x x' hne y p := by cases x <;> cases x' <;> simp [slot] at hne ⊢
  ext := by
    rintro ⟨⟩ ⟨⟩ h
    rw [mk.injEq]
    exact ⟨h .baseDelayMs, h .maxDelayMs, h .multiplier, h .jitter, h .maxAttempts,
      h .connectTimeoutMs⟩

/-- The fields of a pool, each with its name, its reader and its place, make up the setter. -/
theorem setBy : schema.SetBy set where
  field x p v := by cases x <;> rfl
  unknown := by
    intro key h p v
    unfold set
    split
    · exact absurd rfl (h _ .baseDelayMs)
    · exact absurd rfl (h _ .maxDelayMs)
    · exact absurd rfl (h _ .multiplier)
    · exact absurd rfl (h _ .jitter)
    · exact absurd rfl (h _ .maxAttempts)
    · exact absurd rfl (h _ .connectTimeoutMs)
    · rfl

/-- The default settings of a pool pass their own check, so a configuration that does not
mention the pool is not refused for it. -/
theorem default_validate : PoolConfig.default.validate = .ok () := by
  have hmultiplier : ¬ PoolConfig.default.multiplier < 1.0 := by decide +kernel
  have hjitter : 0.0 ≤ PoolConfig.default.jitter ∧ PoolConfig.default.jitter ≤ 1.0 := by
    decide +kernel
  rw [validate, if_neg hmultiplier, if_neg (not_not_intro hjitter)]
  rfl

/-- Every field has the value that is written for it, and without one that of `base`. -/
structure Follows (written? : String → Option Value) (base p : PoolConfig) : Prop where
  baseDelayMs : Given (Value.IsNat 0xffffffffffffffff) (written? "base_delay_ms")
    base.baseDelayMs p.baseDelayMs
  maxDelayMs : Given (Value.IsNat 0xffffffffffffffff) (written? "max_delay_ms")
    base.maxDelayMs p.maxDelayMs
  multiplier : Given Value.IsDouble (written? "multiplier") base.multiplier p.multiplier
  jitter : Given Value.IsDouble (written? "jitter") base.jitter p.jitter
  maxAttempts : Given (Value.IsNat 0xffffffff) (written? "max_attempts")
    base.maxAttempts p.maxAttempts
  connectTimeoutMs : Given (Value.IsNat 0xffffffffffffffff) (written? "connect_timeout_ms")
    base.connectTimeoutMs p.connectTimeoutMs

/-- Field by field, this is what it means that a pool holds what is written. -/
theorem holds_iff_follows {written? : String → Option Value} {base p : PoolConfig} :
    schema.Holds written? base p ↔ Follows written? base p := by
  constructor
  · intro h
    exact ⟨(given_congr fun _ _ => Value.nat_eq_ok_iff).mp (h .baseDelayMs),
      (given_congr fun _ _ => Value.nat_eq_ok_iff).mp (h .maxDelayMs),
      (given_congr fun _ _ => Value.double_eq_ok_iff).mp (h .multiplier),
      (given_congr fun _ _ => Value.double_eq_ok_iff).mp (h .jitter),
      (given_congr fun _ _ => Value.nat_eq_ok_iff).mp (h .maxAttempts),
      (given_congr fun _ _ => Value.nat_eq_ok_iff).mp (h .connectTimeoutMs)⟩
  · intro h α x
    cases x with
    | baseDelayMs => exact (given_congr fun _ _ => Value.nat_eq_ok_iff).mpr h.baseDelayMs
    | maxDelayMs => exact (given_congr fun _ _ => Value.nat_eq_ok_iff).mpr h.maxDelayMs
    | multiplier => exact (given_congr fun _ _ => Value.double_eq_ok_iff).mpr h.multiplier
    | jitter => exact (given_congr fun _ _ => Value.double_eq_ok_iff).mpr h.jitter
    | maxAttempts => exact (given_congr fun _ _ => Value.nat_eq_ok_iff).mpr h.maxAttempts
    | connectTimeoutMs =>
        exact (given_congr fun _ _ => Value.nat_eq_ok_iff).mpr h.connectTimeoutMs

end PoolConfig

namespace LogConfig

inductive Field : Type → Type
  | level : Field String
  | json : Field Bool

def slot {α : Type} : Field α → Slot LogConfig α
  | .level => ⟨"level", Value.text, level, fun s l => { l with level := s }⟩
  | .json => ⟨"json", Value.bool, json, fun b l => { l with json := b }⟩

def schema : Schema LogConfig where
  Field := Field
  slot := slot
  get_put x y l := by cases x <;> rfl
  get_put_of_ne x x' hne y l := by cases x <;> cases x' <;> simp [slot] at hne ⊢
  ext := by
    rintro ⟨⟩ ⟨⟩ h
    rw [mk.injEq]
    exact ⟨h .level, h .json⟩

theorem setBy : schema.SetBy set where
  field x l v := by cases x <;> rfl
  unknown := by
    intro key h l v
    unfold set
    split
    · exact absurd rfl (h _ .level)
    · exact absurd rfl (h _ .json)
    · rfl

/-- Every field has the value that is written for it, and without one that of `base`. -/
structure Follows (written? : String → Option Value) (base l : LogConfig) : Prop where
  level : Given Value.IsText (written? "level") base.level l.level
  json : Given Value.IsBool (written? "json") base.json l.json

theorem holds_iff_follows {written? : String → Option Value} {base l : LogConfig} :
    schema.Holds written? base l ↔ Follows written? base l := by
  constructor
  · intro h
    exact ⟨(given_congr fun _ _ => Value.text_eq_ok_iff).mp (h .level),
      (given_congr fun _ _ => Value.bool_eq_ok_iff).mp (h .json)⟩
  · intro h α x
    cases x with
    | level => exact (given_congr fun _ _ => Value.text_eq_ok_iff).mpr h.level
    | json => exact (given_congr fun _ _ => Value.bool_eq_ok_iff).mpr h.json

end LogConfig

namespace Config

inductive Field : Type → Type
  | backend : Field BackendKind
  | endpoints : Field (List String)
  | ttlSecs : Field Nat
  | scheme : Field String
  | watchRetryMs : Field Nat
  | pool : Field PoolConfig
  | log : Field LogConfig

def slot {α : Type} : Field α → Slot Config α
  | .backend =>
      ⟨"backend", BackendKind.ofToml, backend, fun kind c => { c with backend := kind }⟩
  | .endpoints =>
      ⟨"endpoints", Value.texts, endpoints, fun texts c => { c with endpoints := texts }⟩
  | .ttlSecs => ⟨"ttl_secs", Value.nat64, ttlSecs, fun n c => { c with ttlSecs := n }⟩
  | .scheme => ⟨"scheme", Value.text, scheme, fun s c => { c with scheme := s }⟩
  | .watchRetryMs =>
      ⟨"watch_retry_interval_ms", Value.nat64, watchRetryMs,
        fun n c => { c with watchRetryMs := n }⟩
  | .pool => ⟨"pool", PoolConfig.ofToml, pool, fun p c => { c with pool := p }⟩
  | .log => ⟨"log", LogConfig.ofToml, log, fun l c => { c with log := l }⟩

def schema : Schema Config where
  Field := Field
  slot := slot
  get_put x y c := by cases x <;> rfl
  get_put_of_ne x x' hne y c := by cases x <;> cases x' <;> simp [slot] at hne ⊢
  ext := by
    rintro ⟨⟩ ⟨⟩ h
    rw [mk.injEq]
    exact ⟨h .backend, h .endpoints, h .ttlSecs, h .scheme, h .watchRetryMs, h .pool, h .log⟩

/-- The fields of the settings as a whole make up their setter, two of them with structures
of their own. -/
theorem setBy : schema.SetBy set where
  field x c v := by cases x <;> rfl
  unknown := by
    intro key h c v
    unfold set
    split
    · exact absurd rfl (h _ .backend)
    · exact absurd rfl (h _ .endpoints)
    · exact absurd rfl (h _ .ttlSecs)
    · exact absurd rfl (h _ .scheme)
    · exact absurd rfl (h _ .watchRetryMs)
    · exact absurd rfl (h _ .pool)
    · exact absurd rfl (h _ .log)
    · rfl

/-- Every setting has the value that is written for it, and without one that of `base`. -/
structure Follows (base : Config) (entries : Entries) (c : Config) : Prop where
  backend : Given BackendKind.Named (Table.lookup "backend" entries) base.backend c.backend
  endpoints : Given Value.IsTexts (Table.lookup "endpoints" entries) base.endpoints c.endpoints
  ttlSecs : Given (Value.IsNat 0xffffffffffffffff) (Table.lookup "ttl_secs" entries)
    base.ttlSecs c.ttlSecs
  scheme : Given Value.IsText (Table.lookup "scheme" entries) base.scheme c.scheme
  watchRetryMs : Given (Value.IsNat 0xffffffffffffffff)
    (Table.lookup "watch_retry_interval_ms" entries) base.watchRetryMs c.watchRetryMs
  pool : PoolConfig.Follows (entries.within? "pool" PoolConfig.fields) base.pool c.pool
  log : LogConfig.Follows (entries.within? "log" LogConfig.fields) base.log c.log

/-- What no setting asks for still has a value, and groups of settings are structures. -/
structure Accepts (entries : Entries) : Prop where
  unknown : schema.Skips entries
  pool : PoolConfig.schema.Takes PoolConfig.fields (Table.lookup "pool" entries)
  log : LogConfig.schema.Takes LogConfig.fields (Table.lookup "log" entries)

/-- The default settings pass their own check too, of which that of the pool is a part. -/
theorem default_validate : Config.default.validate = .ok () := PoolConfig.default_validate

/-- Entries are read exactly if each is what its setting has to be, and what is read is what
they say over the settings that stand for nothing written. -/
theorem ofEntries_eq_ok_iff {entries : Entries} (h : entries.Ordered) {c : Config} :
    ofEntries entries = .ok c ↔ Accepts entries ∧ Follows unwritten entries c := by
  have hpool : Given (fun v p => PoolConfig.ofToml v = .ok p) (Table.lookup "pool" entries)
      unwritten.pool c.pool ↔ _ ∧ _ :=
    PoolConfig.setBy.given_readFields_iff (by decide) h
  have hlog : Given (fun v l => LogConfig.ofToml v = .ok l) (Table.lookup "log" entries)
      unwritten.log c.log ↔ _ ∧ _ :=
    LogConfig.setBy.given_readFields_iff (by decide) h
  rw [PoolConfig.holds_iff_follows] at hpool
  rw [LogConfig.holds_iff_follows] at hlog
  rw [ofEntries, setBy.foldlM_eq_ok_iff h.nodup]
  constructor
  · rintro ⟨hskips, hholds⟩
    obtain ⟨htakesPool, hfollowsPool⟩ := hpool.mp (hholds .pool)
    obtain ⟨htakesLog, hfollowsLog⟩ := hlog.mp (hholds .log)
    exact ⟨⟨hskips, htakesPool, htakesLog⟩,
      ⟨(given_congr fun _ _ => BackendKind.ofToml_eq_ok_iff).mp (hholds .backend),
        (given_congr fun _ _ => Value.texts_eq_ok_iff).mp (hholds .endpoints),
        (given_congr fun _ _ => Value.nat_eq_ok_iff).mp (hholds .ttlSecs),
        (given_congr fun _ _ => Value.text_eq_ok_iff).mp (hholds .scheme),
        (given_congr fun _ _ => Value.nat_eq_ok_iff).mp (hholds .watchRetryMs),
        hfollowsPool, hfollowsLog⟩⟩
  · rintro ⟨haccepts, hfollows⟩
    refine ⟨haccepts.unknown, fun x => ?_⟩
    cases x with
    | backend => exact (given_congr fun _ _ => BackendKind.ofToml_eq_ok_iff).mpr hfollows.backend
    | endpoints => exact (given_congr fun _ _ => Value.texts_eq_ok_iff).mpr hfollows.endpoints
    | ttlSecs => exact (given_congr fun _ _ => Value.nat_eq_ok_iff).mpr hfollows.ttlSecs
    | scheme => exact (given_congr fun _ _ => Value.text_eq_ok_iff).mpr hfollows.scheme
    | watchRetryMs => exact (given_congr fun _ _ => Value.nat_eq_ok_iff).mpr hfollows.watchRetryMs
    | pool => exact hpool.mpr ⟨haccepts.pool, hfollows.pool⟩
    | log => exact hlog.mpr ⟨haccepts.log, hfollows.log⟩

/-- A text is read in two steps: as a document, and as settings. -/
theorem decode_eq_ok_iff {s : String} {c : Config} :
    decode s = .ok c ↔ ∃ entries, Toml.read s = some entries ∧ ofEntries entries = .ok c := by
  rw [decode, Toml.decode]
  cases Toml.read s <;> simp

/-- Without overrides a text is loaded as it is read, if what it says is valid. -/
theorem ofText_eq_ok_iff {s : String} {c : Config} :
    ofText ⟨none, none⟩ s = .ok c ↔ decode s = .ok c ∧ c.validate = .ok () := by
  unfold ofText
  cases decode s with
  | error fault => simp
  | ok read =>
      have hsame : read.applyEnvironment ⟨none, none⟩ = read := rfl
      simp only [hsame, Except.ok.injEq]
      constructor
      · intro h
        split at h
        · cases h
        · rename_i hvalid
          obtain rfl := Except.ok.inj h
          exact ⟨rfl, hvalid⟩
      · rintro ⟨rfl, hvalid⟩
        rw [hvalid]

/-- Settings are as written. A text is read exactly if it is a document whose values are
those of its settings, each for what it has to be, and what comes of it has in every field
that the text mentions the value that is written there, and in every other one the default;
only endpoints that are not mentioned are none. Without overrides the text is then loaded
unless these settings are invalid. -/
theorem settings_as_written (s : String) (c : Config) :
    (decode s = .ok c ↔ ∃ entries, Toml.read s = some entries ∧ Accepts entries ∧
      Follows { Config.default with endpoints := [] } entries c) ∧
    (ofText ⟨none, none⟩ s = .ok c ↔ decode s = .ok c ∧ c.validate = .ok ()) := by
  refine ⟨?_, ofText_eq_ok_iff⟩
  rw [decode_eq_ok_iff]
  refine exists_congr fun entries => and_congr_right fun hread => ?_
  exact ofEntries_eq_ok_iff (Toml.ordered_of_read hread)

/-- One setting of each structure, the others by default. -/
theorem settings_as_written_partly :
    decode "scheme = \"flare\"\nlog.json = true\n[pool]\nmax_attempts = 3" =
      .ok { Config.default with
        endpoints := []
        scheme := "flare"
        pool := { PoolConfig.default with maxAttempts := 3 }
        log := { LogConfig.default with json := true } } := by
  have hread : Toml.read "scheme = \"flare\"\nlog.json = true\n[pool]\nmax_attempts = 3" =
      some [("log", .table .dotted [("json", .boolean true)]),
        ("pool", .table .headed [("max_attempts", .integer 3)]), ("scheme", .string "flare")] := by
    cbv
  refine (settings_as_written _ _).1.mpr ⟨_, hread, ⟨?_, ?_, ?_⟩, ?_⟩
  · exact Schema.skips_of_hasValue (by decide)
  · rintro _ ⟨⟩
    exact ⟨_, rfl, Schema.skips_of_hasValue (by decide)⟩
  · rintro _ ⟨⟩
    exact ⟨_, rfl, Schema.skips_of_hasValue (by decide)⟩
  · exact ⟨rfl, rfl, rfl, rfl, rfl, ⟨rfl, rfl, rfl, rfl, ⟨rfl, by decide⟩, rfl⟩, ⟨rfl, rfl⟩⟩

/-- A text without endpoints has none, where the defaults have one. So the defaults are valid,
and a text that mentions nothing is refused. -/
theorem endpoints_unwritten :
    decode "backend = \"memory\"" =
      .ok { Config.default with backend := .memory, endpoints := [] } ∧
    (¬ ∀ s c, decode s = .ok c →
        ∃ entries, Toml.read s = some entries ∧ Follows Config.default entries c) ∧
    Config.default.validate = .ok () ∧
    ofText ⟨none, none⟩ "" =
      .error (.invalid (.config "etcd backend requires at least one endpoint")) := by
  have hread : Toml.read "backend = \"memory\"" = some [("backend", .string "memory")] := by cbv
  have hdecode : decode "backend = \"memory\"" =
      .ok { Config.default with backend := .memory, endpoints := [] } :=
    decode_eq_ok_iff.mpr ⟨_, hread, rfl⟩
  refine ⟨hdecode, fun h => ?_, default_validate, ?_⟩
  · obtain ⟨entries, hentries, hfollows⟩ := h _ _ hdecode
    obtain rfl := Option.some.inj (hread.symm.trans hentries)
    have hendpoints : ([] : List String) = ["http://127.0.0.1:2379"] := hfollows.endpoints
    cases hendpoints
  · have hempty : decode "" = .ok unwritten := decode_eq_ok_iff.mpr ⟨[], by cbv, rfl⟩
    rw [ofText, hempty]
    rfl

end Config

end Rollcall
