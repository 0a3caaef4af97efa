import TaintTrail.Json.Decoder

/-!
# Configurations

What an analysis is asked: where programs start, which calls are sources of taint, which labels are
those of merge blocks, and how far taint is followed. Every setting has a default. A configuration
is checked before it is used.
-/

namespace TaintTrail

/-- A procedure whose calls are sources of taint. -/
structure Source where
  procedure : String
  /-- Whether the result is tainted. -/
  taintsResult : Bool := true
  /-- The positions of the arguments that point at memory which the call taints. -/
  filledParams : List Nat := []
  deriving DecidableEq, Inhabited, Repr

/-- What an analysis is asked. -/
structure Config where
  /-- The procedures where programs start. -/
  entryPoints : List String := ["main"]
  sources : List Source := [{ procedure := "getenv" }, { procedure := "secure_getenv" }]
  /-- The kinds of labels that mark merge blocks. -/
  mergeLabels : List String := ["end", "epilog"]
  /-- Whether a call of a procedure without a body passes taint from its arguments to its result. -/
  throughExternals : Bool := true
  /-- Whether a tainted condition taints what happens in the region of its branch. -/
  implicitFlows : Bool := true
  /-- How many path edges may be followed. -/
  limit : Nat := 1000000
  deriving DecidableEq, Inhabited, Repr

/-- Why a configuration cannot be used. -/
inductive ConfigError where
  /-- The limit is zero or too large. -/
  | limitOutOfRange (limit : Nat)
  /-- There is no place to start. -/
  | noEntryPoint
  /-- Implicit flows are on, but no label marks a merge block. -/
  | noMergeLabel
  /-- A source has no name; whether it taints its result is given. -/
  | namelessSource (taintsResult : Bool)
  /-- A configuration file does not say its version. -/
  | missingVersion
  /-- A configuration file has an unknown version. -/
  | unsupportedVersion (found : Nat)
  /-- A configuration file cannot be read. -/
  | malformed
  deriving DecidableEq, Inhabited, Repr

/-- The text of an error. -/
def ConfigError.message : ConfigError → String
  | .limitOutOfRange limit =>
    "Invalid range for field 'max_iterations': " ++ toString limit
      ++ " not in 1..=10000000. Solver iterations must be finite and at least 1"
  | .noEntryPoint => "Validation error: at least one entry point is required"
  | .noMergeLabel =>
    "Validation error: implicit_flows requires at least one non-empty merge_label_suffixes entry"
  | .namelessSource taintsResult =>
    "Validation error: source with empty function name (taints_return: " ++ toString taintsResult
      ++ ")"
  | .missingVersion =>
    "Missing 'version' field in configuration file. Add 'version: 1' to the top of your YAML file."
  | .unsupportedVersion found =>
    "Unsupported configuration version " ++ toString found ++ ". Supported versions: 1"
  | .malformed => "YAML parsing error"

namespace Source

/-- A source whose result is tainted. -/
def returning (procedure : String) : Source := { procedure }

/-- A source that taints the memory behind arguments. -/
def filling (procedure : String) (filledParams : List Nat) : Source :=
  { procedure, taintsResult := false, filledParams }

/-- The names of the members of a source. -/
def memberNames : List String := ["function", "taints_return", "tainted_params"]

/-- The JSON form of a source. -/
def toJson (s : Source) : Json :=
  .object [("function", .text s.procedure), ("taints_return", .bool s.taintsResult),
    ("tainted_params", .array .nat s.filledParams)]

/-- Reads the JSON form of a source. -/
def ofJson? : Json.Decoder Source
  | levels + 1, j => do
    let fields ← j.exactFields? memberNames
    let procedure ← fields.required "function" (Json.Decoder.string levels)
    let taintsResult ← fields.withDefault "taints_return" true (Json.Decoder.bool levels)
    let filledParams ← fields.withDefault "tainted_params" []
      (Json.Decoder.list Json.Decoder.word levels)
    some { procedure, taintsResult, filledParams }
  | 0, _ => none

end Source

namespace Config

/-- The largest limit. -/
def maxLimit : Nat := 10000000

/-- Checks that a configuration can be used. -/
def validate (c : Config) : Except ConfigError Unit :=
  if c.limit = 0 || maxLimit < c.limit then .error (.limitOutOfRange c.limit)
  else if c.entryPoints.isEmpty then .error .noEntryPoint
  else if c.implicitFlows && c.mergeLabels.all (· = "") then .error .noMergeLabel
  else
    match c.sources.find? (·.procedure = "") with
    | some s => .error (.namelessSource s.taintsResult)
    | none => .ok ()

/-- The source that calls of a procedure are, the first one listed. -/
def source? (c : Config) (procedure : String) : Option Source :=
  c.sources.find? (·.procedure = procedure)

/-- The names of the members of a configuration. -/
def memberNames : List String :=
  ["entry_points", "sources", "merge_label_suffixes", "propagate_through_externals",
    "implicit_flows", "max_iterations"]

/-- The JSON form of a configuration. -/
def toJson (c : Config) : Json :=
  .object [("entry_points", .array .text c.entryPoints),
    ("sources", .array Source.toJson c.sources),
    ("merge_label_suffixes", .array .text c.mergeLabels),
    ("propagate_through_externals", .bool c.throughExternals),
    ("implicit_flows", .bool c.implicitFlows), ("max_iterations", .nat c.limit)]

/-- Reads the JSON form of a configuration. Settings that are missing have their defaults. -/
def ofJson? : Json.Decoder Config
  | levels + 1, j => do
    let fields ← j.exactFields? memberNames
    let texts := Json.Decoder.list Json.Decoder.string levels
    let flag := Json.Decoder.bool levels
    let usual : Config := {}
    let entryPoints ← fields.withDefault "entry_points" usual.entryPoints texts
    let sources ← fields.withDefault "sources" usual.sources
      (Json.Decoder.list Source.ofJson? levels)
    let mergeLabels ← fields.withDefault "merge_label_suffixes" usual.mergeLabels texts
    let throughExternals ←
      fields.withDefault "propagate_through_externals" usual.throughExternals flag
    let implicitFlows ← fields.withDefault "implicit_flows" usual.implicitFlows flag
    let limit ← fields.withDefault "max_iterations" usual.limit (Json.Decoder.doubleWord levels)
    some { entryPoints, sources, mergeLabels, throughExternals, implicitFlows, limit }
  | 0, _ => none

end Config

end TaintTrail
