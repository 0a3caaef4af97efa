import TaintTrail.Config.Basic
import TaintTrail.Yaml.Decoder
import TaintTrail.Yaml.Printer
import TaintTrail.Yaml.Reader

/-!
# Configuration files

A configuration file is a YAML document with the version of its form and the settings. What a file
does not mention has its default, and what is not known is an error.
-/

namespace TaintTrail

open Yaml

namespace Source

/-- Reads the node of a source. -/
def ofNode? (anchors : Anchors) (node : Node) : Option Source := do
  let fields ← node.fields? memberNames anchors
  let procedure ← Node.field fields "function" none (Node.text? anchors)
  let taintsResult ← Node.field fields "taints_return" (some true) (Node.bool? anchors)
  let filledParams ← Node.field fields "tainted_params" (some [])
    (Node.items? (Node.natBelow? (Nat.pow 2 32)) anchors)
  some { procedure, taintsResult, filledParams }

/-- The node of a source. -/
def toNode (s : Source) : Node :=
  .record [("function", .text s.procedure), ("taints_return", .plain (toString s.taintsResult)),
    ("tainted_params", .sequence (s.filledParams.map fun n => .plain (toString n)))]

end Source

namespace Config

/-- Reads the node of the settings. -/
def ofNode? (anchors : Anchors) (node : Node) : Option Config := do
  let usual : Config := {}
  let texts := Node.items? Node.text? anchors
  let fields ← node.fields? memberNames anchors
  let entryPoints ← Node.field fields "entry_points" (some usual.entryPoints) texts
  let sources ← Node.field fields "sources" (some usual.sources)
    (Node.items? Source.ofNode? anchors)
  let mergeLabels ← Node.field fields "merge_label_suffixes" (some usual.mergeLabels) texts
  let throughExternals ← Node.field fields "propagate_through_externals"
    (some usual.throughExternals) (Node.bool? anchors)
  let implicitFlows ← Node.field fields "implicit_flows" (some usual.implicitFlows)
    (Node.bool? anchors)
  let limit ← Node.field fields "max_iterations" (some usual.limit)
    (Node.natBelow? (Nat.pow 2 64) anchors)
  some { entryPoints, sources, mergeLabels, throughExternals, implicitFlows, limit }

/-- The node of the settings. -/
def toNode (c : Config) : Node :=
  .record [("entry_points", .sequence (c.entryPoints.map .text)),
    ("sources", .sequence (c.sources.map Source.toNode)),
    ("merge_label_suffixes", .sequence (c.mergeLabels.map .text)),
    ("propagate_through_externals", .plain (toString c.throughExternals)),
    ("implicit_flows", .plain (toString c.implicitFlows)),
    ("max_iterations", .plain (toString c.limit))]

/-- How deep a configuration file is nested, down to the positions of parameters. -/
def fileDepth : Nat := 6

/-- Reads the node of a file: its version, if it says one, and the settings. -/
def ofDocument? (node : Node) : Option (Option Nat × Config) := do
  let anchors := node.anchors
  let fields ← node.fields? ["version", "taint"] anchors
  let version ← Node.field fields "version" (some none)
    (Node.optional? (Node.natBelow? (Nat.pow 2 32)) anchors)
  let config ← Node.field fields "taint" (some {}) (ofNode? anchors)
  if node.isRepetitive fileDepth then none else some (version, config)

/-- Reads a configuration file and checks that the configuration can be used. -/
def read (text : String) : Except ConfigError Config :=
  match (Yaml.read? text).bind ofDocument? with
  | none => .error .malformed
  | some (none, _) => .error .missingVersion
  | some (some version, config) =>
    if version = 1 then
      match config.validate with
      | .ok () => .ok config
      | .error e => .error e
    else .error (.unsupportedVersion version)

/-- The text of a configuration file. -/
def write (c : Config) : String :=
  (Node.record [("version", .plain "1"), ("taint", c.toNode)]).write

end Config

end TaintTrail
