import TaintTrail.Yaml.Anchor
import TaintTrail.Yaml.Core
import TaintTrail.Yaml.Tag

/-!
# Decoding YAML nodes

Readings of a node as a value of another type. Aliases are followed to the anchored nodes of the
document. A value that is not written at all stands for an empty sequence or mapping.
-/

namespace TaintTrail.Yaml.Node

variable {α : Type}

/-- The text of a scalar. -/
def text? (anchors : Anchors) (node : Node) : Option String :=
  match node.resolve anchors with
  | .scalar _ _ text => some text
  | _ => none

/-- The text of a scalar that may stand for a value of a kind: it is written plainly, or it is a
literal block with the tag of the kind. -/
def plainText? (anchors : Anchors) (kind : String) (node : Node) : Option String :=
  match node.resolve anchors with
  | .scalar style tag text =>
    if style = .plain || (style = .literal && tag = some kind) then some text else none
  | _ => none

/-- The truth value that a scalar stands for. -/
def bool? (anchors : Anchors) (node : Node) : Option Bool :=
  (node.plainText? anchors Tag.bool).bind Core.bool?

/-- The whole number below a bound that a scalar stands for. -/
def natBelow? (bound : Nat) (anchors : Anchors) (node : Node) : Option Nat :=
  ((node.plainText? anchors Tag.int).bind Core.nat?).filter (· < bound)

/-- A value, or nothing. A tag decides whether a plain scalar stands for nothing. -/
def optional? (value : Anchors → Node → Option α) (anchors : Anchors) (node : Node) :
    Option (Option α) :=
  match node.resolve anchors with
  | .scalar .plain none text =>
    if Core.isNull text then some none else (value anchors node).map some
  | .scalar .plain (some tag) text =>
    if tag ≠ Tag.null then (value anchors node).map some
    else if text ≠ "" && Core.isNull text then some none
    else none
  | _ => (value anchors node).map some

/-- The items of a sequence, all of one form. -/
def items? (item : Anchors → Node → Option α) (anchors : Anchors) (node : Node) :
    Option (List α) :=
  match node.resolve anchors with
  | .sequence items => items.mapM (item anchors)
  | .scalar .plain _ "" => some []
  | _ => none

/-- The entries of a mapping by the texts of their keys. -/
def entries? (anchors : Anchors) (node : Node) : Option (List (String × Node)) :=
  match node.resolve anchors with
  | .mapping entries => entries.mapM fun (key, value) => do some (← key.text? anchors, value)
  | .scalar .plain _ "" => some []
  | _ => none

/-- The entries of a mapping that admits only the given keys, each at most once. -/
def fields? (names : List String) (anchors : Anchors) (node : Node) :
    Option (List (String × Node)) := do
  let entries ← node.entries? anchors
  let keys := entries.map (·.1)
  if keys.all (· ∈ names) && keys.Nodup then some entries else none

/-- The value of a key, or a default if the key is not there. -/
def field (fields : List (String × Node)) (name : String) (missing : Option α)
    (value : Node → Option α) : Option α :=
  match fields.lookup name with
  | none => missing
  | some node => value node

end TaintTrail.Yaml.Node
