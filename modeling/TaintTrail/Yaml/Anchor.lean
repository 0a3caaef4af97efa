import TaintTrail.Yaml.Basic

/-!
# Anchored nodes

The nodes that the aliases of a document stand for. A document may follow its aliases only a limited
number of times, which grows with the document.
-/

namespace TaintTrail.Yaml

/-- The anchored nodes of a document, in the order of their starts. -/
abbrev Anchors := List (Nat × Node)

mutual

/-- The anchored nodes in a node. -/
def Node.anchors : Node → Anchors
  | .scalar _ _ _ => []
  | .sequence items => anchorsOfItems items
  | .mapping entries => anchorsOfEntries entries
  | .anchored anchor node => (anchor, node) :: node.anchors
  | .alias _ => []

/-- The anchored nodes in the items of a sequence. -/
def anchorsOfItems : List Node → Anchors
  | [] => []
  | item :: rest => item.anchors ++ anchorsOfItems rest

/-- The anchored nodes in the entries of a mapping. -/
def anchorsOfEntries : List (Node × Node) → Anchors
  | [] => []
  | (key, value) :: rest => key.anchors ++ value.anchors ++ anchorsOfEntries rest

end

/-- The node of an anchor: the last one with its number. -/
def Anchors.node? (anchors : Anchors) (anchor : Nat) : Option Node := anchors.reverse.lookup anchor

/-- The node that is meant: an alias stands for another one, and an anchor changes nothing. -/
def Node.resolve (anchors : Anchors) : Node → Node
  | .anchored _ node => node
  | .alias anchor => (anchors.node? anchor).getD (.alias anchor)
  | node => node

mutual

/-- The number of events in a node: one for each scalar and alias, and two for each collection. -/
def Node.eventCount : Node → Nat
  | .scalar _ _ _ => 1
  | .sequence items => eventCountOfItems items + 2
  | .mapping entries => eventCountOfEntries entries + 2
  | .anchored _ node => node.eventCount
  | .alias _ => 1

/-- The number of events in the items of a sequence. -/
def eventCountOfItems : List Node → Nat
  | [] => 0
  | item :: rest => item.eventCount + eventCountOfItems rest

/-- The number of events in the entries of a mapping. -/
def eventCountOfEntries : List (Node × Node) → Nat
  | [] => 0
  | (key, value) :: rest => key.eventCount + value.eventCount + eventCountOfEntries rest

end

/-- How many aliases are followed in a node down to a given depth. -/
def Node.followedAliases (anchors : Anchors) : Nat → Node → Nat
  | 0, _ => 0
  | n + 1, node =>
    let followed := match node with
      | .alias _ => 1
      | _ => 0
    match node.resolve anchors with
    | .sequence items => followed + (items.map (followedAliases anchors n)).sum
    | .mapping entries =>
      followed + (entries.map fun (key, value) =>
        followedAliases anchors n key + followedAliases anchors n value).sum
    | _ => followed

/-- Whether a document, which is not nested below the given depth, follows its aliases too often. -/
def Node.isRepetitive (node : Node) (depth : Nat) : Bool :=
  100 * node.eventCount < node.followedAliases node.anchors depth

end TaintTrail.Yaml
