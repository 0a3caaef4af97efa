import TaintTrail.Yaml.Directive
import TaintTrail.Yaml.Scalar

/-!
# Anchors, aliases and tags

Before a node may stand an anchor, by which aliases refer to it, and a tag. Anchors are numbered by
how many names have been given before, so a name that is given again gets a new number, and so may
get the next new name. An alias stands for the last node of the document with the number that its
name has at that place.
-/

namespace TaintTrail.Yaml

/-- Where reading has got in a document. -/
structure Reading extends Cursor where
  handles : Handles
  /-- The names of the anchors so far, with their numbers. -/
  names : List (String × Nat) := []

/-- What stands before a node. -/
structure Properties where
  anchor : Option Nat := none
  tag : Option String := none

namespace Properties

/-- Puts two properties of different kinds together. -/
def join? (p q : Properties) : Option Properties :=
  if (p.anchor.isSome && q.anchor.isSome) || (p.tag.isSome && q.tag.isSome) then none
  else some ⟨p.anchor.or q.anchor, p.tag.or q.tag⟩

/-- Gives a scalar its tag. -/
def addTag (p : Properties) : Node → Node
  | .scalar style tag text => .scalar style (p.tag.or tag) text
  | node => node

/-- The node with its properties. Tags of collections are not kept. -/
def attach (p : Properties) (node : Node) : Node :=
  match p.anchor with
  | some anchor => .anchored anchor (p.addTag node)
  | none => p.addTag node

end Properties

namespace Reading

/-- Goes to another position. -/
def moveTo (r : Reading) (c : Cursor) : Reading := { r with toCursor := c }

/-- The position behind some characters of the line. -/
def past (r : Reading) (count : Nat) : Reading := r.moveTo (r.toCursor.past count)

/-- The next position that is not blank. -/
def skip (r : Reading) (inFlow : Bool) : Option Reading := (r.toCursor.skip inFlow).map r.moveTo

/-- The position behind the mark of an item, a key or a value, where a block collection may
start. -/
def pastMark (r : Reading) : Option Reading :=
  ({ r.toCursor.past 1 with isFresh := true }.skip false).map r.moveTo

/-- Reads the name of an anchor or an alias. -/
def name? (cs : List Char) : Option String :=
  let name := cs.takeWhile isNameChar
  let rest := cs.drop name.length
  let isEnd (c : Char) : Bool :=
    c ∈ ['?', ':', ',', ']', '}', '%', '@'] || c.toNat = 0x60
  if name ≠ [] && (atGap rest || rest.head?.any isEnd) then some (String.ofList name) else none

/-- Gives a name to the node that follows. -/
def giveName (r : Reading) (name : String) : Reading :=
  let others := r.names.filter (·.1 ≠ name)
  { r with names := (name, r.names.length) :: others }

/-- Reads the anchor or the tag that stands here. -/
def property? (r : Reading) (inFlow : Bool) : Option (Properties × Reading) :=
  match r.rest with
  | '&' :: rest => do
    let name ← name? rest
    some ({ anchor := some r.names.length }, (r.past (name.length + 1)).giveName name)
  | '!' :: rest => do
    let (tag, after) ← Tag.read? r.handles inFlow rest
    some ({ tag := some tag }, r.past (r.rest.length - after.length))
  | _ => none

/-- Reads the alias that stands here. -/
def alias? (r : Reading) : Option (Node × Reading) :=
  match r.rest with
  | '*' :: rest => do
    let name ← name? rest
    some (.alias (← r.names.lookup name), r.past (name.length + 1))
  | _ => none

/-- The position behind the blanks of the line. -/
def skipBlanks (r : Reading) : Reading := r.moveTo r.toCursor.skipBlanks

/-- Reads at most the given number of properties on one line, and the blanks behind them. -/
def properties? (inFlow : Bool) : Nat → Properties → Reading → Option (Properties × Reading)
  | n + 1, p, r =>
    if r.isProperty then do
      let (q, r) ← r.property? inFlow
      properties? inFlow n (← p.join? q) r.skipBlanks
    else some (p, r)
  | 0, p, r => some (p, r)

/-- The longest key, up to its colon. -/
def maxKeyLength : Nat := 1024

/-- The position behind the colon of a key from `start` to here. -/
def colon? (r : Reading) (inFlow : Bool) (start : Reading) : Option Reading :=
  let r := r.skipBlanks
  match r.rest with
  | ':' :: rest =>
    if (inFlow || atGap rest) && start.rest.length ≤ r.rest.length + maxKeyLength then
      some (r.past 1)
    else none
  | _ => none

/-- Reads a key with its colon, which are on one line: a scalar with its properties, or an alias.
Other lines of a plain scalar would have to start in columns from `least` on. -/
def key? (r : Reading) (inFlow : Bool) (least : Nat) : Option (Node × Reading) := do
  let (p, inner) ← properties? inFlow 2 {} r
  if inner.isAlias then
    let (key, after) ← inner.alias?
    if p.anchor.isNone && p.tag.isNone then some (key, ← after.colon? inFlow r) else none
  else
    let s ← scalar inFlow least inner.toCursor
    if s.isMultiline || s.next.isFresh then none
    else some (p.attach s.node, ← (inner.moveTo s.next).colon? inFlow r)

/-- Whether a key with its colon stands here. -/
def isKey (r : Reading) (inFlow : Bool) (least : Nat) : Bool := (r.key? inFlow least).isSome

end Reading

end TaintTrail.Yaml
