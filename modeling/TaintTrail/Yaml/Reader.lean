import TaintTrail.Yaml.BlockScalar
import TaintTrail.Yaml.Property

/-!
# Reading YAML

Nodes are read from left to right. A block collection is known by the column of its items or keys:
deeper columns belong to its parts, and a smaller one ends it. The items of a sequence that is the
value of a key may stand in the column of the key. Inside brackets and braces columns do not matter.
-/

namespace TaintTrail.Yaml

mutual

/-- Reads a node inside brackets or braces, with at most the given depth of calls. -/
def flowNode (least : Nat) : Nat → Reading → Option (Node × Reading)
  | 0, _ => none
  | n + 1, r =>
    if r.isMark then none
    else if r.isAlias then r.alias?
    else if r.isProperty then do
      let (p, r) ← r.property? true
      let r ← r.skip true
      let (q, r) ← if r.isProperty then r.property? true else some ({}, r)
      let p ← p.join? q
      let r ← r.skip true
      if r.isAt [',', ']', '}', ':'] then some (p.attach .empty, r)
      else if r.isProperty || r.isAlias then none
      else (flowNode least n r).map fun (node, r) => (p.attach node, r)
    else
      match r.rest with
      | '[' :: _ => (flowItems least n [] (r.past 1)).map fun (items, r) => (.sequence items, r)
      | '{' :: _ =>
        (flowEntries least n [] (r.past 1)).map fun (entries, r) => (.mapping entries, r)
      | _ => (scalar true least r.toCursor).map fun s => (s.node, r.moveTo s.next)

/-- Reads the value behind a colon inside brackets or braces. -/
def flowValue (least : Nat) : Nat → Reading → Option (Node × Reading)
  | 0, _ => none
  | n + 1, r => do
    let r ← r.skip true
    if r.isAt [',', ']', '}'] then some (.empty, r) else flowNode least n r

/-- Reads what stands behind the mark of an explicit key inside brackets or braces. -/
def flowExplicit (least : Nat) : Nat → Reading → Option ((Node × Node) × Reading)
  | 0, _ => none
  | n + 1, r => do
    let r ← r.skip true
    let (key, r) ← flowNode least n r
    let r ← r.skip true
    if r.isAt [':'] then
      (flowValue least n (r.past 1)).map fun (value, r) => ((key, value), r)
    else some ((key, .empty), r)

/-- Reads an item inside brackets. A key with a value is a mapping of its own. -/
def flowItem (least : Nat) : Nat → Reading → Option (Node × Reading)
  | 0, _ => none
  | n + 1, r =>
    if r.isAt ['?'] then
      (flowExplicit least n (r.past 1)).map fun (entry, r) => (.mapping [entry], r)
    else
      match r.key? true least with
      | some (key, after) =>
        (flowValue least n after).map fun (value, r) => (.mapping [(key, value)], r)
      | none => flowNode least n r

/-- Reads the items up to the closing bracket. The last one may be followed by a comma. -/
def flowItems (least : Nat) : Nat → List Node → Reading → Option (List Node × Reading)
  | 0, _, _ => none
  | n + 1, items, r => do
    let r ← r.skip true
    if r.isMark then none
    else if r.isAt [']'] then some (items.reverse, r.past 1)
    else
      let (item, r) ← flowItem least n r
      let r ← r.skip true
      if r.isAt [','] then flowItems least n (item :: items) (r.past 1)
      else if r.isAt [']'] then some ((item :: items).reverse, r.past 1)
      else none

/-- Reads an entry inside braces. A key may stand alone. -/
def flowEntry (least : Nat) : Nat → Reading → Option ((Node × Node) × Reading)
  | 0, _ => none
  | n + 1, r =>
    if r.isAt ['?'] then flowExplicit least n (r.past 1)
    else
      match r.key? true least with
      | some (key, after) => (flowValue least n after).map fun (value, r) => ((key, value), r)
      | none => (flowNode least n r).map fun (key, r) => ((key, .empty), r)

/-- Reads the entries up to the closing brace. The last one may be followed by a comma. -/
def flowEntries (least : Nat) :
    Nat → List (Node × Node) → Reading → Option (List (Node × Node) × Reading)
  | 0, _, _ => none
  | n + 1, entries, r => do
    let r ← r.skip true
    if r.isMark then none
    else if r.isAt ['}'] then some (entries.reverse, r.past 1)
    else
      let (entry, r) ← flowEntry least n r
      let r ← r.skip true
      if r.isAt [','] then flowEntries least n (entry :: entries) (r.past 1)
      else if r.isAt ['}'] then some ((entry :: entries).reverse, r.past 1)
      else none

end

/-- Whether there is nothing more for a node in columns from `least` on. The header of a block
scalar may stand one column before. -/
def Reading.isAbsent (r : Reading) (least : Nat) : Bool :=
  r.isOutside (if r.isBlockHeader then least - 1 else least)

/-- Reads the property of the other kind that may follow one, unless it belongs to a key. -/
def Reading.otherProperty? (r : Reading) (least : Nat) (p : Properties) :
    Option (Properties × Reading) :=
  if r.isProperty && !r.isAbsent least && !(r.isFresh && r.isKey false least) then do
    let (q, r) ← r.property? false
    some (← p.join? q, ← r.skip false)
  else some (p, r)

mutual

/-- Reads a node that starts here, in a column from `least` on, with at most the given depth of
calls. Below a key, a sequence may start in the column of the key. -/
def blockNode (least : Nat) (isBelowKey : Bool) : Nat → Reading → Option (Node × Reading)
  | 0, _ => none
  | n + 1, r =>
    if r.isItem then
      if r.isFresh then
        (blockItems r.column false n [] r).map fun (items, r) => (.sequence items, r)
      else none
    else if r.isKeyMark || r.isKey false least then
      if r.isFresh then
        (blockEntries r.column n [] r).map fun (entries, r) => (.mapping entries, r)
      else none
    else if r.isAlias then r.alias?
    else if r.isProperty then do
      let (p, r) ← r.property? false
      let (p, r) ← (← r.skip false).otherProperty? least p
      if !r.isAbsent least && (r.isProperty || r.isAlias) && !r.isKey false least then none
      else (blockPart least isBelowKey n r).map fun (node, r) => (p.attach node, r)
    else
      match r.rest with
      | '[' :: _ => flowNode least n r
      | '{' :: _ => flowNode least n r
      | '|' :: rest =>
        (BlockScalar.scan? least true rest).map fun s => (s.node, r.moveTo s.next)
      | '>' :: rest =>
        (BlockScalar.scan? least false rest).map fun s => (s.node, r.moveTo s.next)
      | _ => (scalar false least r.toCursor).map fun s => (s.node, r.moveTo s.next)
termination_by structural n => n

/-- Reads what stands behind the mark of an item, a key or a value, if there is anything. -/
def blockPart (least : Nat) (isBelowKey : Bool) : Nat → Reading → Option (Node × Reading)
  | 0, _ => none
  | n + 1, r =>
    if isBelowKey && r.isItem && r.isFresh && r.column + 1 = least then
      (blockItems r.column true n [] r).map fun (items, r) => (.sequence items, r)
    else if r.isAbsent least then some (.empty, r)
    else blockNode least isBelowKey n r
termination_by structural n => n

/-- Reads the items of a sequence in the given column, from a dash on. A sequence below a key in the
same column ends before the next key. -/
def blockItems (column : Nat) (isBelowKey : Bool) :
    Nat → List Node → Reading → Option (List Node × Reading)
  | 0, _, _ => none
  | n + 1, items, r => do
    let (item, r) ← blockPart (column + 1) false n (← r.pastMark)
    let r ← r.skip false
    if r.isItem && r.column = column then
      if r.isFresh then blockItems column isBelowKey n (item :: items) r else none
    else if r.isOutside column || (isBelowKey && r.column = column) then
      some ((item :: items).reverse, r)
    else none
termination_by structural n => n

/-- Reads an entry of a mapping in the given column. The mark of the value of an explicit key stands
in that column. -/
def blockEntry (column : Nat) : Nat → Reading → Option ((Node × Node) × Reading)
  | 0, _ => none
  | n + 1, r =>
    if r.isKeyMark then do
      let (key, r) ← blockPart (column + 1) true n (← r.pastMark)
      let r ← r.skip false
      if r.isValueMark && r.column = column then
        if r.isFresh then
          (blockPart (column + 1) true n (← r.pastMark)).map fun (value, r) => ((key, value), r)
        else none
      else some ((key, .empty), r)
    else do
      let (key, r) ← r.key? false (column + 1)
      (blockPart (column + 1) true n (← r.skip false)).map fun (value, r) => ((key, value), r)
termination_by structural n => n

/-- Reads the entries of a mapping in the given column, from a key on. -/
def blockEntries (column : Nat) :
    Nat → List (Node × Node) → Reading → Option (List (Node × Node) × Reading)
  | 0, _, _ => none
  | n + 1, entries, r => do
    let (entry, r) ← blockEntry column n r
    let r ← r.skip false
    if r.isOutside column then some ((entry :: entries).reverse, r)
    else if r.column = column && r.isFresh then blockEntries column n (entry :: entries) r
    else none
termination_by structural n => n

end

/-- Whether nothing but marks follows a document. -/
def isClosed : Nat → Cursor → Bool
  | 0, _ => false
  | n + 1, c =>
    match c.skip false with
    | none => false
    | some c => c.rest.isEmpty || (c.isMark && c.isAt ['.'] && isClosed n (c.past 3))

/-- Reads the node of a document, from behind the mark before it on. -/
def documentNode (n : Nat) (r : Reading) : Option (Node × Reading) := do
  let r ← r.skip false
  if r.rest.isEmpty || r.isMark then some (.empty, r) else blockNode 0 false n r

/-- Reads the only document of a text. -/
def document? (cs : List Char) : Option Node := do
  let n := 8 * cs.length + 8
  let start ← Cursor.skip ⟨true, 0, cs⟩ false
  let (directives, start) ←
    if start.isAt ['%'] then Directives.read? n {} start else some ({}, start)
  if start.isMark && start.isAt ['.'] then none
  else
    let start := if start.isMark then start.past 3 else start
    let (node, r) ← documentNode n { toCursor := start, handles := directives.allHandles }
    if isClosed n r.toCursor then some node else none

/-- Reads a text that holds one document, which may be empty. -/
def read? (text : String) : Option Node := (characters? text.toList).bind document?

end TaintTrail.Yaml
