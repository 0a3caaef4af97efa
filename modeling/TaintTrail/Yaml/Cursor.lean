import TaintTrail.Yaml.Basic

/-!
# Positions in a document

A cursor knows the rest of the text, the column, and whether a block collection may start there:
only blanks, marks of items, keys and values, or the start of the line stand before it. Tabs do not
count as indentation, but a byte order mark at the start of a line counts as one column.
-/

namespace TaintTrail.Yaml

/-- A position in a document. -/
structure Cursor where
  /-- Whether a block collection may start here. -/
  isFresh : Bool
  column : Nat
  rest : List Char

namespace Cursor

/-- The position behind some characters of the line, where no block collection may start. -/
def past (c : Cursor) (count : Nat) : Cursor := ⟨false, c.column + count, c.rest.drop count⟩

/-- Whether the mark before or after a document stands here. -/
def isMark (c : Cursor) : Bool := c.column = 0 && atMark c.rest

/-- Whether there is nothing more in columns from `least` on. -/
def isOutside (c : Cursor) (least : Nat) : Bool := c.rest.isEmpty || c.isMark || c.column < least

/-- Whether an item of a block sequence starts here. -/
def isItem (c : Cursor) : Bool :=
  match c.rest with
  | '-' :: rest => atGap rest && !c.isMark
  | _ => false

/-- Whether the mark of an explicit key of a block mapping stands here. -/
def isKeyMark (c : Cursor) : Bool :=
  match c.rest with
  | '?' :: rest => atGap rest
  | _ => false

/-- Whether the mark of a value of a block mapping stands here. -/
def isValueMark (c : Cursor) : Bool :=
  match c.rest with
  | ':' :: rest => atGap rest
  | _ => false

/-- Whether one of the given characters stands here. -/
def isAt (c : Cursor) (cs : List Char) : Bool := c.rest.head?.any (· ∈ cs)

/-- Whether the header of a block scalar stands here. -/
def isBlockHeader (c : Cursor) : Bool := c.isAt ['|', '>']

/-- Whether an anchor or a tag stands here. -/
def isProperty (c : Cursor) : Bool := c.isAt ['&', '!']

/-- Whether an alias stands here. -/
def isAlias (c : Cursor) : Bool := c.isAt ['*']

/-- Goes past blanks, comments, ends of lines, and byte order marks that start a line. -/
def skipFrom (inFlow isFresh inComment : Bool) (column : Nat) : List Char → Option Cursor
  | [] => some ⟨isFresh, column, []⟩
  | c :: rest =>
    if isBreak c then skipFrom inFlow (isFresh || !inFlow) false 0 rest
    else if inComment || c = '#' then skipFrom inFlow isFresh true (column + 1) rest
    else if c = ' ' || (c = '\t' && (inFlow || !isFresh)) || (c = '\ufeff' && column = 0) then
      skipFrom inFlow isFresh false (column + 1) rest
    else if c = '\t' then none
    else some ⟨isFresh, column, c :: rest⟩

/-- The next position that is not blank. A tab before a place where a block collection may start is
an error. -/
def skip (c : Cursor) (inFlow : Bool) : Option Cursor :=
  skipFrom inFlow c.isFresh false c.column c.rest

/-- The position behind the blanks of the line. -/
def skipBlanks (c : Cursor) : Cursor := c.past (c.rest.takeWhile isBlank).length

end Cursor

end TaintTrail.Yaml
