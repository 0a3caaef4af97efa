/-!
# YAML documents

The tree of a document, and the characters that structure its text. A key on the line of its colon
is a scalar or an alias; other keys are introduced by a question mark.
-/

namespace TaintTrail.Yaml

/-- How a scalar is written. -/
inductive Style where
  | plain
  | singleQuoted
  | doubleQuoted
  | literal
  | folded
  deriving DecidableEq, Inhabited, Repr

/-- A node of a document. -/
inductive Node where
  /-- A text, with the tag that says what it stands for. Only if it is written plainly or has such a
  tag, it may stand for a number, a truth value or nothing. -/
  | scalar (style : Style) (tag : Option String) (text : String)
  | sequence (items : List Node)
  | mapping (entries : List (Node × Node))
  /-- A node that aliases may stand for. -/
  | anchored (anchor : Nat) (node : Node)
  /-- Stands for the node of an anchor. -/
  | alias (anchor : Nat)
  deriving Inhabited

namespace Node

/-- A scalar that is written plainly. -/
def plain (text : String) : Node := .scalar .plain none text

/-- The node that is not written at all. -/
def empty : Node := plain ""

/-- A mapping from plain keys. -/
def record (fields : List (String × Node)) : Node :=
  .mapping (fields.map fun (name, value) => (plain name, value))

end Node

/-- Whether a character ends a line. -/
def isBreak (c : Char) : Bool := c = '\n' || c = '\u2028' || c = '\u2029'

/-- Whether a character is a space or a tab. -/
def isBlank (c : Char) : Bool := c = ' ' || c = '\t'

/-- Whether a text is at its end, at the end of a line, or at a blank. -/
def atGap : List Char → Bool
  | [] => true
  | c :: _ => isBlank c || isBreak c

/-- Whether a text starts with the mark before or after a document. -/
def atMark : List Char → Bool
  | '-' :: '-' :: '-' :: rest => atGap rest
  | '.' :: '.' :: '.' :: rest => atGap rest
  | _ => false

/-- Whether a character separates the items of flow collections. -/
def isFlowIndicator (c : Char) : Bool := c = ',' || c = '[' || c = ']' || c = '{' || c = '}'

/-- Whether a character has a meaning of its own at the start of a scalar. -/
def isIndicator (c : Char) : Bool :=
  isFlowIndicator c || c = '-' || c = '?' || c = ':' || c = '#' || c = '&' || c = '*' || c = '!'
    || c = '|' || c = '>' || c = '\'' || c = '"' || c = '%' || c = '@' || c.toNat = 0x60

/-- The value of a hexadecimal digit. -/
def hexDigit? (c : Char) : Option Nat :=
  if '0' ≤ c && c ≤ '9' then some (c.toNat - '0'.toNat)
  else if 'a' ≤ c && c ≤ 'f' then some (c.toNat - 'a'.toNat + 10)
  else if 'A' ≤ c && c ≤ 'F' then some (c.toNat - 'A'.toNat + 10)
  else none

/-- Whether a character may stand in a document. -/
def isAllowed (c : Char) : Bool :=
  let n := c.toNat
  n = 0x09 || n = 0x0A || (0x20 ≤ n && n ≤ 0x7E) || (0xA0 ≤ n && n ≤ 0xFFFD) || 0x10000 ≤ n

/-- The characters of a document with all ends of lines alike, if each of them may stand there. -/
def characters? : List Char → Option (List Char)
  | [] => some []
  | '\r' :: '\n' :: rest => (characters? rest).map ('\n' :: ·)
  | c :: rest =>
    if c = '\r' || c = '\u0085' then (characters? rest).map ('\n' :: ·)
    else if isAllowed c then (characters? rest).map (c :: ·)
    else none

end TaintTrail.Yaml
