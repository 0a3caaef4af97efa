import TaintTrail.Yaml.Cursor

/-!
# Scalars

Scalars that may extend over several lines. Inside them the blanks around an end of line are
dropped. One end of line stands for a space, and of several ones all but the first are kept.
-/

namespace TaintTrail.Yaml

/-- What stands between two words of a scalar, the last character first. -/
inductive Spacing where
  /-- Blanks of one line. -/
  | blanks (cs : List Char)
  /-- Ends of lines. -/
  | breaks (cs : List Char)
  /-- Ends of lines after one that was escaped. -/
  | joined (cs : List Char)

namespace Spacing

/-- Nothing between two words. -/
def none : Spacing := .blanks []

/-- Whether words are apart. -/
def isSome : Spacing → Bool
  | .blanks cs => !cs.isEmpty
  | _ => true

/-- Whether an end of line stands between words. -/
def isBroken : Spacing → Bool
  | .blanks _ => false
  | _ => true

/-- Adds a blank. -/
def addBlank (c : Char) : Spacing → Spacing
  | .blanks cs => .blanks (c :: cs)
  | s => s

/-- Adds an end of line. -/
def addBreak (c : Char) : Spacing → Spacing
  | .blanks _ => .breaks [c]
  | .breaks cs => .breaks (c :: cs)
  | .joined cs => .joined (c :: cs)

/-- What the spacing stands for, the last character first. -/
def text : Spacing → List Char
  | .blanks cs => cs
  | .joined cs => cs
  | .breaks cs =>
    match cs.reverse with
    | ['\n'] => [' ']
    | '\n' :: more => more.reverse
    | _ => cs

end Spacing

/-- A scalar that was read. -/
structure Scanned where
  style : Style
  text : String
  isMultiline : Bool
  /-- The position behind the scalar. -/
  next : Cursor

/-- The scalar of a text that was collected backwards. -/
def Scanned.ofReversed (style : Style) (text : List Char) (isMultiline : Bool) (next : Cursor) :
    Scanned :=
  ⟨style, String.ofList text.reverse, isMultiline, next⟩

/-- The node of a scalar. -/
def Scanned.node (s : Scanned) : Node := .scalar s.style none s.text

namespace Plain

/-- Whether a plain scalar starts here. -/
def starts (inFlow : Bool) : List Char → Bool
  | [] => false
  | c :: rest =>
    if c = '-' then !atGap rest
    else if c = '?' || c = ':' then !inFlow && !atGap rest
    else !isBlank c && !isBreak c && !isIndicator c

/-- Whether a plain scalar ends before a character, which is not blank. -/
def stops (inFlow : Bool) (least : Nat) (spacing : Spacing) (column : Nat) (c : Char)
    (rest : List Char) : Bool :=
  (column = 0 && atMark (c :: rest)) || (c = '#' && spacing.isSome)
    || (spacing.isBroken && !inFlow && column < least) || (c = ':' && atGap rest)
    || (inFlow && isFlowIndicator c)

/-- Whether a colon stands where a flow collection admits none. -/
def isMisplaced (inFlow : Bool) (c : Char) : List Char → Bool
  | d :: _ => inFlow && c = ':' && (isFlowIndicator d || d = '?')
  | [] => false

/-- Reads a plain scalar whose lines have to start in columns from `least` on. -/
def scan (inFlow : Bool) (least : Nat) (text : List Char) (spacing : Spacing) (isMultiline : Bool)
    (column : Nat) : List Char → Option Scanned
  | [] => some (.ofReversed .plain text isMultiline ⟨spacing.isBroken, column, []⟩)
  | c :: rest =>
    if isBreak c then scan inFlow least text (spacing.addBreak c) isMultiline 0 rest
    else if isBlank c then
      if c = '\t' && spacing.isBroken && column < least then none
      else scan inFlow least text (spacing.addBlank c) isMultiline (column + 1) rest
    else if stops inFlow least spacing column c rest then
      some (.ofReversed .plain text isMultiline ⟨spacing.isBroken, column, c :: rest⟩)
    else if isMisplaced inFlow c rest then none
    else
      scan inFlow least (c :: (spacing.text ++ text)) .none (isMultiline || spacing.isBroken)
        (column + 1) rest

end Plain

namespace SingleQuoted

/-- Reads the rest of a scalar in single quotes, where a quote is written twice. -/
def scan (text : List Char) (spacing : Spacing) (isMultiline : Bool) (column : Nat) :
    List Char → Option Scanned
  | [] => none
  | '\'' :: '\'' :: rest =>
    scan ('\'' :: (spacing.text ++ text)) .none isMultiline (column + 2) rest
  | c :: rest =>
    if c = '\'' then
      some (.ofReversed .singleQuoted (spacing.text ++ text) isMultiline
        ⟨false, column + 1, rest⟩)
    else if isBreak c then scan text (spacing.addBreak c) true 0 rest
    else if isBlank c then scan text (spacing.addBlank c) isMultiline (column + 1) rest
    else if column = 0 && atMark (c :: rest) then none
    else scan (c :: (spacing.text ++ text)) .none isMultiline (column + 1) rest

end SingleQuoted

namespace DoubleQuoted

/-- The character that one letter behind a backslash stands for. -/
def escaped? : Char → Option Char
  | '0' => some (Char.ofNat 0x00)
  | 'a' => some (Char.ofNat 0x07)
  | 'b' => some (Char.ofNat 0x08)
  | 't' => some '\t'
  | '\t' => some '\t'
  | 'n' => some '\n'
  | 'v' => some (Char.ofNat 0x0B)
  | 'f' => some (Char.ofNat 0x0C)
  | 'r' => some '\r'
  | 'e' => some (Char.ofNat 0x1B)
  | ' ' => some ' '
  | '"' => some '"'
  | '/' => some '/'
  | '\\' => some '\\'
  | 'N' => some '\u0085'
  | '_' => some '\u00a0'
  | 'L' => some '\u2028'
  | 'P' => some '\u2029'
  | _ => none

/-- The number of hexadecimal digits that a letter behind a backslash announces. -/
def digitCount? : Char → Option Nat
  | 'x' => some 2
  | 'u' => some 4
  | 'U' => some 8
  | _ => none

/-- The character with a number, if there is one. -/
def character? (n : Nat) : Option Char := if n.isValidChar then some (Char.ofNat n) else none

/-- What is expected next inside double quotes. -/
inductive Expected where
  | character
  /-- What follows a backslash. -/
  | escape
  /-- Hexadecimal digits, of which the value so far is given. -/
  | digits (left value : Nat)

/-- Reads the rest of a scalar in double quotes. -/
def scan (text : List Char) (spacing : Spacing) (expected : Expected) (isMultiline : Bool)
    (column : Nat) : List Char → Option Scanned
  | [] => none
  | c :: rest =>
    match expected with
    | .digits left value => do
      let value := 16 * value + (← hexDigit? c)
      if left = 1 then
        scan ((← character? value) :: text) spacing .character isMultiline (column + 1) rest
      else scan text spacing (.digits (left - 1) value) isMultiline (column + 1) rest
    | .escape =>
      if isBreak c then scan text (.joined []) .character true 0 rest
      else
        match digitCount? c with
        | some count => scan text spacing (.digits count 0) isMultiline (column + 1) rest
        | none => do
          scan ((← escaped? c) :: text) spacing .character isMultiline (column + 1) rest
    | .character =>
      if c = '"' then
        some (.ofReversed .doubleQuoted (spacing.text ++ text) isMultiline
          ⟨false, column + 1, rest⟩)
      else if c = '\\' then scan (spacing.text ++ text) .none .escape isMultiline (column + 1) rest
      else if isBreak c then scan text (spacing.addBreak c) .character true 0 rest
      else if isBlank c then scan text (spacing.addBlank c) .character isMultiline (column + 1) rest
      else if column = 0 && atMark (c :: rest) then none
      else scan (c :: (spacing.text ++ text)) .none .character isMultiline (column + 1) rest

end DoubleQuoted

/-- Reads a plain or quoted scalar. -/
def scalar (inFlow : Bool) (least : Nat) (c : Cursor) : Option Scanned :=
  match c.rest with
  | '\'' :: rest => SingleQuoted.scan [] .none false (c.column + 1) rest
  | '"' :: rest => DoubleQuoted.scan [] .none .character false (c.column + 1) rest
  | rest =>
    if Plain.starts inFlow rest then Plain.scan inFlow least [] .none false c.column rest else none

end TaintTrail.Yaml
