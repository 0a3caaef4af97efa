import TaintTrail.Yaml.Scalar

/-!
# Block scalars

Scalars that are written on the lines below their header, all indented alike. A literal scalar keeps
its ends of lines; a folded one replaces those between two lines of words by spaces. The header says
how much of the ends of lines behind the text is kept, and may give the indentation.
-/

namespace TaintTrail.Yaml.BlockScalar

/-- What is kept of the ends of lines behind the text. -/
inductive Chomping where
  /-- Nothing. -/
  | strip
  /-- One end of line. -/
  | clip
  /-- All of them. -/
  | keep
  deriving DecidableEq

/-- What a header says. -/
structure Header where
  isLiteral : Bool
  chomping : Chomping := .clip
  /-- How far the text is indented from its surroundings. -/
  indentation : Option Nat := none

namespace Header

/-- Takes a character of a header into account. -/
def add? (h : Header) (c : Char) : Option Header :=
  if c = '-' && h.chomping = .clip then some { h with chomping := .strip }
  else if c = '+' && h.chomping = .clip then some { h with chomping := .keep }
  else if '1' ≤ c && c ≤ '9' && h.indentation.isNone then
    some { h with indentation := some (c.toNat - '0'.toNat) }
  else none

/-- Reads at most the given number of characters of a header. -/
def scan (h : Header) : Nat → List Char → Header × List Char
  | n + 1, c :: rest =>
    match h.add? c with
    | some h => scan h n rest
    | none => (h, c :: rest)
  | _, rest => (h, rest)

end Header

/-- The lines of a text, with the character that ends each of them. -/
def lines : List Char → List (List Char × Option Char)
  | [] => [([], none)]
  | c :: rest =>
    if isBreak c then ([], some c) :: lines rest
    else
      match lines rest with
      | (line, stop) :: more => (c :: line, stop) :: more
      | [] => [([c], none)]

/-- The text of lines. -/
def joinLines (ls : List (List Char × Option Char)) : List Char :=
  ls.flatMap fun (line, stop) => line ++ stop.toList

/-- The number of spaces that a line starts with. -/
def spaces (line : List Char) : Nat := (line.takeWhile (· = ' ')).length

/-- The column of the text: that of its first line, unless it is too small or an empty line before
it is longer. A tab there is an error. -/
def detect? (column : Nat) : List (List Char × Option Char) → Option Nat
  | [] => some column
  | (line, stop) :: more =>
    match line.drop (spaces line), stop with
    | [], some _ => detect? (max column (spaces line)) more
    | '\t' :: _, _ => none
    | _, _ => some (max column (spaces line))

/-- The text of a block scalar that is being read, the last characters first. -/
structure Text where
  header : Header
  text : List Char := []
  /-- The end of the last line with text. -/
  leading : List Char := []
  /-- The ends of the empty lines behind it. -/
  trailing : List Char := []
  /-- Whether the last line with text starts with a blank. -/
  isIndented : Bool := false

namespace Text

/-- Adds a line with text. -/
def addLine (t : Text) (line : List Char) (stop : Option Char) : Text :=
  let isIndented := line.head?.any isBlank
  let isFolded := !t.header.isLiteral && t.leading = ['\n'] && !t.isIndented && !isIndented
  let between :=
    if isFolded then if t.trailing.isEmpty then [' '] else t.trailing else t.trailing ++ t.leading
  { t with
    text := line.reverse ++ between ++ t.text
    leading := stop.toList
    trailing := []
    isIndented := isIndented }

/-- The scalar, followed by the given position. -/
def finish (t : Text) (next : Cursor) : Scanned :=
  let kept :=
    match t.header.chomping with
    | .strip => []
    | .clip => t.leading
    | .keep => t.trailing ++ t.leading
  .ofReversed (if t.header.isLiteral then .literal else .folded) (kept ++ t.text) true next

/-- Reads the lines that are indented to a column. -/
def scan (column : Nat) (t : Text) : List (List Char × Option Char) → Option Scanned
  | [] => some (t.finish ⟨true, 0, []⟩)
  | (line, stop) :: more =>
    let indent := min column (spaces line)
    match line.drop indent, stop with
    | [], some c => scan column { t with trailing := c :: t.trailing } more
    | rest, stop =>
      if rest.isEmpty || indent < column then
        if rest.head? = some '\t' then none
        else some (t.finish ⟨true, indent, joinLines ((rest, stop) :: more)⟩)
      else scan column (t.addLine rest stop) more

end Text

/-- Reads the block scalar whose header starts here, surrounded by nodes that start in columns below
`least`. -/
def scan? (least : Nat) (isLiteral : Bool) (header : List Char) : Option Scanned := do
  let (h, rest) := Header.scan { isLiteral } 2 header
  let rest := rest.dropWhile isBlank
  let rest := if rest.head? = some '#' then rest.dropWhile (!isBreak ·) else rest
  match rest with
  | [] => some (Text.finish { header := h } ⟨true, 0, []⟩)
  | c :: rest =>
    if isBreak c then
      let ls := lines rest
      let column ← match h.indentation with
        | some n => some (least - 1 + n)
        | none => detect? (max least 1) ls
      Text.scan column { header := h } ls
    else none

end TaintTrail.Yaml.BlockScalar
