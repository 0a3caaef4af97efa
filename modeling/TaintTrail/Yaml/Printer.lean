import TaintTrail.Yaml.Core

/-!
# Writing YAML

Documents are written in block style. A mapping is indented by two columns from the key whose value
it is; a sequence is not. A scalar is written as it is if that reads back as the same text, in
single quotes if it can be shown as it is, and in double quotes otherwise. A text with newlines is
written as a literal block where that is possible.
-/

namespace TaintTrail.Yaml

/-- Whether a character is shown as it is, or ends a line. -/
def isPrintable (c : Char) : Bool :=
  let n := c.toNat
  c = '\n' || (0x20 ≤ n && n ≤ 0x7E) || (0xA0 ≤ n && n ≤ 0xFFFD && n ≠ 0xFEFF) || 0x10000 ≤ n

/-- Whether no character of a text starts a comment or ends a key. The character before the text is
a blank if `afterBlank`. -/
def hasNoSeparator (afterBlank : Bool) : List Char → Bool
  | [] => true
  | c :: rest =>
    !(c = ':' && atGap rest) && !(c = '#' && afterBlank) && hasNoSeparator (isBlank c) rest

/-- Whether a text may start with its first character without being taken for something else. -/
def startsPlainly : List Char → Bool
  | [] => false
  | c :: rest =>
    if c = '-' || c = '?' || c = ':' then !atGap rest else c ≠ ' ' && !isIndicator c

/-- Whether a text starts like the mark before or after a document. -/
def startsLikeMark : List Char → Bool
  | '-' :: '-' :: '-' :: _ => true
  | '.' :: '.' :: '.' :: _ => true
  | _ => false

/-- Whether no space of a text stands before the end of a line or of the text. -/
def hasNoTrailingSpace : List Char → Bool
  | [] => true
  | c :: rest => !(c = ' ' && (rest.isEmpty || rest.head?.any isBreak)) && hasNoTrailingSpace rest

/-- Whether no space of a text stands next to the end of a line. -/
def hasNoSpaceAtBreak : List Char → Bool
  | c :: d :: rest =>
    !(c = ' ' && isBreak d) && !(isBreak c && d = ' ') && hasNoSpaceAtBreak (d :: rest)
  | _ => true

/-- Whether a text can be written as it is. -/
def isPlainText (text : String) : Bool :=
  let cs := text.toList
  !Core.isAmbiguous text && cs.all (fun c => isPrintable c && !isBreak c) && startsPlainly cs
    && !startsLikeMark cs && cs.getLast? ≠ some ' ' && hasNoSeparator true cs

/-- How a text is written. -/
def Style.ofText (text : String) : Style :=
  let cs := text.toList
  if cs.any (· = '\n') then
    if cs.all isPrintable && hasNoTrailingSpace cs then .literal else .doubleQuoted
  else if isPlainText text then .plain
  else if cs.all isPrintable && hasNoSpaceAtBreak cs then .singleQuoted
  else .doubleQuoted

/-- The scalar of a text. -/
def Node.text (text : String) : Node := .scalar (Style.ofText text) none text

/-- The hexadecimal digits of a number, at least as many as asked for. -/
def hexDigits (count n : Nat) : List Char :=
  let digits := (Nat.toDigits 16 n).map Char.toUpper
  List.replicate (count - digits.length) '0' ++ digits

/-- A character inside double quotes. -/
def escape (c : Char) : List Char :=
  let n := c.toNat
  let short (letter : Char) : List Char := ['\\', letter]
  match n with
  | 0x00 => short '0'
  | 0x07 => short 'a'
  | 0x08 => short 'b'
  | 0x09 => short 't'
  | 0x0A => short 'n'
  | 0x0B => short 'v'
  | 0x0C => short 'f'
  | 0x0D => short 'r'
  | 0x1B => short 'e'
  | 0x22 => short '"'
  | 0x5C => short '\\'
  | 0x85 => short 'N'
  | 0x2028 => short 'L'
  | 0x2029 => short 'P'
  | n =>
    if isPrintable c then [c]
    else if n ≤ 0xFF then short 'x' ++ hexDigits 2 n
    else if n ≤ 0xFFFF then short 'u' ++ hexDigits 4 n
    else short 'U' ++ hexDigits 8 n

/-- A text in double quotes. -/
def doubleQuoted (text : String) : List Char := '"' :: (text.toList.flatMap escape ++ ['"'])

/-- A text in single quotes. -/
def singleQuoted (text : String) : List Char :=
  let double (c : Char) : List Char := if c = '\'' then ['\'', '\''] else [c]
  '\'' :: (text.toList.flatMap double ++ ['\''])

/-- A line of a document, and the character that ends it. -/
structure Line where
  text : List Char
  stop : Char := '\n'

namespace Line

/-- The lines of a text. -/
def split : List Char → List Line
  | [] => [⟨[], '\n'⟩]
  | c :: rest =>
    if isBreak c then ⟨[], c⟩ :: split rest
    else
      match split rest with
      | line :: more => { line with text := c :: line.text } :: more
      | [] => [⟨[c], '\n'⟩]

/-- Indents a line by two columns, unless it is empty. -/
def indent (line : Line) : Line :=
  if line.text.isEmpty then line else { line with text := ' ' :: ' ' :: line.text }

/-- The characters of a line. -/
def chars (line : Line) : List Char := line.text ++ [line.stop]

end Line

/-- The header of a literal block and its lines. -/
def literalLines (text : String) : List Line :=
  let cs := text.toList
  let hint := if cs.head?.any fun c => c = ' ' || isBreak c then ['2'] else []
  let isEnded := cs.getLast?.any isBreak
  let chomping := if !isEnded then ['-'] else if cs.dropLast.getLast?.all isBreak then ['+'] else []
  let lines := Line.split cs
  ⟨'|' :: (hint ++ chomping), '\n'⟩ :: (if isEnded then lines.dropLast else lines)

/-- The lines of a scalar. The first goes behind a key or a dash, the others below it. -/
def scalarLines (style : Style) (text : String) : List Line :=
  match style with
  | .plain => [⟨text.toList, '\n'⟩]
  | .literal => literalLines text
  | .singleQuoted => Line.split (singleQuoted text)
  | _ => [⟨doubleQuoted text, '\n'⟩]

/-- Writes what belongs to a key behind and below it. The first line goes behind the key. -/
def behind (opening : List Char) : List Line → List Line
  | [] => [⟨opening, '\n'⟩]
  | first :: rest => { first with text := opening ++ first.text } :: rest.map Line.indent

/-- The text of a key, which has to be a plain scalar. -/
def Node.keyText : Node → List Char
  | .scalar _ _ text => text.toList
  | _ => []

mutual

/-- The lines of a node without anchors. -/
def Node.lines : Node → List Line
  | .scalar style _ text => scalarLines style text
  | .sequence items => if items.isEmpty then [⟨['[', ']'], '\n'⟩] else itemLines items
  | .mapping entries =>
    if entries.isEmpty then [⟨['\x7b', '\x7d'], '\n'⟩] else entryLines entries
  | .anchored _ node => node.lines
  | .alias _ => []

/-- The lines of the items of a sequence. -/
def itemLines : List Node → List Line
  | [] => []
  | item :: rest => behind ['-', ' '] item.lines ++ itemLines rest

/-- The lines of the entries of a mapping. -/
def entryLines : List (Node × Node) → List Line
  | [] => []
  | (key, value) :: rest =>
    (match value with
      | .sequence (item :: items) => ⟨key.keyText ++ [':'], '\n'⟩ :: itemLines (item :: items)
      | .mapping (entry :: entries) =>
        ⟨key.keyText ++ [':'], '\n'⟩ :: (entryLines (entry :: entries)).map Line.indent
      | value => behind (key.keyText ++ [':', ' ']) value.lines) ++ entryLines rest

end

/-- The text of a document without anchors and tags, whose keys are plain. -/
def Node.write (node : Node) : String := String.ofList (node.lines.flatMap Line.chars)

end TaintTrail.Yaml
