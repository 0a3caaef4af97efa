import TaintTrail.Json.Basic

/-!
# Writing JSON

Two layouts of one value: `compact`, without any blank, and `pretty`, one item or member per line
and two blanks per level, where an empty array or object stays on its line.
-/

namespace TaintTrail.Json

/-- The hexadecimal digit of a number below sixteen, in lower case. -/
def hexDigit (n : Nat) : Char := if n < 10 then Char.ofNat (48 + n) else Char.ofNat (87 + n)

/-- A character inside a string: quote, backslash and control characters are escaped, the frequent
ones by a letter and the others by four hexadecimal digits; all else stands for itself. -/
def escapeChar (c : Char) : List Char :=
  if c = '"' then ['\\', '"']
  else if c = '\\' then ['\\', '\\']
  else if c = '\n' then ['\\', 'n']
  else if c = '\r' then ['\\', 'r']
  else if c = '\t' then ['\\', 't']
  else if c = '\x08' then ['\\', 'b']
  else if c = '\x0c' then ['\\', 'f']
  else if c.toNat < 32 then ['\\', 'u', '0', '0', hexDigit (c.toNat / 16), hexDigit (c.toNat % 16)]
  else [c]

/-- A quoted string. A string that denotes no text is written as half of a surrogate pair. -/
def quote : Option String → List Char
  | some s => '"' :: (s.toList.flatMap escapeChar ++ ['"'])
  | none => ['"', '\\', 'u', 'd', '8', '0', '0', '"']

/-- The decimal digits of an integer, after a minus sign if it is negative. -/
def decimal : Int → List Char
  | .ofNat n => Nat.toDigits 10 n
  | .negSucc n => '-' :: Nat.toDigits 10 (n + 1)

/-- A value that is neither array nor object. -/
def scalar : Json → List Char
  | .null => ['n', 'u', 'l', 'l']
  | .bool true => ['t', 'r', 'u', 'e']
  | .bool false => ['f', 'a', 'l', 's', 'e']
  | .int n => decimal n
  | .real written => written.toList
  | .str text => quote text
  | .arr _ => []
  | .obj _ => []

mutual

/-- The characters of a value without any blank. -/
def compactChars : Json → List Char
  | .arr items => '[' :: (compactItems items ++ [']'])
  | .obj members => '{' :: (compactMembers members ++ ['}'])
  | j => j.scalar

/-- Items separated by commas. -/
def compactItems : List Json → List Char
  | [] => []
  | [x] => x.compactChars
  | x :: xs => x.compactChars ++ ',' :: compactItems xs

/-- Members separated by commas. -/
def compactMembers : List (Option String × Json) → List Char
  | [] => []
  | [(k, x)] => quote k ++ ':' :: x.compactChars
  | (k, x) :: xs => quote k ++ ':' :: (x.compactChars ++ ',' :: compactMembers xs)

end

/-- A value on one line. -/
def compact (j : Json) : String := String.ofList j.compactChars

/-- A line break and the blanks of a level. -/
def newline (level : Nat) : List Char := '\n' :: List.replicate (2 * level) ' '

mutual

/-- The characters of a value in the layout with one item or member per line; `level` counts the
arrays and objects around it. -/
def prettyChars (level : Nat) : Json → List Char
  | .arr [] => ['[', ']']
  | .arr items => '[' :: (prettyItems (level + 1) items ++ newline level ++ [']'])
  | .obj [] => ['{', '}']
  | .obj members => '{' :: (prettyMembers (level + 1) members ++ newline level ++ ['}'])
  | j => j.scalar

/-- Items, each on a line of its own. -/
def prettyItems (level : Nat) : List Json → List Char
  | [] => []
  | [x] => newline level ++ x.prettyChars level
  | x :: xs => newline level ++ x.prettyChars level ++ ',' :: prettyItems level xs

/-- Members, each on a line of its own. -/
def prettyMembers (level : Nat) : List (Option String × Json) → List Char
  | [] => []
  | [(k, x)] => newline level ++ quote k ++ ':' :: ' ' :: x.prettyChars level
  | (k, x) :: xs =>
    newline level ++ quote k ++ ':' :: ' ' :: (x.prettyChars level ++ ',' :: prettyMembers level xs)

end

/-- A value over several lines. -/
def pretty (j : Json) : String := String.ofList (j.prettyChars 0)

end TaintTrail.Json
