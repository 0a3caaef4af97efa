import TaintTrail.Text.Invisible

/-!
# Quoted texts

The form in which a text is shown to a reader: between double quotes, with quote, backslash and
whatever has no glyph written as an escape. A single quote stands for itself.
-/

namespace TaintTrail.Text

/-- The number of a character in lower-case hexadecimal, as a braced escape. -/
def numericEscape (c : Char) : List Char :=
  ['\\', 'u', '\x7b'] ++ Nat.toDigits 16 c.toNat ++ ['\x7d']

/-- One character of a quoted text. -/
def quotedChar (c : Char) : List Char :=
  if c = '"' then ['\\', '"']
  else if c = '\\' then ['\\', '\\']
  else if c = '\n' then ['\\', 'n']
  else if c = '\r' then ['\\', 'r']
  else if c = '\t' then ['\\', 't']
  else if c = '\x00' then ['\\', '0']
  else if c.toNat < 0x20 then numericEscape c
  else if c.toNat < 0x7F then [c]
  else if isInvisible c then numericEscape c
  else [c]

/-- A text between double quotes. -/
def quoted (s : String) : String :=
  String.ofList ('"' :: (s.toList.flatMap quotedChar ++ ['"']))

end TaintTrail.Text
