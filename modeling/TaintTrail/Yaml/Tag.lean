import TaintTrail.Yaml.Basic

/-!
# Tags

A tag is written in full between angle brackets, or as a handle and a suffix. A handle stands for
the text that comes before the suffix. Characters that may not stand in a tag are written as octets
in hexadecimal digits behind a percent sign. A tag ends before the octet zero.
-/

namespace TaintTrail.Yaml

/-- Whether a character may stand in the name of an anchor, a handle or a directive. -/
def isNameChar (c : Char) : Bool := c.isAlphanum || c = '_' || c = '-'

/-- What handles stand for. -/
abbrev Handles := List (String × String)

namespace Tag

/-- The handles that need no directive. -/
def usualHandles : Handles := [("!", "!"), ("!!", "tag:yaml.org,2002:")]

/-- The tag of nothing. -/
def null : String := "tag:yaml.org,2002:null"

/-- The tag of truth values. -/
def bool : String := "tag:yaml.org,2002:bool"

/-- The tag of whole numbers. -/
def int : String := "tag:yaml.org,2002:int"

/-- The tag that names no kind. A plain scalar that has it does not stand for nothing. -/
def unspecific : String := "!"

/-- Whether a character may stand in a tag. Commas and brackets may only do so where nothing else
is meant by them. -/
def isTagChar (isDelimited : Bool) (c : Char) : Bool :=
  isNameChar c
    || c ∈ [';', '/', '?', ':', '@', '&', '=', '+', '$', '.', '!', '~', '*', '\'', '(', ')']
    || (isDelimited && c ∈ [',', '[', ']'])

/-- How many octets follow the first one of a character. -/
def following? (octet : Nat) : Option Nat :=
  if octet < 0x80 then some 0
  else if 0xC0 ≤ octet && octet < 0xE0 then some 1
  else if 0xE0 ≤ octet && octet < 0xF0 then some 2
  else if 0xF0 ≤ octet && octet < 0xF8 then some 3
  else none

/-- Reads the characters of a tag, of which the given number of octets is pending. -/
def scan? (isDelimited : Bool) (pending : Nat) : List Char → Option (List Char × List Char)
  | '%' :: high :: low :: rest => do
    let octet := 16 * (← hexDigit? high) + (← hexDigit? low)
    let pending ←
      if pending = 0 then following? octet
      else if octet / 0x40 = 2 then some (pending - 1)
      else none
    let (text, rest) ← scan? isDelimited pending rest
    some (Char.ofNat octet :: text, rest)
  | c :: rest =>
    if pending ≠ 0 || c = '%' then none
    else if isTagChar isDelimited c then
      (scan? isDelimited 0 rest).map fun (text, rest) => (c :: text, rest)
    else some ([], c :: rest)
  | [] => if pending = 0 then some ([], []) else none

/-- The text of the characters of a tag. -/
def ofChars (cs : List Char) : String := String.ofList (cs.takeWhile (· ≠ '\x00'))

/-- Reads characters of a tag, of which there has to be one. -/
def chars? (isDelimited : Bool) (cs : List Char) : Option (String × List Char) :=
  match scan? isDelimited 0 cs with
  | some (c :: text, rest) => some (ofChars (c :: text), rest)
  | _ => none

/-- Reads a handle from behind its first exclamation mark on, if it ends with another one. -/
def handle? (cs : List Char) : Option (String × List Char) :=
  let name := cs.takeWhile isNameChar
  match cs.drop name.length with
  | '!' :: rest => some (String.ofList ('!' :: (name ++ ['!'])), rest)
  | _ => none

/-- Reads a tag from behind its exclamation mark on. -/
def resolve? (handles : Handles) (cs : List Char) : Option (String × List Char) :=
  match cs with
  | '<' :: rest => do
    let (tag, rest) ← chars? true rest
    if rest.head? = some '>' then some (tag, rest.drop 1) else none
  | cs =>
    match handle? cs with
    | some (handle, rest) => do
      let (suffix, rest) ← chars? false rest
      some ((← handles.lookup handle) ++ suffix, rest)
    | none => do
      let (suffix, rest) ← scan? false 0 cs
      let suffix := ofChars suffix
      if suffix = "" then some (unspecific, rest)
      else some ((← handles.lookup "!") ++ suffix, rest)

/-- Reads a tag from behind its exclamation mark on. A blank, an end of line or, inside brackets and
braces, a comma has to follow it. -/
def read? (handles : Handles) (inFlow : Bool) (cs : List Char) : Option (String × List Char) :=
  (resolve? handles cs).filter fun (_, rest) => atGap rest || (inFlow && rest.head? = some ',')

end Tag

end TaintTrail.Yaml
