import TaintTrail.Yaml.Cursor
import TaintTrail.Yaml.Tag

/-!
# Directives

Lines before a document that say which version of YAML it is written in and what its handles stand
for. If there are any, the mark of the document has to follow them.
-/

namespace TaintTrail.Yaml

/-- What directives say. -/
structure Directives where
  /-- Whether the version has been given. -/
  hasVersion : Bool := false
  handles : Handles := []

namespace Directives

/-- Reads a number of at most nine digits. -/
def number? (cs : List Char) : Option (Nat × List Char) :=
  let digits := cs.takeWhile Char.isDigit
  if digits = [] || 9 < digits.length then none
  else
    some (digits.foldl (fun n c => 10 * n + (c.toNat - '0'.toNat)) 0, cs.drop digits.length)

/-- Whether a document of a version can be read. -/
def isSupported (major minor : Nat) : Bool := major = 1 && (minor = 1 || minor = 2)

/-- Reads the value of the directive for the version. -/
def version? (d : Directives) (cs : List Char) : Option (Directives × List Char) := do
  let (major, rest) ← number? (cs.dropWhile isBlank)
  if rest.head? = some '.' then
    let (minor, rest) ← number? (rest.drop 1)
    if isSupported major minor && !d.hasVersion then some ({ d with hasVersion := true }, rest)
    else none
  else none

/-- Reads the handle that a directive is about, with a blank behind it. -/
def handle? : List Char → Option (String × List Char)
  | '!' :: cs =>
    ((Tag.handle? cs).or (some ("!", cs))).filter fun (_, rest) => rest.head?.any isBlank
  | _ => none

/-- Reads the value of a directive for a handle. -/
def tag? (d : Directives) (cs : List Char) : Option (Directives × List Char) := do
  let (handle, rest) ← handle? (cs.dropWhile isBlank)
  let (text, rest) ← Tag.chars? true (rest.dropWhile isBlank)
  if atGap rest && !d.handles.any (·.1 = handle) then
    some ({ d with handles := d.handles ++ [(handle, text)] }, rest)
  else none

/-- Reads the name of a directive, from behind its percent sign on, and its value. -/
def named? (d : Directives) (cs : List Char) : Option (Directives × List Char) :=
  let name := cs.takeWhile isNameChar
  let rest := cs.drop name.length
  if !atGap rest then none
  else if name = "YAML".toList then d.version? rest
  else if name = "TAG".toList then d.tag? rest
  else none

/-- Goes past the rest of a line, which may hold a comment. -/
def skipLine? (cs : List Char) : Option (List Char) :=
  let rest := cs.dropWhile isBlank
  let rest := if rest.head? = some '#' then rest.dropWhile (!isBreak ·) else rest
  match rest with
  | [] => some []
  | c :: rest => if isBreak c then some rest else none

/-- Reads at most the given number of directives, up to the mark of the document. -/
def read? : Nat → Directives → Cursor → Option (Directives × Cursor)
  | 0, _, _ => none
  | n + 1, d, c =>
    match c.rest with
    | '%' :: rest => do
      if c.column = 0 then
        let (d, rest) ← d.named? rest
        read? n d (← Cursor.skip ⟨false, 0, ← skipLine? rest⟩ false)
      else none
    | rest => if c.isMark && rest.head? = some '-' then some (d, c) else none

/-- What the handles of a document stand for. -/
def allHandles (d : Directives) : Handles := d.handles ++ Tag.usualHandles

end Directives

end TaintTrail.Yaml
