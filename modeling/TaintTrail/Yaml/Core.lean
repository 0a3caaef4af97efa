import TaintTrail.Yaml.Basic

/-!
# The meaning of plain scalars

Which plain texts stand for nothing, a truth value, a whole number or a number.
-/

namespace TaintTrail.Yaml.Core

/-- Whether a text stands for nothing. -/
def isNull (text : String) : Bool := text ∈ ["", "~", "null", "Null", "NULL"]

/-- The truth value that a text stands for. -/
def bool? (text : String) : Option Bool :=
  if text ∈ ["true", "True", "TRUE"] then some true
  else if text ∈ ["false", "False", "FALSE"] then some false
  else none

/-- The value of a digit, of which there are up to sixteen. -/
def digit? (base : Nat) (c : Char) : Option Nat :=
  let value :=
    if '0' ≤ c && c ≤ '9' then c.toNat - '0'.toNat
    else if 'a' ≤ c && c ≤ 'f' then c.toNat - 'a'.toNat + 10
    else if 'A' ≤ c && c ≤ 'F' then c.toNat - 'A'.toNat + 10
    else base
  if value < base then some value else none

/-- The number that digits denote. -/
def digits? (base : Nat) : List Char → Option Nat
  | [] => none
  | cs => cs.foldlM (fun value c => (digit? base c).map (base * value + ·)) 0

/-- Whether digits start with a zero that says nothing. -/
def hasLeadingZero : List Char → Bool
  | '0' :: c :: rest => (c :: rest).all Char.isDigit
  | _ => false

/-- The number that digits denote, in decimal or in the base that they start with. -/
def unsigned? (cs : List Char) : Option Nat :=
  match cs with
  | '0' :: 'x' :: rest => digits? 16 rest
  | '0' :: 'o' :: rest => digits? 8 rest
  | '0' :: 'b' :: rest => digits? 2 rest
  | cs => if hasLeadingZero cs then none else digits? 10 cs

/-- The whole number that a text stands for, if it is not negative. -/
def nat? (text : String) : Option Nat :=
  match text.toList with
  | '+' :: rest => unsigned? rest
  | cs => unsigned? cs

/-- Splits a text after the decimal digits that it starts with. -/
def splitDigits (cs : List Char) : List Char × List Char :=
  (cs.takeWhile Char.isDigit, cs.dropWhile Char.isDigit)

/-- The exponent behind the digits of a number. -/
def exponent? : List Char → Option Int
  | [] => some 0
  | e :: cs =>
    if e = 'e' || e = 'E' then
      match cs with
      | '-' :: rest => (digits? 10 rest).map fun n => -(n : Int)
      | '+' :: rest => (digits? 10 rest).map fun n => (n : Int)
      | rest => (digits? 10 rest).map fun n => (n : Int)
    else none

/-- The digits and the exponent of a decimal number without a sign: `(m, e)` stands for
`m * 10 ^ e`. -/
def decimal? (cs : List Char) : Option (Nat × Int) := do
  let (whole, rest) := splitDigits cs
  let (fraction, rest) := match rest with
    | '.' :: rest => splitDigits rest
    | rest => ([], rest)
  let mantissa ← digits? 10 (whole ++ fraction)
  some (mantissa, (← exponent? rest) - fraction.length)

/-- Whether `m * 10 ^ e` rounds to a finite number of 64 bits. -/
def isFinite (m : Nat) (e : Int) : Bool :=
  let bound := Nat.pow 2 1024 - Nat.pow 2 970
  let places := (Nat.toDigits 10 m).length + e
  if m = 0 || places ≤ 308 then true
  else if places > 309 then false
  else if 0 ≤ e then m * Nat.pow 10 e.toNat < bound
  else m < bound * Nat.pow 10 (-e).toNat

/-- Whether a text without a plus sign is a finite decimal number. -/
def isDecimal (cs : List Char) : Bool :=
  let unsigned := match cs with
    | '-' :: rest => rest
    | cs => cs
  match decimal? unsigned with
  | some (m, e) => isFinite m e
  | none => false

/-- Whether a text is a number in a base that it starts with, of at most 128 bits. -/
def isPrefixed : List Char → Bool
  | '-' :: '0' :: c :: rest => (unsigned? ('0' :: c :: rest)).any (· ≤ Nat.pow 2 127)
  | '-' :: _ => false
  | cs => (unsigned? cs).any (· < Nat.pow 2 128)

/-- Whether a text stands for a number. -/
def isNumber (text : String) : Bool :=
  let cs := text.toList
  let positive := match cs with
    | '+' :: rest => rest
    | cs => cs
  text ∈ ["-.inf", "-.Inf", "-.INF", ".nan", ".NaN", ".NAN"]
    || String.ofList positive ∈ [".inf", ".Inf", ".INF"]
    || (isPrefixed positive || isDecimal positive)
      && !(cs.head? = some '+' && positive.head? = some '-')

/-- Whether a text that is meant as such would be taken for something else, or looks as if it
would. -/
def isAmbiguous (text : String) : Bool :=
  isNull text || (bool? text).isSome || isNumber text
    || (match text.toList with
      | '-' :: rest => hasLeadingZero rest
      | '+' :: rest => hasLeadingZero rest
      | cs => hasLeadingZero cs)

end TaintTrail.Yaml.Core
