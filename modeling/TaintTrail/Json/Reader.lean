import TaintTrail.Json.Basic

/-!
# Reading JSON

A text is first cut into tokens and the tokens are then assembled into one value. The cut works
through the text one character at a time; a word or number extends as far as it can and is
classified when it ends. Reading is strict: no comments, no trailing commas, no text after the
value, no control characters inside strings, no leading zeros. A number with fraction or exponent,
and minus zero, are kept as `Json.real`.
-/

namespace TaintTrail.Json

/-- A piece of a JSON text; `leaf` carries a value that is neither array nor object. -/
inductive Token where
  | openArr
  | closeArr
  | openObj
  | closeObj
  | comma
  | colon
  | leaf (value : Json)

/-- Blank characters between tokens. -/
def isBlank (c : Char) : Bool := c = ' ' || c = '\n' || c = '\r' || c = '\t'

/-- The token that a punctuation character is. -/
def punctuation? : Char → Option Token
  | '[' => some .openArr
  | ']' => some .closeArr
  | '{' => some .openObj
  | '}' => some .closeObj
  | ',' => some .comma
  | ':' => some .colon
  | _ => none

/-- The value of a hexadecimal digit. -/
def hexValue? (c : Char) : Option Nat :=
  if '0' ≤ c ∧ c ≤ '9' then some (c.toNat - 48)
  else if 'a' ≤ c ∧ c ≤ 'f' then some (c.toNat - 87)
  else if 'A' ≤ c ∧ c ≤ 'F' then some (c.toNat - 55)
  else none

/-- The character that a one-letter escape stands for. -/
def letterEscape? : Char → Option Char
  | '"' => some '"'
  | '\\' => some '\\'
  | '/' => some '/'
  | 'b' => some '\x08'
  | 'f' => some '\x0c'
  | 'n' => some '\n'
  | 'r' => some '\r'
  | 't' => some '\t'
  | _ => none

/-- The first half of a surrogate pair. -/
def isHighSurrogate (n : Nat) : Bool := 0xD800 ≤ n && n < 0xDC00

/-- The second half of a surrogate pair. -/
def isLowSurrogate (n : Nat) : Bool := 0xDC00 ≤ n && n < 0xE000

/-- The characters named by a list of code numbers: two halves of a surrogate pair in a row are one
character, and a half that stands alone names none. -/
def charsOfCodes? : List Nat → Option (List Char)
  | [] => some []
  | n :: rest =>
    if isHighSurrogate n then
      match rest with
      | low :: rest =>
        if isLowSurrogate low then
          (charsOfCodes? rest).map
            (Char.ofNat (0x10000 + (n - 0xD800) * 0x400 + (low - 0xDC00)) :: ·)
        else none
      | [] => none
    else if isLowSurrogate n then none
    else (charsOfCodes? rest).map (Char.ofNat n :: ·)

/-- A non-empty run of digits at the start, and what follows it. -/
def digits? (cs : List Char) : Option (List Char × List Char) :=
  if (cs.takeWhile Char.isDigit).isEmpty then none
  else some (cs.takeWhile Char.isDigit, cs.dropWhile Char.isDigit)

/-- What follows the fraction of a number, if there is one; `none` if it has no digits. -/
def afterFraction? : List Char → Option (List Char)
  | '.' :: cs => (digits? cs).map (·.2)
  | cs => some cs

/-- What follows the exponent of a number, if there is one; `none` if it has no digits. -/
def afterExponent? : List Char → Option (List Char)
  | c :: cs =>
    if c = 'e' ∨ c = 'E' then
      match cs with
      | '+' :: ds => (digits? ds).map (·.2)
      | '-' :: ds => (digits? ds).map (·.2)
      | ds => (digits? ds).map (·.2)
    else some (c :: cs)
  | [] => some []

/-- The number that an unsigned run of characters is, given the whole literal and its sign. -/
def unsigned? (negative : Bool) (written cs : List Char) : Option Json := do
  let (whole, rest) ← digits? cs
  if whole.head? = some '0' ∧ whole.length ≠ 1 then none
  else if rest.isEmpty then
    let n := Nat.ofDigitChars 10 whole 0
    if negative then
      if n = 0 then some (.real (String.ofList written)) else some (.int (-n))
    else some (.int n)
  else
    let rest ← afterFraction? rest
    let rest ← afterExponent? rest
    if rest.isEmpty then some (.real (String.ofList written)) else none

/-- The value of a run of characters outside strings: a keyword or a number. -/
def literal? (cs : List Char) : Option Json :=
  if cs = ['n', 'u', 'l', 'l'] then some .null
  else if cs = ['t', 'r', 'u', 'e'] then some (.bool true)
  else if cs = ['f', 'a', 'l', 's', 'e'] then some (.bool false)
  else match cs with
    | '-' :: ds => unsigned? true cs ds
    | ds => unsigned? false cs ds

/-- What the characters read so far leave open. Lists are kept with the last character first. -/
inductive Scan where
  /-- Between two tokens. -/
  | gap
  /-- In a keyword or number. -/
  | word (seen : List Char)
  /-- In a string, after the characters with these code numbers. -/
  | inText (codes : List Nat)
  /-- In a string, after a backslash. -/
  | inEscape (codes : List Nat)
  /-- In a string, in a numeric escape with so many digits to come. -/
  | inHex (codes : List Nat) (missing value : Nat)

/-- Begin a token: the new state and the token that is complete already. -/
def Scan.begin (c : Char) : Scan × List Token :=
  if isBlank c then (.gap, [])
  else match punctuation? c with
    | some token => (.gap, [token])
    | none => if c = '"' then (.inText [], []) else (.word [c], [])

/-- Read one character: the new state and the tokens that it completes. -/
def Scan.step (c : Char) : Scan → Option (Scan × List Token)
  | .gap => some (Scan.begin c)
  | .word seen =>
    if isBlank c ∨ (punctuation? c).isSome ∨ c = '"' then do
      let value ← literal? seen.reverse
      let (state, tokens) := Scan.begin c
      some (state, .leaf value :: tokens)
    else some (.word (c :: seen), [])
  | .inText codes =>
    if c = '"' then
      some (.gap, [.leaf (.str ((charsOfCodes? codes.reverse).map String.ofList))])
    else if c = '\\' then some (.inEscape codes, [])
    else if c.toNat < 32 then none
    else some (.inText (c.toNat :: codes), [])
  | .inEscape codes =>
    if c = 'u' then some (.inHex codes 4 0, [])
    else (letterEscape? c).map fun e => (.inText (e.toNat :: codes), [])
  | .inHex codes missing value => do
    let digit ← hexValue? c
    if missing ≤ 1 then some (.inText ((value * 16 + digit) :: codes), [])
    else some (.inHex codes (missing - 1) (value * 16 + digit), [])

/-- The tokens of a text, from a given state. -/
def tokensFrom? : Scan → List Char → Option (List Token)
  | .gap, [] => some []
  | .word seen, [] => (literal? seen.reverse).map fun value => [.leaf value]
  | _, [] => none
  | state, c :: cs => do
    let (state, tokens) ← state.step c
    let rest ← tokensFrom? state cs
    some (tokens ++ rest)

/-- The tokens of a text. -/
def tokens? (s : String) : Option (List Token) := tokensFrom? .gap s.toList

mutual

/-- One value at the start of the tokens, and the tokens after it. The first argument bounds the
number of calls; a bound of twice the number of tokens never binds. -/
def value? : Nat → List Token → Option (Json × List Token)
  | _, .leaf value :: rest => some (value, rest)
  | _, .openArr :: .closeArr :: rest => some (.arr [], rest)
  | fuel + 1, .openArr :: rest => (items? fuel rest).map fun (xs, rest) => (.arr xs, rest)
  | _, .openObj :: .closeObj :: rest => some (.obj [], rest)
  | fuel + 1, .openObj :: rest => (members? fuel rest).map fun (xs, rest) => (.obj xs, rest)
  | _, _ => none

/-- The items of an array up to its closing bracket. -/
def items? : Nat → List Token → Option (List Json × List Token)
  | 0, _ => none
  | fuel + 1, tokens => do
    let (x, rest) ← value? fuel tokens
    match rest with
    | .comma :: rest =>
      let (xs, rest) ← items? fuel rest
      some (x :: xs, rest)
    | .closeArr :: rest => some ([x], rest)
    | _ => none

/-- The members of an object up to its closing brace. -/
def members? : Nat → List Token → Option (List (Option String × Json) × List Token)
  | fuel + 1, .leaf (.str key) :: .colon :: tokens => do
    let (x, rest) ← value? fuel tokens
    match rest with
    | .comma :: rest =>
      let (xs, rest) ← members? fuel rest
      some ((key, x) :: xs, rest)
    | .closeObj :: rest => some ([(key, x)], rest)
    | _ => none
  | _, _ => none

end

/-- The value that a text is, if it is JSON. -/
def read? (s : String) : Option Json := do
  let tokens ← tokens? s
  let (value, rest) ← value? (2 * tokens.length) tokens
  if rest.isEmpty then some value else none

end TaintTrail.Json
