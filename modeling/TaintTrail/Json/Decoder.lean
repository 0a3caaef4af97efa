import TaintTrail.Json.Basic

/-!
# Decoding JSON values

A decoder turns a JSON value into a value of another type, or refuses it. It is told how many
levels of arrays and objects it may still enter; what it skips is not entered, so members that a
record does not know may be nested to any depth.

A record is an object whose known members are written at most once, or the array of its fields in
order. One of several alternatives is written as its name, or as an object with the name as its
only key.
-/

namespace TaintTrail.Json

/-- Reads a value of type `α`, entering at most the given number of levels. -/
abbrev Decoder (α : Type) := Nat → Json → Option α

/-- The levels that a document may be nested. -/
def maxNesting : Nat := 127

namespace Decoder

variable {α β : Type}

/-- `true` or `false`. -/
def bool : Decoder Bool
  | _, .bool b => some b
  | _, _ => none

/-- A string that denotes a text. -/
def string : Decoder String
  | _, .str text => text
  | _, _ => none

/-- A whole number below a bound. -/
def natBelow (bound : Nat) : Decoder Nat
  | _, .int (.ofNat n) => if n < bound then some n else none
  | _, _ => none

/-- A whole number of at most 32 bits. -/
def word : Decoder Nat := natBelow (Nat.pow 2 32)

/-- A whole number of at most 64 bits. -/
def doubleWord : Decoder Nat := natBelow (Nat.pow 2 64)

/-- A signed number of at most 64 bits. -/
def signed : Decoder Int
  | _, .int n => if -Int.pow 2 63 ≤ n ∧ n < Int.pow 2 63 then some n else none
  | _, _ => none

/-- An array whose items all have one form. -/
def list (item : Decoder α) : Decoder (List α)
  | levels + 1, .arr items => items.mapM (item levels)
  | _, _ => none

/-- An array of two items. -/
def pair (first : Decoder α) (second : Decoder β) : Decoder (α × β)
  | levels + 1, .arr [x, y] => do some (← first levels x, ← second levels y)
  | _, _ => none

/-- `null` for an absent value. -/
def option (value : Decoder α) : Decoder (Option α)
  | _, .null => some none
  | levels, j => (value levels j).map some

/-- An object from names to values of one form, in the order written. -/
def dictionary (value : Decoder α) : Decoder (List (String × α))
  | levels + 1, .obj members => members.mapM fun (key, j) => do some (← key, ← value levels j)
  | _, _ => none

end Decoder

/-- The known members of a record, by field name. -/
abbrev Fields := List (String × Json)

/-- The known members of an object, if every key is a text and no known key is written twice. -/
def knownMembers? (names : List String) : List (Option String × Json) → Option Fields
  | [] => some []
  | (none, _) :: _ => none
  | (some key, j) :: rest => do
    let fields ← knownMembers? names rest
    if key ∈ names then
      if fields.any (·.1 = key) then none else some ((key, j) :: fields)
    else some fields

/-- The fields of a record that is written as an object or as an array of its fields in order. -/
def fields? (names : List String) : Json → Option Fields
  | .obj members => knownMembers? names members
  | .arr items => if items.length ≤ names.length then some (names.zip items) else none
  | _ => none

/-- The fields of the record under a key of alternatives. Written as an array, it has all of its
fields. -/
def payload? (names : List String) : Json → Option Fields
  | .obj members => knownMembers? names members
  | .arr items => if items.length = names.length then some (names.zip items) else none
  | _ => none

/-- The fields of a record that admits no other members. -/
def exactFields? (names : List String) : Json → Option Fields
  | .obj members =>
    if members.all fun (key, _) => key.any (· ∈ names) then knownMembers? names members else none
  | j => fields? names j

namespace Fields

variable {α : Type}

/-- The value of a field. -/
def get? (fields : Fields) (name : String) : Option Json := fields.lookup name

/-- A field that has to be there. -/
def required (fields : Fields) (name : String) (read : Json → Option α) : Option α :=
  (fields.get? name).bind read

/-- A field that stands for a given value when it is missing. -/
def withDefault (fields : Fields) (name : String) (value : α) (read : Json → Option α) : Option α :=
  match fields.get? name with
  | none => some value
  | some j => read j

/-- A field that may be missing or `null`. -/
def optional (fields : Fields) (name : String) (read : Json → Option α) : Option (Option α) :=
  fields.withDefault name none fun
    | .null => some none
    | j => (read j).map some

end Fields

/-- A name that stands for one of the given values, alone or as the key of `null`. -/
def oneOf? {α : Type} (values : List (String × α)) : Decoder α
  | _, .str (some name) => values.lookup name
  | _ + 1, .obj [(some name, .null)] => values.lookup name
  | _, _ => none

end TaintTrail.Json
