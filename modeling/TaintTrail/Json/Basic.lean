/-!
# JSON values

The tree that programs, facts and reports are written to and read from. Objects keep the order and
the repetitions of their members, because both decide whether a document is accepted. Numbers
written without fraction and exponent are exact integers; every other number is kept as written.
-/

namespace TaintTrail

/-- A JSON value. A string is `none` when it is well formed but its escapes name half of a
surrogate pair, so that it denotes no text. -/
inductive Json where
  | null
  | bool (value : Bool)
  | int (value : Int)
  | real (written : String)
  | str (text : Option String)
  | arr (items : List Json)
  | obj (members : List (Option String × Json))
  deriving Inhabited

namespace Json

/-- The string value of a text. -/
def text (s : String) : Json := .str (some s)

/-- The number value of a count. -/
def nat (n : Nat) : Json := .int n

/-- The object with the given members, in order. -/
def object (members : List (String × Json)) : Json :=
  .obj (members.map fun (key, value) => (some key, value))

/-- The array of the images of a list. -/
def array {α : Type} (f : α → Json) (xs : List α) : Json := .arr (xs.map f)

/-- `null`, or the value that is there. -/
def option {α : Type} (f : α → Json) : Option α → Json
  | none => .null
  | some a => f a

mutual

/-- How many arrays and objects enclose the innermost value, the outermost one included. -/
def nesting : Json → Nat
  | .arr items => nestingItems items + 1
  | .obj members => nestingMembers members + 1
  | _ => 0

/-- The deepest nesting among the items of an array. -/
def nestingItems : List Json → Nat
  | [] => 0
  | x :: xs => max x.nesting (nestingItems xs)

/-- The deepest nesting among the members of an object. -/
def nestingMembers : List (Option String × Json) → Nat
  | [] => 0
  | (_, x) :: xs => max x.nesting (nestingMembers xs)

end

end Json

end TaintTrail
