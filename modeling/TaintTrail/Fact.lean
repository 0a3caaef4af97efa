import TaintTrail.Location

/-!
# Taint facts

A fact says what is tainted: nothing, the value of an operand, or the memory at a location. Four
kinds of facts carry more: the argument at a position of a variable argument list, the same argument
as seen by a cursor over the list, a branch whose region lasts until a label, and a fact on its way
through a return. The tags are independent fields, and facts are compared and sorted by all of them.
-/

namespace TaintTrail

/-- What a fact taints. -/
inductive Subject where
  /-- Nothing: the fact that holds wherever control can get. -/
  | zero
  /-- The value of an operand. -/
  | value (v : Value)
  /-- The memory at a location. -/
  | memory (l : Location)
  deriving DecidableEq, Ord, Hashable, Inhabited, Repr

/-- A taint fact. -/
structure Fact where
  /-- What is tainted. -/
  subject : Subject
  /-- The position in the variable argument list that the memory stands for. -/
  argIndex : Option Nat := none
  /-- How many arguments the cursor of `list` has passed. -/
  cursor : Option Nat := none
  /-- The cursor object that the fact goes with. -/
  list : Option Location := none
  /-- The path elements that a return drops. -/
  returnSkip : Option Nat := none
  /-- The label that ends the region of a branch. -/
  endLabel : Option String := none
  deriving DecidableEq, Ord, Hashable, Inhabited, Repr

namespace Subject

/-- The JSON form of a subject. -/
def toJson : Subject → Json
  | .zero => .text "Zero"
  | .value v => .object [("Value", v.toJson)]
  | .memory l => .object [("Memory", l.toJson)]

/-- Reads the JSON form of a subject. -/
def ofJson? : Json.Decoder Subject
  | levels + 1, .obj [(some key, j)] =>
    match key with
    | "Value" => (Value.ofJson? levels j).map .value
    | "Memory" => (Location.ofJson? levels j).map .memory
    | _ => Json.oneOf? [("Zero", .zero)] (levels + 1) (.obj [(some key, j)])
  | levels, j => Json.oneOf? [("Zero", .zero)] levels j

end Subject

namespace Fact

/-- The fact that taints nothing. -/
def zero : Fact := { subject := .zero }

/-- An operand is tainted. -/
def value (v : Value) : Fact := { subject := .value v }

/-- The memory at a location is tainted. -/
def memory (l : Location) : Fact := { subject := .memory l }

/-- The argument at a position of the variable argument list at a location is tainted. -/
def varArg (l : Location) (index : Nat) : Fact := { subject := .memory l, argIndex := some index }

/-- A branch is tainted until control reaches a label. -/
def branch (v : Value) (label : String) : Fact := { subject := .value v, endLabel := some label }

/-- Whether the fact taints nothing. -/
def isZero (f : Fact) : Bool := f.subject = .zero

/-- Whether the fact is about the region of a branch. -/
def isBranch (f : Fact) : Bool := f.endLabel.isSome

/-- Whether the fact is about a variable argument. -/
def isVarArg (f : Fact) : Bool := f.argIndex.isSome || f.list.isSome

/-- The tainted operand. -/
def value? (f : Fact) : Option Value :=
  match f.subject with
  | .value v => some v
  | _ => none

/-- The tainted location. -/
def location? (f : Fact) : Option Location :=
  match f.subject with
  | .memory l => some l
  | _ => none

/-- Whether the fact says that an operand is tainted, and is not about a branch or a variable
argument. -/
def isPlainValue (f : Fact) (v : Value) : Bool :=
  f.value? = some v && !f.isBranch && !f.isVarArg

/-- The tainted location of a fact that is not about a branch or a variable argument. -/
def plainLocation? (f : Fact) : Option Location :=
  if f.isVarArg || f.isBranch then none else f.location?

/-- The fact about something else, with the same tags. -/
def withSubject (f : Fact) (subject : Subject) : Fact := { f with subject }

/-- The text of a tag that is there. -/
def tag {α : Type} (label : String) (render : α → String) : Option α → String
  | none => ""
  | some a => label ++ render a

/-- The fact as it is shown. -/
def render (f : Fact) : String :=
  (match f.subject with
    | .zero => "Λ"
    | .value v => "val(" ++ v.render ++ ")"
    | .memory l => "mem(" ++ l.render ++ ")")
  ++ tag " vararg#" toString f.argIndex
  ++ tag " va_list=" Location.render f.list
  ++ tag " cursor=" toString f.cursor
  ++ tag " skip=" toString f.returnSkip
  ++ tag " until " id f.endLabel

/-- The member for a tag that is there. -/
def member {α : Type} (key : String) (toJson : α → Json) : Option α → List (String × Json)
  | none => []
  | some a => [(key, toJson a)]

/-- The JSON form of a fact. Tags that are absent are not written. -/
def toJson (f : Fact) : Json :=
  .object ([("base", f.subject.toJson)]
    ++ member "var_arg_index" .nat f.argIndex
    ++ member "var_arg_cursor" .nat f.cursor
    ++ member "va_list" Location.toJson f.list
    ++ member "return_skip" .nat f.returnSkip
    ++ member "end_of_block" .text f.endLabel)

/-- Reads the JSON form of a fact. -/
def ofJson? : Json.Decoder Fact
  | levels + 1, j => do
    let fields ← j.fields?
      ["base", "var_arg_index", "var_arg_cursor", "va_list", "return_skip", "end_of_block"]
    let subject ← fields.required "base" (Subject.ofJson? levels)
    let argIndex ← fields.optional "var_arg_index" (Json.Decoder.word levels)
    let cursor ← fields.optional "var_arg_cursor" (Json.Decoder.word levels)
    let list ← fields.optional "va_list" (Location.ofJson? levels)
    let returnSkip ← fields.optional "return_skip" (Json.Decoder.doubleWord levels)
    let endLabel ← fields.optional "end_of_block" (Json.Decoder.string levels)
    some { subject, argIndex, cursor, list, returnSkip, endLabel }
  | 0, _ => none

/-- Facts in increasing order, each once. -/
def sorted (facts : List Fact) : List Fact :=
  (facts.mergeSort fun f g => (compare f g).isLE).eraseDups

end Fact

end TaintTrail
