import TaintTrail.Json.Decoder
import TaintTrail.Text.Quoted

/-!
# Operands

What an instruction can take as an operand: the result of an instruction, a parameter, a constant,
or the address of a global. Instructions and procedures are named by number. The declaration order
of the constructors is their sorting order.
-/

namespace TaintTrail

/-- An operand of an instruction. -/
inductive Value where
  /-- The result of an instruction. -/
  | result (inst : Nat)
  /-- A parameter of a procedure, by position. -/
  | param (proc index : Nat)
  /-- An integer constant. -/
  | int (n : Int)
  /-- A text constant. -/
  | text (s : String)
  /-- The null pointer. -/
  | null
  /-- The address of a global. -/
  | global (name : String)
  /-- No particular value. -/
  | undef
  deriving DecidableEq, Ord, Hashable, Inhabited, Repr

namespace Value

/-- The constant zero. -/
def zero : Value := .int 0

/-- Whether the operand is the constant zero. -/
def isZero (v : Value) : Bool := v = zero

/-- The instruction that an operand is the result of. -/
def inst? : Value → Option Nat
  | .result inst => some inst
  | _ => none

/-- The operand as it is shown. -/
def render : Value → String
  | .result inst => "%" ++ toString inst
  | .param proc index => "%arg" ++ toString proc ++ "." ++ toString index
  | .int n => toString n
  | .text s => "c" ++ Text.quoted s
  | .null => "null"
  | .global name => "@" ++ name
  | .undef => "undef"

/-- The JSON form of an operand. -/
def toJson : Value → Json
  | .result inst => .object [("Inst", .nat inst)]
  | .param proc index => .object [("Param", .arr [.nat proc, .nat index])]
  | .int n => .object [("ConstInt", .int n)]
  | .text s => .object [("ConstStr", .text s)]
  | .null => .text "Null"
  | .global name => .object [("Global", .text name)]
  | .undef => .text "Undef"

/-- The operands that are written as a name alone. -/
def named : List (String × Value) := [("Null", .null), ("Undef", .undef)]

/-- Reads the JSON form of an operand. -/
def ofJson? : Json.Decoder Value
  | levels + 1, .obj [(some key, j)] =>
    match key with
    | "Inst" => (Json.Decoder.word levels j).map .result
    | "Param" =>
      (Json.Decoder.pair Json.Decoder.word Json.Decoder.word levels j).map fun (proc, index) =>
        .param proc index
    | "ConstInt" => (Json.Decoder.signed levels j).map .int
    | "ConstStr" => (Json.Decoder.string levels j).map .text
    | "Global" => (Json.Decoder.string levels j).map .global
    | _ => Json.oneOf? named (levels + 1) (.obj [(some key, j)])
  | levels, j => Json.oneOf? named levels j

end Value

end TaintTrail
