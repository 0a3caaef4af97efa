import TaintTrail.Json.Decoder

/-!
# Types of values

Types are structural, except that structs and unions are known by name only: the layouts behind the
names belong to the program. The declaration order of the constructors is their sorting order.
-/

namespace TaintTrail

/-- The type of a value. -/
inductive Ty where
  /-- No value. -/
  | void
  /-- Integers of a number of bits. -/
  | int (bits : Nat)
  /-- Floating point numbers of a number of bits. -/
  | float (bits : Nat)
  /-- Addresses of objects of a type. -/
  | pointer (target : Ty)
  /-- The struct of a name. -/
  | struct (name : String)
  /-- The union of a name. -/
  | union (name : String)
  /-- Arrays, with their length where it is known. -/
  | array (element : Ty) (length : Option Nat)
  /-- The cursor over a variable argument list. -/
  | vaList
  /-- A type that could not be inferred. -/
  | unknown
  deriving DecidableEq, Ord, Hashable, Inhabited, Repr

namespace Ty

/-- Whether values of the type are addresses. -/
def isPointer : Ty → Bool
  | .pointer _ => true
  | _ => false

/-- Whether the type is a union. -/
def isUnion : Ty → Bool
  | .union _ => true
  | _ => false

/-- The type an address points at. -/
def target? : Ty → Option Ty
  | .pointer t => some t
  | _ => none

/-- The type of the elements of an array. -/
def element? : Ty → Option Ty
  | .array t _ => some t
  | _ => none

/-- The type as it is shown. -/
def render : Ty → String
  | .void => "void"
  | .int bits => "i" ++ toString bits
  | .float bits => if bits = 32 then "float" else "f" ++ toString bits
  | .pointer t => t.render ++ "*"
  | .struct name => "%struct." ++ name
  | .union name => "%union." ++ name
  | .array t (some n) => "[" ++ toString n ++ " x " ++ t.render ++ "]"
  | .array t none => "[? x " ++ t.render ++ "]"
  | .vaList => "va_list"
  | .unknown => "opaque"

/-- The JSON form of a type. -/
def toJson : Ty → Json
  | .void => .text "Void"
  | .int bits => .object [("Int", .nat bits)]
  | .float bits => .object [("Float", .nat bits)]
  | .pointer t => .object [("Ptr", t.toJson)]
  | .struct name => .object [("Struct", .text name)]
  | .union name => .object [("Union", .text name)]
  | .array t n => .object [("Array", .object [("elem", t.toJson), ("len", .option .nat n)])]
  | .vaList => .text "VaList"
  | .unknown => .text "Opaque"

/-- The types that are written as a name alone. -/
def named : List (String × Ty) := [("Void", .void), ("VaList", .vaList), ("Opaque", .unknown)]

/-- Reads the JSON form of a type. -/
def ofJson? : Json.Decoder Ty
  | levels + 1, .obj [(some key, j)] =>
    match key with
    | "Int" => (Json.Decoder.word levels j).map .int
    | "Float" => (Json.Decoder.word levels j).map .float
    | "Ptr" => (ofJson? levels j).map .pointer
    | "Struct" => (Json.Decoder.string levels j).map .struct
    | "Union" => (Json.Decoder.string levels j).map .union
    | "Array" =>
      match levels with
      | 0 => none
      | levels + 1 => do
        let fields ← j.payload? ["elem", "len"]
        let element ← fields.required "elem" (ofJson? levels)
        let length ← fields.optional "len" (Json.Decoder.doubleWord levels)
        some (.array element length)
    | _ => Json.oneOf? named (levels + 1) (.obj [(some key, j)])
  | levels, j => Json.oneOf? named levels j

end Ty

end TaintTrail
