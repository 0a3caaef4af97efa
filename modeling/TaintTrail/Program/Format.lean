import TaintTrail.Program.Basic
import TaintTrail.Json.Printer
import TaintTrail.Json.Reader

/-!
# The JSON form of programs

An operation is an object with its name as the only key and its operands below it. The source place
of an instruction and the source file of a procedure are written only if they are known; when a
program is read, they may be missing or `null`, and missing blocks and layouts are none at all.
-/

namespace TaintTrail

open Json (Decoder)

namespace Conversion

/-- The conversions by name. -/
def names : List (String × Conversion) :=
  [("Bitcast", .bitcast), ("AddrSpace", .addressSpace), ("PtrToInt", .pointerToInt),
    ("IntToPtr", .intToPointer), ("Trunc", .truncate), ("ZExt", .zeroExtend), ("SExt", .signExtend),
    ("FpConv", .floating)]

/-- The JSON form of a conversion. -/
def toJson : Conversion → Json
  | .bitcast => .text "Bitcast"
  | .addressSpace => .text "AddrSpace"
  | .pointerToInt => .text "PtrToInt"
  | .intToPointer => .text "IntToPtr"
  | .truncate => .text "Trunc"
  | .zeroExtend => .text "ZExt"
  | .signExtend => .text "SExt"
  | .floating => .text "FpConv"

/-- Reads the JSON form of a conversion. -/
def ofJson? : Decoder Conversion := Json.oneOf? names

end Conversion

namespace Arithmetic

/-- The arithmetic operations by name. -/
def names : List (String × Arithmetic) :=
  [("Add", .add), ("Sub", .sub), ("Mul", .mul), ("Div", .div), ("Rem", .rem), ("And", .and),
    ("Or", .or), ("Xor", .xor), ("Shl", .shl), ("Shr", .shr)]

/-- The JSON form of an arithmetic operation. -/
def toJson : Arithmetic → Json
  | .add => .text "Add"
  | .sub => .text "Sub"
  | .mul => .text "Mul"
  | .div => .text "Div"
  | .rem => .text "Rem"
  | .and => .text "And"
  | .or => .text "Or"
  | .xor => .text "Xor"
  | .shl => .text "Shl"
  | .shr => .text "Shr"

/-- Reads the JSON form of an arithmetic operation. -/
def ofJson? : Decoder Arithmetic := Json.oneOf? names

end Arithmetic

namespace Callee

/-- The JSON form of a callee. -/
def toJson : Callee → Json
  | .direct name => .object [("Direct", .text name)]
  | .indirect target => .object [("Indirect", target.toJson)]

/-- Reads the JSON form of a callee. -/
def ofJson? : Decoder Callee
  | levels + 1, .obj [(some key, j)] =>
    match key with
    | "Direct" => (Decoder.string levels j).map .direct
    | "Indirect" => (Value.ofJson? levels j).map .indirect
    | _ => none
  | _, _ => none

end Callee

namespace Operation

/-- The JSON form of an operation. -/
def toJson : Operation → Json
  | .alloca allocated => .object [("Alloca", .object [("allocated", allocated.toJson)])]
  | .load address => .object [("Load", .object [("addr", address.toJson)])]
  | .store value address =>
    .object [("Store", .object [("value", value.toJson), ("addr", address.toJson)])]
  | .addressOf indexed base indices =>
    .object [("Gep", .object [("source_type", indexed.toJson), ("base", base.toJson),
      ("indices", .array Value.toJson indices)])]
  | .copy target source length =>
    .object [("MemTransfer", .object [("dst", target.toJson), ("src", source.toJson),
      ("len", length.toJson)])]
  | .fill target value length =>
    .object [("MemSet", .object [("dst", target.toJson), ("value", value.toJson),
      ("len", length.toJson)])]
  | .cast conversion value =>
    .object [("Cast", .object [("op", conversion.toJson), ("value", value.toJson)])]
  | .binary arithmetic left right =>
    .object [("Binary", .object [("op", arithmetic.toJson), ("lhs", left.toJson),
      ("rhs", right.toJson)])]
  | .compare predicate left right =>
    .object [("Compare", .object [("predicate", .text predicate), ("lhs", left.toJson),
      ("rhs", right.toJson)])]
  | .select condition ifTrue ifFalse =>
    .object [("Select", .object [("cond", condition.toJson), ("then_value", ifTrue.toJson),
      ("else_value", ifFalse.toJson)])]
  | .phi incoming =>
    .object [("Phi", .object [("incoming",
      .array (fun (value, block) => .arr [value.toJson, .nat block]) incoming)])]
  | .extract aggregate indices =>
    .object [("ExtractValue", .object [("aggregate", aggregate.toJson),
      ("indices", .array .nat indices)])]
  | .call callee args =>
    .object [("Call", .object [("callee", callee.toJson), ("args", .array Value.toJson args)])]
  | .vaStart list => .object [("VaStart", .object [("list", list.toJson)])]
  | .vaArg list => .object [("VaArg", .object [("list", list.toJson)])]
  | .vaCopy target source =>
    .object [("VaCopy", .object [("dst", target.toJson), ("src", source.toJson)])]
  | .vaEnd list => .object [("VaEnd", .object [("list", list.toJson)])]
  | .jump target => .object [("Br", .object [("target", .nat target)])]
  | .branch condition ifTrue ifFalse =>
    .object [("CondBr", .object [("cond", condition.toJson), ("then_block", .nat ifTrue),
      ("else_block", .nat ifFalse)])]
  | .switch condition otherwise cases =>
    .object [("Switch", .object [("cond", condition.toJson), ("default", .nat otherwise),
      ("cases", .array (fun (value, block) => .arr [.int value, .nat block]) cases)])]
  | .ret value => .object [("Ret", .object [("value", .option Value.toJson value)])]
  | .unreachable => .text "Unreachable"
  | .other opcode operands =>
    .object [("Other", .object [("opcode", .text opcode),
      ("operands", .array Value.toJson operands)])]

/-- Reads the operands below the name of an operation. -/
def ofPayload? (key : String) (levels : Nat) (j : Json) : Option Operation := do
  let value := Value.ofJson? levels
  let values := Decoder.list Value.ofJson? levels
  let block := Decoder.word levels
  match key with
  | "Alloca" =>
    let fields ← j.payload? ["allocated"]
    some (.alloca (← fields.required "allocated" (Ty.ofJson? levels)))
  | "Load" =>
    let fields ← j.payload? ["addr"]
    some (.load (← fields.required "addr" value))
  | "Store" =>
    let fields ← j.payload? ["value", "addr"]
    some (.store (← fields.required "value" value) (← fields.required "addr" value))
  | "Gep" =>
    let fields ← j.payload? ["source_type", "base", "indices"]
    some (.addressOf (← fields.required "source_type" (Ty.ofJson? levels))
      (← fields.required "base" value) (← fields.required "indices" values))
  | "MemTransfer" =>
    let fields ← j.payload? ["dst", "src", "len"]
    some (.copy (← fields.required "dst" value) (← fields.required "src" value)
      (← fields.required "len" value))
  | "MemSet" =>
    let fields ← j.payload? ["dst", "value", "len"]
    some (.fill (← fields.required "dst" value) (← fields.required "value" value)
      (← fields.required "len" value))
  | "Cast" =>
    let fields ← j.payload? ["op", "value"]
    some (.cast (← fields.required "op" (Conversion.ofJson? levels))
      (← fields.required "value" value))
  | "Binary" =>
    let fields ← j.payload? ["op", "lhs", "rhs"]
    some (.binary (← fields.required "op" (Arithmetic.ofJson? levels))
      (← fields.required "lhs" value) (← fields.required "rhs" value))
  | "Compare" =>
    let fields ← j.payload? ["predicate", "lhs", "rhs"]
    some (.compare (← fields.required "predicate" (Decoder.string levels))
      (← fields.required "lhs" value) (← fields.required "rhs" value))
  | "Select" =>
    let fields ← j.payload? ["cond", "then_value", "else_value"]
    some (.select (← fields.required "cond" value) (← fields.required "then_value" value)
      (← fields.required "else_value" value))
  | "Phi" =>
    let fields ← j.payload? ["incoming"]
    some (.phi (← fields.required "incoming"
      (Decoder.list (Decoder.pair Value.ofJson? Decoder.word) levels)))
  | "ExtractValue" =>
    let fields ← j.payload? ["aggregate", "indices"]
    some (.extract (← fields.required "aggregate" value)
      (← fields.required "indices" (Decoder.list Decoder.word levels)))
  | "Call" =>
    let fields ← j.payload? ["callee", "args"]
    some (.call (← fields.required "callee" (Callee.ofJson? levels))
      (← fields.required "args" values))
  | "VaStart" =>
    let fields ← j.payload? ["list"]
    some (.vaStart (← fields.required "list" value))
  | "VaArg" =>
    let fields ← j.payload? ["list"]
    some (.vaArg (← fields.required "list" value))
  | "VaCopy" =>
    let fields ← j.payload? ["dst", "src"]
    some (.vaCopy (← fields.required "dst" value) (← fields.required "src" value))
  | "VaEnd" =>
    let fields ← j.payload? ["list"]
    some (.vaEnd (← fields.required "list" value))
  | "Br" =>
    let fields ← j.payload? ["target"]
    some (.jump (← fields.required "target" block))
  | "CondBr" =>
    let fields ← j.payload? ["cond", "then_block", "else_block"]
    some (.branch (← fields.required "cond" value) (← fields.required "then_block" block)
      (← fields.required "else_block" block))
  | "Switch" =>
    let fields ← j.payload? ["cond", "default", "cases"]
    some (.switch (← fields.required "cond" value) (← fields.required "default" block)
      (← fields.required "cases" (Decoder.list (Decoder.pair Decoder.signed Decoder.word) levels)))
  | "Ret" =>
    let fields ← j.payload? ["value"]
    some (.ret (← fields.optional "value" value))
  | "Other" =>
    let fields ← j.payload? ["opcode", "operands"]
    some (.other (← fields.required "opcode" (Decoder.string levels))
      (← fields.required "operands" values))
  | _ => none

/-- Reads the JSON form of an operation. -/
def ofJson? : Decoder Operation
  | levels + 2, .obj [(some key, .obj members)] => ofPayload? key levels (.obj members)
  | levels + 2, .obj [(some key, .arr items)] => ofPayload? key levels (.arr items)
  | levels, j => Json.oneOf? [("Unreachable", .unreachable)] levels j

end Operation

namespace SourceLine

/-- The JSON form of a place in the source text. -/
def toJson (s : SourceLine) : Json := .object [("file", .text s.file), ("line", .nat s.line)]

/-- Reads the JSON form of a place in the source text. -/
def ofJson? : Decoder SourceLine
  | levels + 1, j => do
    let fields ← j.fields? ["file", "line"]
    let file ← fields.required "file" (Decoder.string levels)
    let line ← fields.required "line" (Decoder.word levels)
    some ⟨file, line⟩
  | 0, _ => none

end SourceLine

namespace Instruction

/-- The JSON form of an instruction. -/
def toJson (i : Instruction) : Json :=
  .object ([("id", .nat i.id), ("func", .nat i.proc), ("block", .nat i.block),
    ("kind", i.operation.toJson), ("ty", i.type.toJson)] ++
    (i.source.toList.map fun s => ("debug", s.toJson)))

/-- Reads the JSON form of an instruction. -/
def ofJson? : Decoder Instruction
  | levels + 1, j => do
    let fields ← j.fields? ["id", "func", "block", "kind", "ty", "debug"]
    let id ← fields.required "id" (Decoder.word levels)
    let proc ← fields.required "func" (Decoder.word levels)
    let block ← fields.required "block" (Decoder.word levels)
    let operation ← fields.required "kind" (Operation.ofJson? levels)
    let type ← fields.required "ty" (Ty.ofJson? levels)
    let source ← fields.optional "debug" (SourceLine.ofJson? levels)
    some { id, proc, block, operation, type, source }
  | 0, _ => none

end Instruction

namespace Block

/-- The JSON form of a block. -/
def toJson (b : Block) : Json :=
  .object [("label", .text b.label), ("insts", .array .nat b.insts)]

/-- Reads the JSON form of a block. -/
def ofJson? : Decoder Block
  | levels + 1, j => do
    let fields ← j.fields? ["label", "insts"]
    let label ← fields.required "label" (Decoder.string levels)
    let insts ← fields.required "insts" (Decoder.list Decoder.word levels)
    some ⟨label, insts⟩
  | 0, _ => none

end Block

namespace Param

/-- The JSON form of a parameter. -/
def toJson (p : Param) : Json := .object [("name", .text p.name), ("ty", p.type.toJson)]

/-- Reads the JSON form of a parameter. -/
def ofJson? : Decoder Param
  | levels + 1, j => do
    let fields ← j.fields? ["name", "ty"]
    let name ← fields.required "name" (Decoder.string levels)
    let type ← fields.required "ty" (Ty.ofJson? levels)
    some ⟨name, type⟩
  | 0, _ => none

end Param

namespace Procedure

/-- The JSON form of a procedure. -/
def toJson (p : Procedure) : Json :=
  .object ([("id", .nat p.id), ("name", .text p.name), ("params", .array Param.toJson p.params),
    ("ret_ty", p.result.toJson), ("variadic", .bool p.isVariadic)] ++
    (p.sourceFile.toList.map fun file => ("source_file", .text file)) ++
    [("blocks", .array Block.toJson p.blocks.toList)])

/-- Reads the JSON form of a procedure. -/
def ofJson? : Decoder Procedure
  | levels + 1, j => do
    let fields ← j.fields? ["id", "name", "params", "ret_ty", "variadic", "source_file", "blocks"]
    let id ← fields.required "id" (Decoder.word levels)
    let name ← fields.required "name" (Decoder.string levels)
    let params ← fields.required "params" (Decoder.list Param.ofJson? levels)
    let result ← fields.required "ret_ty" (Ty.ofJson? levels)
    let isVariadic ← fields.required "variadic" (Decoder.bool levels)
    let sourceFile ← fields.optional "source_file" (Decoder.string levels)
    let blocks ← fields.withDefault "blocks" [] (Decoder.list Block.ofJson? levels)
    some { id, name, params, result, isVariadic, sourceFile, blocks := blocks.toArray }
  | 0, _ => none

end Procedure

namespace Aggregate

/-- The JSON form of a layout. -/
def toJson (a : Aggregate) : Json :=
  .object [("name", .text a.name), ("is_union", .bool a.isUnion),
    ("members", .array Ty.toJson a.members)]

/-- Reads the JSON form of a layout. -/
def ofJson? : Decoder Aggregate
  | levels + 1, j => do
    let fields ← j.fields? ["name", "is_union", "members"]
    let name ← fields.required "name" (Decoder.string levels)
    let isUnion ← fields.required "is_union" (Decoder.bool levels)
    let members ← fields.required "members" (Decoder.list Ty.ofJson? levels)
    some ⟨name, isUnion, members⟩
  | 0, _ => none

end Aggregate

namespace Program

/-- The JSON form of a program. -/
def toJson (m : Program) : Json :=
  .object [("name", .text m.name), ("functions", .array Procedure.toJson m.procedures.toList),
    ("instructions", .array Instruction.toJson m.instructions.toList),
    ("aggregates", .object (m.aggregates.map fun (name, layout) => (name, layout.toJson)))]

/-- Reads the JSON form of a program. -/
def ofJson? : Decoder Program
  | levels + 1, j => do
    let fields ← j.fields? ["name", "functions", "instructions", "aggregates"]
    let name ← fields.required "name" (Decoder.string levels)
    let procedures ← fields.required "functions" (Decoder.list Procedure.ofJson? levels)
    let instructions ← fields.required "instructions" (Decoder.list Instruction.ofJson? levels)
    let aggregates ← fields.withDefault "aggregates" []
      (Decoder.dictionary Aggregate.ofJson? levels)
    some {
      name
      procedures := procedures.toArray
      instructions := instructions.toArray
      aggregates := Sorted.ofPairs aggregates }
  | 0, _ => none

/-- The program as a JSON text. -/
def write (m : Program) : String := m.toJson.pretty

/-- Reads a program from a JSON text. -/
def read? (text : String) : Option Program := (Json.read? text).bind (ofJson? Json.maxNesting)

end Program

end TaintTrail
