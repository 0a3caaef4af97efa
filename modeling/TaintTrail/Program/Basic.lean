import TaintTrail.Program.Operation
import TaintTrail.Sorted

/-!
# Programs

A program is a list of procedures, one arena with the instructions of all of them, and the layouts
of its structs and unions. Procedures, blocks and instructions are found by their position. A
procedure without blocks is only declared. Nothing here requires the numbers that an instruction
carries to agree with where it stands; the builder produces programs in which they do.
-/

namespace TaintTrail

/-- The members of a struct or union. -/
structure Aggregate where
  name : String
  isUnion : Bool
  members : List Ty
  deriving DecidableEq, Inhabited, Repr

/-- A place in the source text. -/
structure SourceLine where
  file : String
  line : Nat
  deriving DecidableEq, Inhabited, Repr

/-- An instruction with its own number and those of its procedure and block. -/
structure Instruction where
  id : Nat
  proc : Nat
  block : Nat
  operation : Operation
  /-- The type of the result, `void` if there is none. -/
  type : Ty
  source : Option SourceLine := none
  deriving DecidableEq, Inhabited, Repr

/-- A block: a label and the instructions that run in order. -/
structure Block where
  label : String
  insts : List Nat
  deriving DecidableEq, Inhabited, Repr

/-- A formal parameter. -/
structure Param where
  name : String
  type : Ty
  deriving DecidableEq, Inhabited, Repr

/-- A procedure. -/
structure Procedure where
  id : Nat
  name : String
  params : List Param
  result : Ty
  isVariadic : Bool
  sourceFile : Option String := none
  blocks : Array Block := #[]
  deriving DecidableEq, Inhabited, Repr

/-- A program. The layouts are sorted by name. -/
structure Program where
  name : String
  procedures : Array Procedure := #[]
  instructions : Array Instruction := #[]
  aggregates : List (String × Aggregate) := []
  deriving DecidableEq, Inhabited, Repr

namespace Block

/-- The first instruction. -/
def first? (b : Block) : Option Nat := b.insts.head?

/-- The last instruction. -/
def last? (b : Block) : Option Nat := b.insts.getLast?

end Block

namespace Procedure

/-- Whether the procedure has no body. -/
def isDeclaration (p : Procedure) : Bool := p.blocks.isEmpty

/-- The instruction that a call starts with. -/
def entry? (p : Procedure) : Option Nat := p.blocks[0]?.bind Block.first?

/-- The instructions of all blocks, in order. -/
def insts (p : Procedure) : List Nat := p.blocks.toList.flatMap Block.insts

/-- The position of the first block with a label. -/
def blockNamed? (p : Procedure) (label : String) : Option Nat :=
  p.blocks.toList.findIdx? (·.label = label)

end Procedure

namespace Program

/-- The procedure at a position. -/
def procedure? (m : Program) (id : Nat) : Option Procedure := m.procedures[id]?

/-- The number of the last procedure of a name. -/
def idNamed? (m : Program) (name : String) : Option Nat :=
  (m.procedures.toList.reverse.find? (·.name = name)).map (·.id)

/-- The procedure at the position that the last procedure of a name has for its number. -/
def procedureNamed? (m : Program) (name : String) : Option Procedure :=
  (m.idNamed? name).bind m.procedure?

/-- The instruction at a position. -/
def inst? (m : Program) (id : Nat) : Option Instruction := m.instructions[id]?

/-- The operation of the instruction at a position. -/
def operation? (m : Program) (id : Nat) : Option Operation := (m.inst? id).map (·.operation)

/-- The instruction that computes an operand. -/
def definition? (m : Program) (v : Value) : Option Instruction := v.inst?.bind m.inst?

/-- The block that an instruction says it is in. -/
def blockOf? (m : Program) (id : Nat) : Option Block := do
  let inst ← m.inst? id
  (← m.procedure? inst.proc).blocks[inst.block]?

/-- The label of the block of an instruction. -/
def blockLabel? (m : Program) (id : Nat) : Option String := (m.blockOf? id).map (·.label)

/-- The place of an instruction in the source text. -/
def source? (m : Program) (id : Nat) : Option SourceLine := (m.inst? id).bind (·.source)

/-- The layout of a struct or union. -/
def aggregate? (m : Program) (name : String) : Option Aggregate := m.aggregates.lookup name

/-- The instruction after an instruction in its block. -/
def next? (m : Program) (id : Nat) : Option Nat := do
  let block ← m.blockOf? id
  (block.insts.dropWhile (· ≠ id))[1]?

/-- The returns of the procedure at a position, in order. -/
def exits (m : Program) (proc : Nat) : List Nat :=
  match m.procedure? proc with
  | none => []
  | some p => p.insts.filter fun id => (m.operation? id).any Operation.isReturn

/-- All numbers of instructions: the positions in the arena and what the blocks list. -/
def nodes (m : Program) : List Nat :=
  Sorted.ofList (List.range m.instructions.size ++ m.procedures.toList.flatMap Procedure.insts)

end Program

end TaintTrail
