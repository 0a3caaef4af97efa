import TaintTrail.Program.Typing

/-!
# Building programs

A program is built by commands. Some concern the program: they add layouts, declare procedures or
open one for definition. The others concern the open procedure: they append blocks, choose where
instructions go and which source line they get, and append instructions. Types of results are
inferred where they follow from the operands, and a block can be a target before it is filled.
-/

namespace TaintTrail

/-- Where the next instruction of the open procedure goes. -/
structure Cursor where
  /-- The open procedure. -/
  proc : Nat
  /-- The chosen block, if one was chosen. -/
  block : Option Nat := none
  /-- The source line, if there is one. -/
  line : Option Nat := none
  deriving DecidableEq, Inhabited, Repr

/-- A program under construction, and the procedure that is open. -/
structure Builder where
  program : Program
  cursor : Option Cursor := none
  deriving DecidableEq, Inhabited, Repr

namespace Builder

/-- A step of the construction. -/
inductive Command where
  /-- Sets the layout of a struct or union. -/
  | layout (name : String) (isUnion : Bool) (members : List Ty)
  /-- Declares a procedure without a body, or changes the signature of the one of that name. -/
  | declare (name : String) (params : List Ty) (result : Ty) (isVariadic : Bool)
  /-- Declares a procedure and opens it. -/
  | define (name : String) (params : List Ty) (result : Ty) (isVariadic : Bool)
  /-- Closes the open procedure. -/
  | finish
  /-- Sets the source file of the open procedure. -/
  | sourceFile (file : String)
  /-- Appends an empty block. -/
  | block (label : String)
  /-- Chooses the block for the next instructions. -/
  | positionAt (block : Nat)
  /-- Chooses the source line for the next instructions. -/
  | atLine (line : Nat)
  /-- Leaves the next instructions without a source line. -/
  | clearLine
  /-- Appends an instruction. The stated type counts where the operands do not give one. -/
  | emit (operation : Operation) (stated : Ty)
  deriving DecidableEq, Inhabited, Repr

/-- What a step of the construction gives back. -/
inductive Outcome where
  | done
  | procedure (id : Nat)
  | block (id : Nat)
  | inst (id : Nat)
  | value (v : Value)
  deriving DecidableEq, Inhabited, Repr

/-- Why a step of the construction is impossible. -/
inductive Error where
  /-- No procedure is open. -/
  | noOpenProcedure
  /-- The chosen block does not exist. -/
  | noSuchBlock
  deriving DecidableEq, Inhabited, Repr

/-- Begins a program. -/
def new (name : String) : Builder := { program := { name } }

/-- Formal parameters of the given types, named by position. -/
def paramsOf (types : List Ty) : List Param :=
  types.mapIdx fun i type => ⟨"arg" ++ toString i, type⟩

/-- Changes the procedure at a position. -/
def modifyProcedure (m : Program) (proc : Nat) (f : Procedure → Procedure) : Program :=
  { m with procedures := m.procedures.modify proc f }

/-- Adds a procedure, or changes the signature of the one of that name, which keeps its body; the
number of the procedure comes along. -/
def signature (m : Program) (name : String) (params : List Ty) (result : Ty) (isVariadic : Bool) :
    Program × Nat :=
  match m.procedures.findIdx? (·.name = name) with
  | some i =>
    (modifyProcedure m i fun p => { p with params := paramsOf params, result, isVariadic },
      ((m.procedure? i).map (·.id)).getD i)
  | none =>
    let id := m.procedures.size
    let p : Procedure := { id, name, params := paramsOf params, result, isVariadic }
    ({ m with procedures := m.procedures.push p }, id)

/-- Appends an empty block to a procedure; its position comes along. -/
def appendBlock (m : Program) (proc : Nat) (label : String) : Program × Nat :=
  (modifyProcedure m proc fun p => { p with blocks := p.blocks.push ⟨label, []⟩ },
    ((m.procedure? proc).map (·.blocks.size)).getD 0)

/-- The place in the source text of the next instruction. -/
def sourceAt (m : Program) (cursor : Cursor) : Option SourceLine := do
  some ⟨← (← m.procedure? cursor.proc).sourceFile, ← cursor.line⟩

/-- Appends an instruction to a block of a procedure and to the arena. -/
def appendInst (m : Program) (cursor : Cursor) (block : Nat) (operation : Operation) (type : Ty) :
    Program :=
  let id := m.instructions.size
  let inst : Instruction :=
    { id, proc := cursor.proc, block, operation, type, source := sourceAt m cursor }
  modifyProcedure { m with instructions := m.instructions.push inst } cursor.proc fun p =>
    { p with blocks := p.blocks.modify block fun b => { b with insts := b.insts ++ [id] } }

/-- Whether a procedure has a block at a position. -/
def hasBlock (m : Program) (proc block : Nat) : Bool :=
  (m.procedure? proc).any fun p => block < p.blocks.size

/-- The open procedure's place for instructions. -/
def open? (b : Builder) : Except Error Cursor :=
  match b.cursor with
  | some cursor => .ok cursor
  | none => .error .noOpenProcedure

/-- Appends an instruction to the chosen block, or to a new block `entry` if none is chosen. -/
def emit (b : Builder) (operation : Operation) (stated : Ty) :
    Except Error (Builder × Outcome) := do
  let cursor ← b.open?
  let type := b.program.resultType stated operation
  let (program, block) :=
    match cursor.block with
    | some block => (b.program, block)
    | none => appendBlock b.program cursor.proc "entry"
  let id := program.instructions.size
  if hasBlock program cursor.proc block then
    .ok (⟨appendInst program cursor block operation type, some { cursor with block := some block }⟩,
      if operation.hasResult then .value (.result id) else .inst id)
  else .error .noSuchBlock

/-- Takes a step. A step that concerns the program closes the open procedure. -/
def apply (b : Builder) : Command → Except Error (Builder × Outcome)
  | .layout name isUnion members =>
    let aggregates := Sorted.put name ⟨name, isUnion, members⟩ b.program.aggregates
    .ok (⟨{ b.program with aggregates }, none⟩, .done)
  | .declare name params result isVariadic =>
    let (program, id) := signature b.program name params result isVariadic
    .ok (⟨program, none⟩, .procedure id)
  | .define name params result isVariadic =>
    let (program, id) := signature b.program name params result isVariadic
    .ok (⟨program, some { proc := id }⟩, .procedure id)
  | .finish => do
    let cursor ← b.open?
    .ok (⟨b.program, none⟩, .procedure cursor.proc)
  | .sourceFile file => do
    let cursor ← b.open?
    let program := modifyProcedure b.program cursor.proc fun p => { p with sourceFile := some file }
    .ok (⟨program, some cursor⟩, .done)
  | .block label => do
    let cursor ← b.open?
    let (program, id) := appendBlock b.program cursor.proc label
    .ok (⟨program, some cursor⟩, .block id)
  | .positionAt block => do
    let cursor ← b.open?
    .ok (⟨b.program, some { cursor with block := some block }⟩, .done)
  | .atLine line => do
    let cursor ← b.open?
    .ok (⟨b.program, some { cursor with line := some line }⟩, .done)
  | .clearLine => do
    let cursor ← b.open?
    .ok (⟨b.program, some { cursor with line := none }⟩, .done)
  | .emit operation stated => b.emit operation stated

/-- Takes steps in order. -/
def applyAll (b : Builder) : List Command → Except Error Builder
  | [] => .ok b
  | command :: commands => do (← b.apply command).1.applyAll commands

end Builder

end TaintTrail
