import TaintTrail.Flow.Site
import TaintTrail.Region

/-!
# Flow rules

The part of an instruction that matters for taint, with its operands resolved once. Each instruction
that a procedure lists has one rule.
-/

namespace TaintTrail

/-- What an instruction does to taint. -/
inductive Rule where
  /-- Every fact stays as it is. -/
  | keep
  /-- A value, which may point at `source`, is written to `target`. -/
  | store (value : Value) (source target : Option Location)
  /-- A value is read through an address. -/
  | load (address : Value) (location : Option Location) (givesPointer : Bool)
  /-- A value is computed from others. -/
  | compute (operands : List Value)
  /-- Memory behind an address is copied. -/
  | copy (address : Value) (source target : Option Location)
  /-- Memory is filled with a value. -/
  | fill (value : Value) (target : Option Location)
  /-- One of several values, which may point at locations, is taken. -/
  | phi (values : List Value) (locations : List Location)
  /-- A condition opens a region. -/
  | branch (condition : Value) (region : Region)
  /-- A cursor is set before the first variable argument. -/
  | vaStart (list : Option Location)
  /-- A cursor gives its argument and moves on. -/
  | vaArg (list : Option Location)
  /-- A cursor is copied. -/
  | vaCopy (source target : Option Location)
  /-- A cursor is given up. -/
  | vaEnd (list : Option Location)
  /-- A procedure is called. -/
  | call (site : CallSite)
  /-- A procedure returns. -/
  | ret (site : ExitSite)
  deriving DecidableEq, Inhabited, Repr

namespace Rule

/-- The memory that the instruction writes. -/
def written? : Rule → Option Location
  | .store _ _ target => target
  | .copy _ _ target => target
  | .fill _ target => target
  | _ => none

/-- The rule of an instruction, whose region is looked up among those of a procedure. -/
def ofInstruction (m : Program) (config : Config) (p : Procedure) (inst : Instruction) : Rule :=
  match inst.operation with
  | .alloca _ | .jump _ | .unreachable => .keep
  | .store value address => .store value (m.locationOf? value) (m.locationOf? address)
  | .load address => .load address (m.locationOf? address) inst.type.isPointer
  | .addressOf .. | .cast .. | .binary .. | .compare .. | .select .. | .extract .. | .other .. =>
    .compute inst.operation.operands
  | .copy target source _ => .copy source (m.locationOf? source) (m.locationOf? target)
  | .fill target value _ => .fill value (m.locationOf? target)
  | .phi incoming =>
    .phi (incoming.map (·.1)) (incoming.filterMap fun (value, _) => m.locationOf? value)
  | .branch condition _ _ | .switch condition _ _ =>
    .branch condition
      (if config.implicitFlows then m.regionIn config.mergeLabels p inst.id else .untracked)
  | .vaStart list => .vaStart (m.locationOf? list)
  | .vaArg list => .vaArg (m.locationOf? list)
  | .vaCopy target source => .vaCopy (m.locationOf? source) (m.locationOf? target)
  | .vaEnd list => .vaEnd (m.locationOf? list)
  | .call _ args => .call (.ofInstruction m config inst args)
  | .ret value => .ret (.ofInstruction m inst value)

end Rule

namespace Program

/-- The last procedure that lists an instruction. -/
def lister? (m : Program) (id : Nat) : Option Procedure :=
  m.procedures.toList.reverse.find? fun p => id ∈ p.insts

/-- The rule of the instruction at a position, if a procedure lists it. -/
def rule? (m : Program) (config : Config) (id : Nat) : Option Rule := do
  let inst ← m.inst? id
  let p ← m.lister? id
  some (Rule.ofInstruction m config p inst)

/-- The rules of the instructions, by position. -/
def rules (m : Program) (config : Config) : Array (Option Rule) :=
  ((List.range m.instructions.size).map (m.rule? config)).toArray

end Program

end TaintTrail
