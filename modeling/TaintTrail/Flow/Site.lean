import TaintTrail.Config.Basic
import TaintTrail.Fact
import TaintTrail.Program.Calls
import TaintTrail.Resolution

/-!
# Call sites and exits

What the flow functions between procedures need to know about a call and about a return: operands
together with the locations that they point at. A parameter that a procedure stores into a stack
slot of its own is found again through that slot.
-/

namespace TaintTrail

/-- A call with its operands resolved. -/
structure CallSite where
  /-- The number of the call. -/
  call : Nat
  /-- The number of the called procedure, if it has a body and is called directly. -/
  callee : Option Nat
  /-- The name of the procedure that is called directly. -/
  calleeName : Option String
  args : List Value
  /-- What the arguments point at. -/
  argLocations : List (Option Location)
  /-- Where the result is stored. -/
  resultLocation : Option Location
  /-- The source that the call is. -/
  source : Option Source
  deriving DecidableEq, Inhabited, Repr

/-- A return with its operands resolved. -/
structure ExitSite where
  /-- The number of the return. -/
  exit : Nat
  /-- The number of the procedure. -/
  proc : Nat
  value : Option Value
  /-- What the returned value points at. -/
  location : Option Location
  /-- Stack slots that hold a pointer parameter, with the position of the parameter. -/
  spills : List (Nat × Nat)
  deriving DecidableEq, Inhabited, Repr

/-- The location that a call fills through a pointer: the whole array for a pointer at its first
element. -/
def Location.filled (l : Location) : Location :=
  match l.steps.getLast? with
  | some step => if step.isArrayStart then ⟨l.frame, l.steps.dropLast⟩ else l
  | none => l

namespace CallSite

/-- The call at an instruction. -/
def ofInstruction (m : Program) (config : Config) (inst : Instruction) (args : List Value) :
    CallSite :=
  let calleeName := m.calleeName? inst.id
  { call := inst.id
    callee := (m.callTarget? inst.id).map (·.id)
    calleeName := calleeName
    args := args
    argLocations := args.map m.locationOf?
    resultLocation := (m.resultAddress? inst.id).bind m.locationOf?
    source := calleeName.bind config.source? }

/-- The result of the call. -/
def result (s : CallSite) : Value := .result s.call

/-- What the argument at a position points at. -/
def argLocation? (s : CallSite) (index : Nat) : Option Location := s.argLocations[index]?.join

/-- Whether a fact taints an argument, or memory that an argument reaches. -/
def isReached (s : CallSite) (d : Fact) : Bool :=
  s.args.any d.isPlainValue
    || d.plainLocation?.any fun l => (s.argLocations.filterMap id).any (·.overlaps l)

end CallSite

namespace Program

/-- The stack slot that an instruction of a procedure stores a pointer parameter of it into, with
the position of the parameter. -/
def spillAt? (m : Program) (proc : Nat) (p : Procedure) (id : Nat) : Option (Nat × Nat) :=
  match m.operation? id with
  | some (.store (.param owner index) address) =>
    if owner = proc && p.params[index]?.any (·.type.isPointer) then
      match m.locationOf? address with
      | some ⟨.stack slot, []⟩ => some (slot, index)
      | _ => none
    else none
  | _ => none

/-- The stack slots that hold a pointer parameter of the procedure at a position, in order. -/
def spills (m : Program) (proc : Nat) : List (Nat × Nat) :=
  match m.procedure? proc with
  | none => []
  | some p => p.insts.filterMap (m.spillAt? proc p)

end Program

namespace ExitSite

/-- The return at an instruction. -/
def ofInstruction (m : Program) (inst : Instruction) (value : Option Value) : ExitSite :=
  { exit := inst.id
    proc := inst.proc
    value := value
    location := value.bind m.locationOf?
    spills := m.spills inst.proc }

/-- The position of the parameter whose memory a frame is. -/
def paramOf? (s : ExitSite) : Frame → Option Nat
  | .param proc index => if proc = s.proc then some index else none
  | .stack slot => s.spills.lookup slot
  | .varArgs _ => none

end ExitSite

end TaintTrail
