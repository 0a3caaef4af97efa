import TaintTrail.Program.Basic

/-!
# Calls

What a call calls, and where its result goes.
-/

namespace TaintTrail.Program

/-- The name of the procedure that an instruction calls directly. -/
def calleeName? (m : Program) (call : Nat) : Option String :=
  match m.operation? call with
  | some (.call (.direct name) _) => some name
  | _ => none

/-- The procedure with a body that an instruction calls directly. -/
def callTarget? (m : Program) (call : Nat) : Option Procedure := do
  let p ← m.procedureNamed? (← m.calleeName? call)
  if p.isDeclaration then none else some p

/-- The address that the first store of a call's result, in its procedure, writes to. -/
def resultAddress? (m : Program) (call : Nat) : Option Value := do
  let p ← m.procedure? (← m.inst? call).proc
  p.insts.findSome? fun id =>
    match m.operation? id with
    | some (.store value address) => if value = .result call then some address else none
    | _ => none

end TaintTrail.Program
