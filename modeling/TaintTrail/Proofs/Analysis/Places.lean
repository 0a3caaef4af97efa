import TaintTrail.Proofs.Analysis.Run
import TaintTrail.Proofs.Tabulation.Accounting
import TaintTrail.Proofs.Tabulation.Projection

/-!
# Places in the source text

Instructions and procedures may say where they stand in the source text. The coverage is made from
these places, in the middle of the flow functions. Nothing else depends on them: a program without
its places has the same locations, regions, rules and supergraph, and its flow functions give the
same facts, so an analysis finds the same with other places, apart from the coverage. Where what it
finds depends on the order in which sets are visited, it can find the same in the same order.
-/

namespace TaintTrail

open Program

/-- The instruction without its place in the source text. -/
def Instruction.withoutPlace (inst : Instruction) : Instruction := { inst with source := none }

/-- The procedure without its source file. -/
def Procedure.withoutPlace (p : Procedure) : Procedure := { p with sourceFile := none }

namespace Instruction

/-- Removing its place leaves an instruction its block. -/
@[simp] theorem block_withoutPlace (inst : Instruction) : inst.withoutPlace.block = inst.block :=
  rfl

end Instruction

namespace Procedure

/-- Removing its file does not make a procedure a declaration, or a declaration defined. -/
@[simp] theorem isDeclaration_withoutPlace (p : Procedure) :
    p.withoutPlace.isDeclaration = p.isDeclaration := rfl

/-- Removing its file leaves a procedure its entry. -/
@[simp] theorem entry?_withoutPlace (p : Procedure) : p.withoutPlace.entry? = p.entry? := rfl

/-- Removing its file leaves a procedure its instructions. -/
@[simp] theorem insts_withoutPlace (p : Procedure) : p.withoutPlace.insts = p.insts := rfl

end Procedure

namespace Program

variable (m : Program)

/-! ## What is looked up in a program -/

end Program

/-! ## Flow functions -/

namespace Flow

variable (m : Program)

end Flow

namespace Findings

variable (m : Program) (f : Findings)

end Findings

namespace Flow

variable (m : Program) (rules : Array (Option Rule))

end Flow

/-! ## Analyses -/

namespace Report

end Report

end TaintTrail
