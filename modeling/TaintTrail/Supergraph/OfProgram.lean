import TaintTrail.Program.Calls
import TaintTrail.Supergraph.Basic

/-!
# The supergraph of a program

The nodes are the numbers of instructions. An instruction that ends a block is linked to the first
instruction of each block it can go to, and every other one to the next in its block. A call is
linked past the call; a call of a procedure with a body is also linked to the procedure's entry, and
each return of the procedure is linked back. Targets that do not exist are left out.
-/

namespace TaintTrail.Program

/-- The procedures with a body. -/
def defined (m : Program) : List Procedure := m.procedures.toList.filter fun p => !p.isDeclaration

/-- The links of the call of a procedure with a body. -/
def calleeLinks (m : Program) (call returnSite : Nat) : List (Nat × Link Nat) :=
  match m.callTarget? call with
  | none => []
  | some callee =>
    match callee.entry? with
    | none => []
    | some entry =>
      (call, .call entry) :: (m.exits callee.id).map fun exit => (exit, .ret returnSite call)

/-- The links from the end of a block. -/
def terminatorLinks (p : Procedure) (id : Nat) (operation : Operation) : List (Nat × Link Nat) :=
  operation.successors.filterMap fun block =>
    (p.blocks[block]?.bind Block.first?).map fun first => (id, .normal first)

/-- The links of an instruction inside a block. -/
def stepLinks (m : Program) (id next : Nat) (operation : Operation) : List (Nat × Link Nat) :=
  match operation with
  | .call _ _ => m.calleeLinks id next ++ [(id, .callToReturn next)]
  | _ => [(id, .normal next)]

/-- The links that an instruction of a procedure gives rise to, where `next` follows it in its
block. -/
def instLinks (m : Program) (p : Procedure) (id : Nat) (next : Option Nat) :
    List (Nat × Link Nat) :=
  match m.operation? id with
  | none => []
  | some operation =>
    if operation.isTerminator then terminatorLinks p id operation
    else
      match next with
      | none => []
      | some next => m.stepLinks id next operation

/-- The links that the instructions of a block give rise to, in order. -/
def blockLinks (m : Program) (p : Procedure) : List Nat → List (Nat × Link Nat)
  | [] => []
  | id :: rest => m.instLinks p id rest.head? ++ blockLinks m p rest

/-- The nodes of a procedure that starts with an instruction, each with that instruction. -/
def ownersOf (p : Procedure) : List (Nat × Nat) :=
  match p.entry? with
  | none => []
  | some entry => (p.insts ++ [entry]).map fun id => (id, entry)

/-- The supergraph of a program. -/
def supergraph (m : Program) : Supergraph Nat where
  links := m.defined.flatMap fun p => p.blocks.toList.flatMap fun b => m.blockLinks p b.insts
  entries := m.defined.filterMap Procedure.entry?
  exits := (m.defined.filter fun p => p.entry?.isSome).flatMap fun p => m.exits p.id
  owners := m.defined.flatMap ownersOf

end TaintTrail.Program
