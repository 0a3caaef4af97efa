import TaintTrail.Program.Basic

/-!
# Types of operands and results

The types that follow from a program: that of any operand, that of an address computation, and
those of the results of operations.
-/

namespace TaintTrail.Program

/-- The type of an operand. -/
def typeOf (m : Program) : Value → Ty
  | .result id => ((m.inst? id).map (·.type)).getD .unknown
  | .param proc index =>
    (((m.procedure? proc).bind (·.params[index]?)).map (·.type)).getD .unknown
  | .int _ => .int 64
  | .text _ => .pointer (.int 8)
  | .null => .pointer (.int 8)
  | .global _ => .pointer (.int 8)
  | .undef => .unknown

/-- The type of the part of an object that an index selects: an element of an array, or the member
of a struct or union at a constant position. -/
def part? (m : Program) (t : Ty) (index : Value) : Option Ty :=
  match t, index with
  | .array element _, _ => some element
  | .struct name, .int (.ofNat n) => (m.aggregate? name).bind (·.members[n]?)
  | .union name, .int (.ofNat n) => (m.aggregate? name).bind (·.members[n]?)
  | _, _ => none

/-- The type of the result of an address computation. The first index steps over whole objects and
each further one goes into a part; where that is impossible the target is unknown. -/
def addressType (m : Program) (indexed : Ty) (indices : List Value) : Ty :=
  .pointer (((indices.drop 1).foldlM m.part? indexed).getD .unknown)

/-- The type of the result of an operation. Where it does not follow from the operands it is the
one that is stated. -/
def resultType (m : Program) (stated : Ty) : Operation → Ty
  | .alloca allocated => .pointer allocated
  | .load address => (m.typeOf address).target?.getD .unknown
  | .addressOf indexed _ indices => m.addressType indexed indices
  | .binary _ left _ => m.typeOf left
  | .compare _ _ _ => .int 1
  | .select _ ifTrue _ => m.typeOf ifTrue
  | .call (.direct name) _ => ((m.procedureNamed? name).map (·.result)).getD .unknown
  | op => if op.hasResult then stated else .void

end TaintTrail.Program
