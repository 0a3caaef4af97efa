import TaintTrail.Location
import TaintTrail.Program.Typing

/-!
# Resolving addresses

The location that an operand points at is found by walking back from the operand through the
instructions that computed it, down to a stack slot or a parameter. Address computations on the way
become the steps of the location. Loads are walked through: a pointer that is kept in a stack slot
is identified with the slot. A conversion between pointers is walked through as well, unless one of
the two points at a union, where the location is no longer known.
-/

namespace TaintTrail

/-- What an operand points at. -/
inductive Resolution where
  /-- The memory at a location. -/
  | resolved (l : Location)
  /-- Memory behind a union; the steps beyond it are given. -/
  | imprecise (steps : List Step)
  /-- Nothing that starts from a stack slot or a parameter. -/
  | unresolved
  deriving DecidableEq, Inhabited, Repr

/-- The location, if it is known. -/
def Resolution.location? : Resolution → Option Location
  | .resolved l => some l
  | _ => none

/-- One step of the walk back from an operand. -/
inductive Origin where
  /-- The operand points at a frame. -/
  | frame (f : Frame)
  /-- The operand was computed from a base by a step. -/
  | step (s : Step) (base : Value)
  /-- The operand points where another one does. -/
  | through (v : Value)
  /-- The operand is converted to or from a pointer at a union. -/
  | union
  /-- The operand comes from elsewhere. -/
  | elsewhere
  deriving DecidableEq, Inhabited, Repr

namespace Program

/-- Whether a type is that of pointers at a union. -/
def pointsAtUnion (t : Ty) : Bool := t.target?.any Ty.isUnion

/-- Where an operand comes from. -/
def origin (m : Program) : Value → Origin
  | .param proc index => .frame (.param proc index)
  | .result id =>
    match m.inst? id with
    | none => .elsewhere
    | some inst =>
      match inst.operation with
      | .alloca _ => .frame (.stack id)
      | .addressOf indexed base indices => .step ⟨indexed, indices⟩ base
      | .load address => .through address
      | .cast conversion value =>
        if conversion.keepsAddress then
          if pointsAtUnion (m.typeOf value) || pointsAtUnion inst.type then .union
          else .through value
        else .elsewhere
      | _ => .elsewhere
  | _ => .elsewhere

/-- Walks back from an operand for at most the given number of operands, collecting steps. -/
def walk (m : Program) : Nat → List Step → Value → Resolution
  | 0, _, _ => .unresolved
  | n + 1, steps, v =>
    match m.origin v with
    | .frame f => .resolved ⟨f, steps⟩
    | .step s base => walk m n (s :: steps) base
    | .through v => walk m n steps v
    | .union => .imprecise steps
    | .elsewhere => .unresolved

/-- What an operand points at. A walk that ends passes each instruction at most once. -/
def resolve (m : Program) (v : Value) : Resolution := m.walk (m.instructions.size + 1) [] v

/-- The location that an operand points at, if it is known. -/
def locationOf? (m : Program) (v : Value) : Option Location := (m.resolve v).location?

end Program

end TaintTrail
