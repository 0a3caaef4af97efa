import TaintTrail.Ty
import TaintTrail.Value

/-!
# Operations

What an instruction does, with its operands: memory operations, arithmetic, calls, access to
variable arguments, and the operations that end a block. Blocks are named by their position in the
procedure.
-/

namespace TaintTrail

/-- A conversion. -/
inductive Conversion where
  | bitcast
  | addressSpace
  | pointerToInt
  | intToPointer
  | truncate
  | zeroExtend
  | signExtend
  | floating
  deriving DecidableEq, Inhabited, Repr

/-- Whether a conversion turns an address into an address. -/
def Conversion.keepsAddress : Conversion → Bool
  | .bitcast => true
  | .addressSpace => true
  | _ => false

/-- An operation on two numbers. -/
inductive Arithmetic where
  | add
  | sub
  | mul
  | div
  | rem
  | and
  | or
  | xor
  | shl
  | shr
  deriving DecidableEq, Inhabited, Repr

/-- What a call calls. -/
inductive Callee where
  /-- The procedure of a name, which need not be defined. -/
  | direct (name : String)
  /-- The procedure that an operand points at. -/
  | indirect (target : Value)
  deriving DecidableEq, Inhabited, Repr

/-- What an instruction does. -/
inductive Operation where
  /-- Makes a stack slot. -/
  | alloca (allocated : Ty)
  | load (address : Value)
  | store (value address : Value)
  /-- Computes the address of a part of an object. -/
  | addressOf (indexed : Ty) (base : Value) (indices : List Value)
  /-- Copies memory. -/
  | copy (target source length : Value)
  /-- Fills memory with a value. -/
  | fill (target value length : Value)
  | cast (conversion : Conversion) (value : Value)
  | binary (arithmetic : Arithmetic) (left right : Value)
  | compare (predicate : String) (left right : Value)
  | select (condition ifTrue ifFalse : Value)
  /-- Takes the value that belongs to the block that control came from. -/
  | phi (incoming : List (Value × Nat))
  /-- Takes a member of an aggregate value. -/
  | extract (aggregate : Value) (indices : List Nat)
  | call (callee : Callee) (args : List Value)
  | vaStart (list : Value)
  | vaArg (list : Value)
  | vaCopy (target source : Value)
  | vaEnd (list : Value)
  | jump (target : Nat)
  | branch (condition : Value) (ifTrue ifFalse : Nat)
  | switch (condition : Value) (otherwise : Nat) (cases : List (Int × Nat))
  | ret (value : Option Value)
  | unreachable
  /-- Any other operation, of which only the operands matter. -/
  | other (opcode : String) (operands : List Value)
  deriving DecidableEq, Inhabited, Repr

namespace Operation

/-- The address of a member of an aggregate. -/
def member (aggregate : Ty) (base : Value) (index : Int) : Operation :=
  .addressOf aggregate base [.zero, .int index]

/-- The address of the first element of an array. -/
def arrayStart (array : Ty) (base : Value) : Operation := .addressOf array base [.zero, .zero]

/-- The operands, in order. -/
def operands : Operation → List Value
  | .alloca _ => []
  | .load address => [address]
  | .store value address => [value, address]
  | .addressOf _ base indices => base :: indices
  | .copy target source length => [target, source, length]
  | .fill target value length => [target, value, length]
  | .cast _ value => [value]
  | .binary _ left right => [left, right]
  | .compare _ left right => [left, right]
  | .select condition ifTrue ifFalse => [condition, ifTrue, ifFalse]
  | .phi incoming => incoming.map (·.1)
  | .extract aggregate _ => [aggregate]
  | .call (.direct _) args => args
  | .call (.indirect target) args => target :: args
  | .vaStart list => [list]
  | .vaArg list => [list]
  | .vaCopy target source => [target, source]
  | .vaEnd list => [list]
  | .jump _ => []
  | .branch condition _ _ => [condition]
  | .switch condition _ _ => [condition]
  | .ret value => value.toList
  | .unreachable => []
  | .other _ operands => operands

/-- The blocks that control can go to from the end of a block. -/
def successors : Operation → List Nat
  | .jump target => [target]
  | .branch _ ifTrue ifFalse => [ifTrue, ifFalse]
  | .switch _ otherwise cases => otherwise :: cases.map (·.2)
  | _ => []

/-- Whether the operation ends a block. -/
def isTerminator : Operation → Bool
  | .jump _ => true
  | .branch _ _ _ => true
  | .switch _ _ _ => true
  | .ret _ => true
  | .unreachable => true
  | _ => false

/-- Whether the operation chooses between blocks. -/
def isConditional : Operation → Bool
  | .branch _ _ _ => true
  | .switch _ _ _ => true
  | _ => false

/-- Whether the operation leaves its procedure. -/
def isReturn : Operation → Bool
  | .ret _ => true
  | _ => false

/-- Whether other instructions can use a result of the operation. -/
def hasResult : Operation → Bool
  | .store _ _ => false
  | .copy _ _ _ => false
  | .fill _ _ _ => false
  | .vaStart _ => false
  | .vaCopy _ _ => false
  | .vaEnd _ => false
  | op => !op.isTerminator

/-- The name of the operation. -/
def opcode : Operation → String
  | .alloca _ => "alloca"
  | .load _ => "load"
  | .store _ _ => "store"
  | .addressOf _ _ _ => "getelementptr"
  | .copy _ _ _ => "memcpy"
  | .fill _ _ _ => "memset"
  | .cast _ _ => "cast"
  | .binary _ _ _ => "binop"
  | .compare _ _ _ => "icmp"
  | .select _ _ _ => "select"
  | .phi _ => "phi"
  | .extract _ _ => "extractvalue"
  | .call _ _ => "call"
  | .vaStart _ => "va_start"
  | .vaArg _ => "va_arg"
  | .vaCopy _ _ => "va_copy"
  | .vaEnd _ => "va_end"
  | .jump _ => "br"
  | .branch _ _ _ => "br"
  | .switch _ _ _ => "switch"
  | .ret _ => "ret"
  | .unreachable => "unreachable"
  | .other opcode _ => opcode

end Operation

end TaintTrail
