import TaintTrail.Program.Basic

/-!
# Regions of branches

What a conditional branch decides happens between the branch and the block where its alternatives
merge again. Merge blocks are recognised by their labels, such as `if.end` or `sw.epilog3`. A branch
that goes straight to a merge block ends there. Otherwise the blocks are read in order from the
earliest alternative: every merge block closes the innermost open region and every block that ends
in a conditional branch opens one, and the block that closes the first region is the end.
-/

namespace TaintTrail

/-- Why the region of a branch has no end. -/
inductive RegionError where
  /-- No block closes the region of a branch, in a block of a procedure. -/
  | noMergeBlock (proc block : String) (branch : Nat)
  /-- The instruction is no conditional branch. -/
  | notConditional (inst : Nat)
  deriving DecidableEq, Inhabited, Repr

/-- The text of an error. -/
def RegionError.message : RegionError → String
  | .noMergeBlock proc block branch =>
    "no merge block for the branch %" ++ toString branch ++ " in block '" ++ block ++ "' of '"
      ++ proc ++ "'"
  | .notConditional inst => "instruction %" ++ toString inst ++ " is not a conditional terminator"

/-- What is known about the region of a branch. -/
inductive Region where
  /-- Regions are not followed. -/
  | untracked
  /-- The region lasts until control reaches a label. -/
  | endsAt (label : String)
  /-- The region has no end. -/
  | unclosed (e : RegionError)
  deriving DecidableEq, Inhabited, Repr

/-- The label that ends the region. -/
def Region.endLabel? : Region → Option String
  | .endsAt label => some label
  | _ => none

/-- The last component of a label, without the number that makes the label unique. -/
def labelKind (label : String) : String :=
  String.ofList
    ((label.toList.reverse.dropWhile Char.isDigit).takeWhile (· ≠ '.')).reverse

/-- Whether a label is that of a merge block: its kind is one of the given non-empty names. -/
def isMergeLabel (kinds : List String) (label : String) : Bool :=
  kinds.any fun kind => kind ≠ "" && kind = labelKind label

namespace Program

/-- Whether the instruction at a position is a conditional branch. -/
def isConditional (m : Program) (id : Nat) : Bool := (m.operation? id).any Operation.isConditional

/-- Whether a block ends in a conditional branch. -/
def endsConditional (m : Program) (b : Block) : Bool := b.last?.any m.isConditional

/-- The label of the block that closes the outermost of `depth` open regions. -/
def closingLabel? (m : Program) (kinds : List String) (depth : Nat) : List Block → Option String
  | [] => none
  | b :: rest =>
    let depth' := if isMergeLabel kinds b.label then depth - 1 else depth
    if depth' = 0 then some b.label
    else closingLabel? m kinds (if m.endsConditional b then depth' + 1 else depth') rest

/-- The label of the first of the given blocks that is a merge block. -/
def mergeTarget? (p : Procedure) (kinds : List String) (targets : List Nat) : Option String :=
  let reached := targets.filterMap fun i => p.blocks[i]?
  (reached.find? fun b => isMergeLabel kinds b.label).map (·.label)

/-- The label that ends the region of a conditional branch. -/
def regionEnd (m : Program) (kinds : List String) (branch : Nat) : Except RegionError String :=
  match m.inst? branch with
  | none => .error (.notConditional branch)
  | some inst =>
    match m.procedure? inst.proc with
    | none => .error (.notConditional branch)
    | some p =>
      if inst.operation.isConditional then
        let targets := inst.operation.successors
        let found := (mergeTarget? p kinds targets).or
          (targets.min?.bind fun first => m.closingLabel? kinds 1 (p.blocks.toList.drop first))
        match found with
        | some label => .ok label
        | none =>
          .error (.noMergeBlock p.name ((p.blocks[inst.block]?.map (·.label)).getD "") branch)
      else .error (.notConditional branch)

/-- The conditional branches that end the blocks of a procedure, in order, with the ends of their
regions. -/
def regions (m : Program) (kinds : List String) (p : Procedure) :
    List (Nat × Except RegionError String) :=
  (p.blocks.toList.filterMap Block.last?).filter m.isConditional |>.map fun id =>
    (id, m.regionEnd kinds id)

/-- The region of a branch, among those of a procedure. -/
def regionIn (m : Program) (kinds : List String) (p : Procedure) (branch : Nat) : Region :=
  match (m.regions kinds p).lookup branch with
  | some (.ok label) => .endsAt label
  | some (.error e) => .unclosed e
  | none => .untracked

end Program

end TaintTrail
