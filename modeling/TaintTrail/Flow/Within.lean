import TaintTrail.Flow.Rule

/-!
# Flow within a procedure

The facts that one fact turns into when an instruction runs. A fact about the region of a branch is
treated first: it ends at the label of its region, and until then taints whatever the instruction
produces or writes. For the other facts the rule of the instruction decides.
-/

namespace TaintTrail

namespace Location

/-- Where memory is found when a pointer at `source` is stored in `target`. -/
def stored? (l source target : Location) : Option Location :=
  if source.contains l then some (l.rebase source.length target) else none

/-- Where memory is found when `source` is copied to `target`: memory inside `source` at the same
place inside `target`, and memory around `source` everywhere in `target`. -/
def copied? (l source target : Location) : Option Location :=
  if source.contains l then some (l.rebase source.length target)
  else if l.contains source then some target
  else none

end Location

/-- Whether facts that come out of a flow function are worth reporting: one of them is new, and is
not about a cursor. -/
def marksLine (d : Fact) (facts : List Fact) : Bool := facts.any fun e => e ≠ d && e.list.isNone

namespace Rule

/-- The fact, and the memory that is written because of it. -/
def writing (target : Option Location) (d : Fact) : List Fact := d :: target.toList.map .memory

/-- The fact, and the result if it is tainted because of it. -/
def producing (result : Value) (isTainted : Bool) (d : Fact) : List Fact :=
  if isTainted then [d, .value result] else [d]

/-- What becomes of a fact when `target` is written. Memory that `moved?` finds again in the target
stays and is found there too; other memory inside the target is overwritten. -/
def overwriting (moved? : Location → Location → Option Location) (target : Option Location)
    (d : Fact) : List Fact :=
  match d.plainLocation?, target with
  | some l, some target =>
    match moved? l target with
    | some landed => [d, .memory landed]
    | none => if target.contains l then [] else [d]
  | _, _ => [d]

/-- What becomes of a fact about the region of a branch at an instruction, which stands in a block
with the given label. -/
def applyBranch (rule : Rule) (label : Option String) (inst : Nat) (type : Ty) (d : Fact) :
    List Fact :=
  if label = d.endLabel then []
  else if d.value? = some (.result inst) then [d]
  else
    match rule with
    | .branch _ region => d :: region.endLabel?.toList.map (.branch (.result inst))
    | rule =>
      let produced := if type = .void then [] else [.value (.result inst)]
      d :: (produced ++ rule.written?.toList.map .memory)

/-- What becomes of a fact when its cursor gives an argument: the result is tainted if the cursor
has come to the tainted argument, and the cursor moves on if it has not yet. -/
def advance (result : Value) (d : Fact) : List Fact :=
  let index := d.argIndex.getD 0
  let cursor := d.cursor.getD 0
  if cursor = index then [.value result]
  else if cursor < index then [{ d with cursor := some (cursor + 1) }]
  else []

/-- Whether a fact goes with a cursor object. -/
def follows (d : Fact) (list : Option Location) : Bool :=
  match d.list, list with
  | some tracked, some list => tracked.overlaps list
  | _, _ => false

/-- What becomes of a fact that is not about the region of a branch at an instruction with the given
result. -/
def apply (rule : Rule) (result : Value) (d : Fact) : List Fact :=
  match rule with
  | .keep | .call _ | .ret _ => [d]
  | .store value source target =>
    if d.isPlainValue value then writing target d
    else overwriting (fun l t => source.bind fun s => l.stored? s t) target d
  | .load address location givesPointer =>
    let isRead (l : Location) : Bool :=
      location.any fun a => l.contains a || (!givesPointer && a.contains l)
    producing result (d.isPlainValue address || d.plainLocation?.any isRead) d
  | .compute operands => producing result (operands.any d.isPlainValue) d
  | .copy address source target =>
    if d.isPlainValue address then writing target d
    else overwriting (fun l t => source.bind fun s => l.copied? s t) target d
  | .fill value target =>
    if d.isPlainValue value then writing target d else overwriting (fun _ _ => none) target d
  | .phi values locations =>
    let isTaken (l : Location) : Bool := locations.any (·.overlaps l)
    producing result (values.any d.isPlainValue || d.plainLocation?.any isTaken) d
  | .branch condition region =>
    match region.endLabel? with
    | some label => if d.isPlainValue condition then [d, .branch result label] else [d]
    | none => [d]
  | .vaStart list =>
    if list.isSome && d.argIndex.isSome && d.list.isNone then [d, { d with list, cursor := some 0 }]
    else [d]
  | .vaArg list => if follows d list then advance result d else [d]
  | .vaCopy source target =>
    if target.isSome && follows d source then [d, { d with list := target }] else [d]
  | .vaEnd list => if follows d list then [] else [d]

/-- The facts that a fact turns into at the instruction with a position and a result type. -/
def flow (m : Program) (rule : Rule) (inst : Nat) (type : Ty) (d : Fact) : List Fact :=
  if d.isZero then [d]
  else if d.isBranch then rule.applyBranch (m.blockLabel? inst) inst type d
  else rule.apply (.result inst) d

end Rule

end TaintTrail
