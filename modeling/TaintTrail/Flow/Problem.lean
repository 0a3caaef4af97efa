import TaintTrail.Coverage
import TaintTrail.Flow.Across
import TaintTrail.Flow.Within
import TaintTrail.Tabulation.Basic

/-!
# The taint problem

The tabulation problem of a program under a configuration. Its store holds the line report and the
procedures that were given up. A branch whose region has no end does no harm until taint decides it;
then its procedure is given up, and from that moment no fact gets into it, through it or out of it.
-/

namespace TaintTrail

/-- What a run has found out besides facts. -/
structure Findings where
  /-- The procedures that were given up, sorted by number, and why. -/
  aborted : List (Nat × RegionError) := []
  report : LineReport := {}
  deriving DecidableEq, Inhabited, Repr

/-- What applying a flow function to a fact comes to. -/
structure Effect where
  facts : List Fact
  /-- The instruction whose source line is touched. -/
  touched : Option Nat := none
  /-- The procedure that taint enters. -/
  entered : Option Nat := none
  /-- The procedure that is given up. -/
  aborts : Option (Nat × RegionError) := none
  deriving DecidableEq, Inhabited, Repr

/-- A flow function. -/
inductive Flow where
  /-- The rule of the instruction at a position, with its result type. -/
  | normal (inst : Nat) (type : Ty) (rule : Rule)
  /-- A branch whose region has no end. -/
  | unclosed (inst : Nat) (type : Ty) (condition : Value) (e : RegionError)
  /-- Into a callee. -/
  | call (site : CallSite) (callee : Procedure)
  /-- Out of a callee. -/
  | ret (site : CallSite) (exit : ExitSite)
  /-- Past a call. -/
  | callToReturn (site : CallSite)
  /-- Every fact stays as it is. -/
  | identity
  /-- No fact gets through. -/
  | kill
  deriving DecidableEq, Inhabited, Repr

namespace Flow

/-- Whether the flow function is known to leave every fact as it is. -/
def isIdentity : Flow → Bool
  | .normal _ _ rule => rule = .keep
  | .identity => true
  | _ => false

/-- Applies the rule of an instruction. The source line is touched if a fact is new. -/
def applyRule (m : Program) (inst : Nat) (type : Ty) (rule : Rule) (d : Fact) : Effect :=
  let facts := rule.flow m inst type d
  { facts, touched := if !d.isZero && marksLine d facts then some inst else none }

/-- Whether taint decides a branch: its condition is tainted, or it stands in an open region. -/
def decides (m : Program) (inst : Nat) (condition : Value) (d : Fact) : Bool :=
  if d.isBranch then m.blockLabel? inst ≠ d.endLabel else d.isPlainValue condition

/-- Applies a flow function to a fact. -/
def apply (m : Program) (config : Config) (flow : Flow) (d : Fact) : Effect :=
  match flow with
  | .normal inst type rule => applyRule m inst type rule d
  | .unclosed inst type condition e =>
    if decides m inst condition d then
      { facts := [], aborts := (m.inst? inst).map fun i => (i.proc, e) }
    else applyRule m inst type (.branch condition (.unclosed e)) d
  | .call site callee =>
    let facts := site.enter callee d
    if d.isZero || facts.isEmpty then { facts }
    else { facts, touched := some site.call, entered := some callee.id }
  | .ret site exit =>
    let facts := site.leave exit d
    { facts, touched := if d.isZero || facts.isEmpty then none else some exit.exit }
  | .callToReturn site =>
    let facts := site.pass m config d
    { facts, touched := if marksLine d facts then some site.call else none }
  | .identity => { facts := [d] }
  | .kill => { facts := [] }

end Flow

namespace LineReport

/-- Records that the source line of an instruction is touched, if it is known. -/
def touch (r : LineReport) (m : Program) (id : Nat) : LineReport :=
  match m.inst? id with
  | none => r
  | some inst =>
    match inst.source, m.procedure? inst.proc with
    | some place, some p => r.recordLine p.name place
    | _, _ => r

/-- Records that taint enters a procedure, if its source file is known. -/
def enter (r : LineReport) (m : Program) (proc : Nat) : LineReport :=
  match m.procedure? proc with
  | none => r
  | some p =>
    match p.sourceFile with
    | some file => r.recordProcedure file p.name
    | none => r

end LineReport

namespace Findings

/-- The coverage. -/
def coverage (f : Findings) : Coverage := f.report.snapshot

/-- Whether the procedure of an instruction was given up. -/
def isAborted (f : Findings) (m : Program) (id : Nat) : Bool :=
  (m.inst? id).any fun inst => f.aborted.any (·.1 = inst.proc)

/-- Takes note of what applying a flow function came to. -/
def note (f : Findings) (m : Program) (e : Effect) : Findings :=
  let touched := e.touched.elim f.report (f.report.touch m)
  { aborted := e.aborts.elim f.aborted fun (proc, error) => Sorted.put proc error f.aborted
    report := e.entered.elim touched (touched.enter m) }

/-- The names of the procedures that were given up, sorted, and why. -/
def abortedNames (f : Findings) (m : Program) : List (String × RegionError) :=
  Sorted.ofPairs (f.aborted.filterMap fun (proc, e) => (m.procedure? proc).map fun p => (p.name, e))

end Findings

namespace Flow

/-- The flow function of an instruction within its procedure. -/
def within (m : Program) (rules : Array (Option Rule)) (inst : Nat) : Flow :=
  match rules[inst]?.join, m.inst? inst with
  | some rule, some i =>
    match rule with
    | .branch condition (.unclosed e) => .unclosed inst i.type condition e
    | rule => .normal inst i.type rule
  | _, _ => .identity

/-- The flow function of a call into a callee. -/
def into (m : Program) (rules : Array (Option Rule)) (site entry : Nat) : Flow :=
  match rules[site]?.join, (m.inst? entry).bind fun i => m.procedure? i.proc with
  | some (.call site), some callee => .call site callee
  | _, _ => .kill

/-- The flow function of a return to a call. -/
def outOf (rules : Array (Option Rule)) (exit site : Nat) : Flow :=
  match rules[site]?.join, rules[exit]?.join with
  | some (.call site), some (.ret exit) => .ret site exit
  | _, _ => .kill

/-- The flow function past a call. -/
def past (rules : Array (Option Rule)) (site : Nat) : Flow :=
  match rules[site]?.join with
  | some (.call site) => .callToReturn site
  | _ => .identity

/-- The flow function of a transfer. Nothing gets through a procedure that was given up. -/
def ofTransfer (m : Program) (rules : Array (Option Rule)) (f : Findings) : Transfer Nat → Flow
  | .normal source _ => if f.isAborted m source then .kill else within m rules source
  | .call site entry =>
    if f.isAborted m site || f.isAborted m entry then .kill else into m rules site entry
  | .ret exit _ site =>
    if f.isAborted m site || f.isAborted m exit then .kill else outOf rules exit site
  | .callToReturn site _ => if f.isAborted m site then .kill else past rules site

end Flow

namespace Program

/-- The instructions where the entry points of a configuration start. -/
def starts (m : Program) (config : Config) : List Nat :=
  config.entryPoints.filterMap fun name => (m.procedureNamed? name).bind Procedure.entry?

/-- The taint problem of a program under a configuration. -/
def taintProblem (m : Program) (config : Config) : Problem Nat Fact Findings :=
  let rules := m.rules config
  { zero := .zero
    seeds := (m.starts config).map fun start => (start, .zero)
    flow := fun t d findings =>
      let effect := (Flow.ofTransfer m rules findings t).apply m config d
      (effect.facts, findings.note m effect) }

end Program

end TaintTrail
