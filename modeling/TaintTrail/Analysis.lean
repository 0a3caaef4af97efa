import TaintTrail.Flow.Problem
import TaintTrail.Supergraph.OfProgram
import TaintTrail.Tabulation.Solve

/-!
# Taint analysis

Analyses a program under a configuration, and answers questions about what was found: which values
are tainted somewhere, which facts hold before an instruction, which lines taint touches, and which
procedures were given up.
-/

namespace TaintTrail

/-- Why a program is not analysed. -/
inductive AnalysisError where
  /-- The configuration cannot be used. -/
  | config (e : ConfigError)
  /-- The program does not define an entry point. -/
  | undefinedEntryPoint (name : String)
  deriving DecidableEq, Inhabited, Repr

/-- The text of an error. -/
def AnalysisError.message : AnalysisError → String
  | .config e => "Configuration error: " ++ e.message
  | .undefinedEntryPoint name => "Entry point '" ++ name ++ "' is not defined in the module"

/-- What an analysis has found. -/
structure Report where
  program : Program
  run : Run Nat Fact Findings

namespace Report

/-- The coverage. -/
def coverage (r : Report) : Coverage := r.run.store.coverage

/-- The procedures that were given up, sorted by name, and why. -/
def aborted (r : Report) : List (String × RegionError) := r.run.store.abortedNames r.program

/-- The facts before an instruction, sorted. -/
def factsBefore (r : Report) (inst : Nat) : List Fact := Fact.sorted (r.run.factsAt inst)

/-- Whether control can reach an instruction. -/
def isReachable (r : Report) (inst : Nat) : Bool := r.run.edges.any (·.node = inst)

/-- The values that are tainted somewhere. -/
def taintedValues (r : Report) : List Value :=
  r.run.edges.toList.filterMap fun e => if e.fact.isLocal then none else e.fact.value?

/-- Whether a value is tainted somewhere. -/
def isTainted (r : Report) (v : Value) : Bool := v ∈ r.taintedValues

/-- The instructions whose results are tainted somewhere, sorted. -/
def taintedInsts (r : Report) : List Nat := Sorted.ofList (r.taintedValues.filterMap Value.inst?)

/-- Whether memory that overlaps a location is tainted before an instruction. -/
def isMemoryTainted (r : Report) (inst : Nat) (l : Location) : Bool :=
  (r.run.factsAt inst).any fun d => d.plainLocation?.any (·.overlaps l)

/-- The JSON form of the numbers of a run, which took some milliseconds. -/
def statistics (r : Report) (milliseconds : Nat) : Json :=
  .object [("num_path_edges", .nat r.run.edges.size),
    ("num_summary_edges", .nat r.run.summaries.length),
    ("num_summary_reuses", .nat r.run.reuses), ("num_iterations", .nat r.run.followed),
    ("hit_iteration_limit", .bool !r.run.isComplete), ("analysis_time_ms", .nat milliseconds)]

/-- The JSON form of the procedures that were given up. -/
def abortedJson (r : Report) : Json :=
  .object (r.aborted.map fun (name, e) => (name, .text e.message))

/-- The JSON form of a report of an analysis that took some milliseconds. -/
def toJson (r : Report) (milliseconds : Nat) : Json :=
  .object [("coverage", r.coverage.toJson), ("tainted_instructions", .array .nat r.taintedInsts),
    ("aborted", r.abortedJson), ("statistics", r.statistics milliseconds)]

end Report

namespace Program

/-- Whether the program defines an entry point. -/
def definesEntry (m : Program) (name : String) : Bool :=
  ((m.procedureNamed? name).bind Procedure.entry?).isSome

/-- Analyses a program. -/
def analyze (m : Program) (config : Config) : Except AnalysisError Report :=
  match config.validate with
  | .error e => .error (.config e)
  | .ok () =>
    match config.entryPoints.find? fun name => !m.definesEntry name with
    | some name => .error (.undefinedEntryPoint name)
    | none => .ok ⟨m, Run.solve (m.taintProblem config) m.supergraph config.limit {}⟩

end Program

end TaintTrail
