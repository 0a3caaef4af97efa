import TaintTrail.Json.Decoder
import TaintTrail.Json.Printer
import TaintTrail.Program.Basic

/-!
# Coverage

The source lines that taint touches and the procedures that contain or receive it, by source file.
While an analysis runs, lines and procedures are recorded in two separate maps. A coverage is what
these come to when they are merged. Files, lines and procedures are kept as sorted sets, so what a
coverage holds does not depend on the order in which it was recorded. It is written as a list of
lines, as a trace with one record for each file, or as JSON.
-/

namespace TaintTrail

/-- The touched lines and procedures of one file, both sorted. -/
structure FileCoverage where
  lines : List Nat := []
  procedures : List String := []
  deriving DecidableEq, Inhabited, Repr

/-- The coverage of each file, sorted by file. -/
structure Coverage where
  files : List (String × FileCoverage) := []
  deriving DecidableEq, Inhabited, Repr

namespace FileCoverage

/-- Adds a line. -/
def addLine (c : FileCoverage) (line : Nat) : FileCoverage :=
  { c with lines := Sorted.insert line c.lines }

/-- Adds a procedure. -/
def addProcedure (c : FileCoverage) (name : String) : FileCoverage :=
  { c with procedures := Sorted.insert name c.procedures }

/-- The JSON form of the coverage of a file. -/
def toJson (c : FileCoverage) : Json :=
  .object [("lines", .array .nat c.lines), ("functions", .array .text c.procedures)]

/-- Reads the JSON form of the coverage of a file. -/
def ofJson? : Json.Decoder FileCoverage
  | levels + 1, j => do
    let fields ← j.fields? ["lines", "functions"]
    let lines ← fields.required "lines" (Json.Decoder.list Json.Decoder.word levels)
    let procedures ← fields.required "functions" (Json.Decoder.list Json.Decoder.string levels)
    some ⟨Sorted.ofList lines, Sorted.ofList procedures⟩
  | 0, _ => none

/-- The record of a file in the trace. -/
def trace (file : String) (c : FileCoverage) : String :=
  "SF:" ++ file ++ "\n"
    ++ String.join (c.procedures.map fun name => "FNDA:1," ++ name ++ "\n")
    ++ String.join (c.lines.map fun line => "DA:" ++ toString line ++ ",1\n")
    ++ "end_of_record\n"

end FileCoverage

namespace Coverage

/-- Changes what is recorded for a file. -/
def atFile (c : Coverage) (file : String) (change : FileCoverage → FileCoverage) : Coverage :=
  ⟨Sorted.alter file (fun old => change (old.getD {})) c.files⟩

/-- Adds the sets of a map to what is recorded for their files. -/
def addSets {α : Type} (add : FileCoverage → α → FileCoverage) (c : Coverage)
    (map : List (String × List α)) : Coverage :=
  map.foldl (fun c entry => c.atFile entry.1 fun f => entry.2.foldl add f) c

/-- Merges the lines and the procedures of files. -/
def merge (lines : List (String × List Nat)) (procedures : List (String × List String)) :
    Coverage :=
  (({} : Coverage).addSets .addLine lines).addSets .addProcedure procedures

/-- The touched lines of all files, each on a line of its own. -/
def lineList (c : Coverage) : String :=
  String.join (c.files.flatMap fun (_, f) => f.lines.map fun line => toString line ++ "\n")

/-- The records of all files. -/
def trace (c : Coverage) : String := String.join (c.files.map fun (file, f) => f.trace file)

/-- The JSON form of a coverage. -/
def toJson (c : Coverage) : Json := .object (c.files.map fun (file, f) => (file, f.toJson))

/-- Reads the JSON form of a coverage. -/
def ofJson? : Json.Decoder Coverage := fun levels j =>
  (Json.Decoder.dictionary FileCoverage.ofJson? levels j).map fun files => ⟨Sorted.ofPairs files⟩

/-- The coverage as JSON text. -/
def write (c : Coverage) : String := c.toJson.pretty

end Coverage

/-- What is recorded while an analysis runs. A file may be in one of the two maps only. -/
structure LineReport where
  /-- The touched lines of each file. -/
  lines : List (String × List Nat) := []
  /-- The procedures of each file that contain or receive taint. -/
  procedures : List (String × List String) := []
  deriving DecidableEq, Inhabited, Repr

namespace LineReport

/-- Whether nothing is recorded. -/
def isEmpty (r : LineReport) : Bool := r.lines.isEmpty && r.procedures.isEmpty

/-- Records that taint enters a procedure of a file. -/
def recordProcedure (r : LineReport) (file name : String) : LineReport :=
  { r with procedures := Sorted.insertAt file name r.procedures }

/-- Records that taint touches a line in a procedure: first the line, then the procedure. -/
def recordLine (r : LineReport) (name : String) (place : SourceLine) : LineReport :=
  let touched := { r with lines := Sorted.insertAt place.file place.line r.lines }
  touched.recordProcedure place.file name

/-- The coverage of what is recorded so far. -/
def snapshot (r : LineReport) : Coverage := Coverage.merge r.lines r.procedures

end LineReport

end TaintTrail
