import Mathlib.Data.List.Basic
import TaintTrail.Coverage

/-!
# Reading the trace of a coverage

The trace is a text without escapes: a name goes into it as it is. Still nothing is lost as long as
no name breaks a line. Each line then says by its beginning what it is, whatever the name behind it
looks like, and the lines of a file stand between the one with its name and the end of its record.
A reader that goes over the lines once gets the coverage back.
-/

namespace TaintTrail

/-- A line of the trace. -/
inductive TraceLine where
  | file (name : String)
  | procedure (name : String)
  | touched (line : Nat)
  | endOfRecord
  deriving DecidableEq, Repr

namespace TraceLine

/-- What stands before the name of a file. -/
def fileMark : List Char := ['S', 'F', ':']

/-- What stands before the name of a procedure. -/
def procedureMark : List Char := ['F', 'N', 'D', 'A', ':', '1', ',']

/-- What stands before the number of a line. -/
def touchedMark : List Char := ['D', 'A', ':']

/-- What stands behind the number of a line. -/
def onceMark : List Char := [',', '1']

/-- The end of a record. -/
def endMark : List Char := ['e', 'n', 'd', '_', 'o', 'f', '_', 'r', 'e', 'c', 'o', 'r', 'd']

/-- The characters of a line. -/
def chars : TraceLine → List Char
  | .file name => fileMark ++ name.toList
  | .procedure name => procedureMark ++ name.toList
  | .touched line => touchedMark ++ (Nat.toDigits 10 line ++ onceMark)
  | .endOfRecord => endMark

/-- Reads the number of a line. -/
def touched? (chars : List Char) : Option TraceLine :=
  (onceMark.isSuffixOf? chars).bind fun digits =>
    if digits.all Char.isDigit then some (.touched (Nat.ofDigitChars 10 digits 0)) else none

/-- Reads a line by its beginning. -/
def ofChars? (chars : List Char) : Option TraceLine :=
  ((fileMark.isPrefixOf? chars).map fun name => .file (String.ofList name)).or <|
  ((procedureMark.isPrefixOf? chars).map fun name => .procedure (String.ofList name)).or <|
  ((touchedMark.isPrefixOf? chars).bind touched?).or <|
  if chars = endMark then some .endOfRecord else none

/-- A mark is taken off the front of a line. -/
theorem isPrefixOf?_append (mark rest : List Char) : mark.isPrefixOf? (mark ++ rest) = some rest :=
  List.isPrefixOf?_eq_some_iff_append_eq.mpr rfl

/-- The number of a touched line is read back. -/
theorem touched?_append (line : Nat) :
    touched? (Nat.toDigits 10 line ++ onceMark) = some (.touched line) := by
  have hsuffix : onceMark.isSuffixOf? (Nat.toDigits 10 line ++ onceMark) =
      some (Nat.toDigits 10 line) := List.isSuffixOf?_eq_some_iff_append_eq.mpr rfl
  have hdigits : (Nat.toDigits 10 line).all Char.isDigit = true := by
    rw [List.all_eq_true]
    exact fun c hc => Nat.isDigit_of_mem_toDigits (by decide) (by decide) hc
  rw [touched?, hsuffix, Option.bind_some, if_pos hdigits, Nat.ofDigitChars_ten_toDigits]

/-- Each line of a trace is read back as what it says. -/
theorem ofChars?_chars (line : TraceLine) : ofChars? line.chars = some line := by
  -- No mark begins another one, so what follows the mark of a line does not matter.
  cases line with
  | file name => simp [ofChars?, chars, isPrefixOf?_append]
  | procedure name =>
    have hfile : fileMark.isPrefixOf? (procedureMark ++ name.toList) = none := rfl
    simp [ofChars?, chars, hfile, isPrefixOf?_append]
  | touched line =>
    have hfile (rest : List Char) : fileMark.isPrefixOf? (touchedMark ++ rest) = none := rfl
    have hprocedure (rest : List Char) : procedureMark.isPrefixOf? (touchedMark ++ rest) = none :=
      rfl
    simp [ofChars?, chars, hfile, hprocedure, isPrefixOf?_append, touched?_append]
  | endOfRecord => rfl

/-- A line has a line break in it only if its name does. -/
theorem lineBreak_notMem_chars {line : TraceLine}
    (hname : ∀ name, line = .file name ∨ line = .procedure name → '\n' ∉ name.toList) :
    '\n' ∉ line.chars := by
  cases line with
  | file name =>
    rw [chars, List.mem_append, not_or]
    exact ⟨by decide, hname name (.inl rfl)⟩
  | procedure name =>
    rw [chars, List.mem_append, not_or]
    exact ⟨by decide, hname name (.inr rfl)⟩
  | touched line =>
    have hdigits : '\n' ∉ Nat.toDigits 10 line := fun hmem =>
      absurd (Nat.isDigit_of_mem_toDigits (by decide) (by decide) hmem) (by decide)
    rw [chars, List.mem_append, List.mem_append, not_or, not_or]
    exact ⟨by decide, hdigits, by decide⟩
  | endOfRecord => exact (by decide : '\n' ∉ endMark)

/-- The text of lines, each of which is closed by a line break. -/
def text (lines : List TraceLine) : List Char := lines.flatMap fun line => line.chars ++ ['\n']

/-- Reads lines, each of which has to be closed by a line break. -/
def ofText? (text : List Char) : Option (List TraceLine) :=
  if (text.splitOn '\n').getLast? = some [] then
    (text.splitOn '\n').dropLast.mapM ofChars?
  else none

/-- Lines that are closed by line breaks stand between the line breaks, before an empty rest. -/
theorem text_eq_intercalate (lines : List TraceLine) :
    text lines = ['\n'].intercalate (lines.map chars ++ [[]]) := by
  induction lines with
  | nil => rfl
  | cons line rest ih =>
    rw [List.map_cons, List.cons_append, List.intercalate_cons_of_ne_nil (by simp), ← ih]
    simp [text]

/-- The lines of a trace are read back if no name breaks a line. -/
theorem ofText?_text {lines : List TraceLine} (h : ∀ line ∈ lines, '\n' ∉ line.chars) :
    ofText? (text lines) = some lines := by
  have hsplit : (text lines).splitOn '\n' = lines.map chars ++ [[]] := by
    rw [text_eq_intercalate]
    refine List.splitOn_intercalate '\n' (fun part hpart => ?_) (by simp)
    obtain hpart | rfl := List.mem_append.mp hpart |>.imp_right List.mem_singleton.mp
    · obtain ⟨line, hline, rfl⟩ := List.mem_map.mp hpart
      exact h line hline
    · exact List.not_mem_nil
  have hread : (lines.map chars).mapM ofChars? = some lines := by
    have hid : (ofChars? ∘ chars) = fun line => pure (id line) := funext ofChars?_chars
    rw [List.mapM_map, hid, List.mapM_pure, List.map_id]
    rfl
  rw [ofText?, hsplit, List.getLast?_concat, if_pos rfl, List.dropLast_concat, hread]

end TraceLine

/-! ## Records -/

/-- The lines of the record of a file. -/
def FileCoverage.traceLines (file : String) (c : FileCoverage) : List TraceLine :=
  .file file :: (c.procedures.map .procedure ++ (c.lines.map .touched ++ [.endOfRecord]))

/-- The trace of a file consists of its lines. -/
theorem FileCoverage.toList_trace (file : String) (c : FileCoverage) :
    (c.trace file).toList = TraceLine.text (c.traceLines file) := by
  have hfile : "SF:".toList = TraceLine.fileMark := rfl
  have hprocedure : "FNDA:1,".toList = TraceLine.procedureMark := rfl
  have htouched : "DA:".toList = TraceLine.touchedMark := rfl
  have honce : ",1\n".toList = TraceLine.onceMark ++ ['\n'] := rfl
  have hend : "end_of_record\n".toList = TraceLine.endMark ++ ['\n'] := rfl
  have hbreak : "\n".toList = ['\n'] := rfl
  simp only [trace, traceLines, TraceLine.text, TraceLine.chars, String.toList_append,
    String.toList_join, hfile, hprocedure, htouched, honce, hend, hbreak, List.flatMap_cons,
    List.flatMap_append, List.flatMap_map, List.flatMap_nil, List.append_assoc, List.append_nil,
    Nat.toString_eq_repr, Nat.toList_repr]

/-- What was read so far: the records that are closed, and the one that is open if there is one. -/
structure TraceReader where
  files : List (String × FileCoverage) := []
  current : Option (String × FileCoverage) := none
  deriving DecidableEq, Repr

namespace TraceReader

/-- Reads a line. -/
def read : TraceReader → TraceLine → Option TraceReader
  | ⟨files, none⟩, .file name => some ⟨files, some (name, {})⟩
  | ⟨files, some (file, f)⟩, .procedure name =>
    some ⟨files, some (file, { f with procedures := f.procedures ++ [name] })⟩
  | ⟨files, some (file, f)⟩, .touched line =>
    some ⟨files, some (file, { f with lines := f.lines ++ [line] })⟩
  | ⟨files, some entry⟩, .endOfRecord => some ⟨files ++ [entry], none⟩
  | _, _ => none

variable (files : List (String × FileCoverage)) (file : String)

/-- Reading the lines of procedures adds them to the open file, by induction on them. -/
theorem foldlM_read_procedures (names : List String) (f : FileCoverage) :
    (names.map .procedure).foldlM read ⟨files, some (file, f)⟩ =
      some ⟨files, some (file, { f with procedures := f.procedures ++ names })⟩ := by
  induction names generalizing f with
  | nil => simp
  | cons name rest ih =>
    rw [List.map_cons, List.foldlM_cons, read, Option.bind_eq_bind, Option.bind_some, ih,
      List.append_assoc, List.singleton_append]

/-- Reading the touched lines adds them to the open file, by induction on them. -/
theorem foldlM_read_lines (lines : List Nat) (f : FileCoverage) :
    (lines.map .touched).foldlM read ⟨files, some (file, f)⟩ =
      some ⟨files, some (file, { f with lines := f.lines ++ lines })⟩ := by
  induction lines generalizing f with
  | nil => simp
  | cons line rest ih =>
    rw [List.map_cons, List.foldlM_cons, read, Option.bind_eq_bind, Option.bind_some, ih,
      List.append_assoc, List.singleton_append]

/-- The lines of a record add it to the ones that are closed. -/
theorem foldlM_read_traceLines (f : FileCoverage) :
    (f.traceLines file).foldlM read ⟨files, none⟩ = some ⟨files ++ [(file, f)], none⟩ := by
  simp [FileCoverage.traceLines, read, List.foldlM_append, foldlM_read_procedures,
    foldlM_read_lines]

end TraceReader

namespace Coverage

/-- The lines of the records of all files. -/
def traceLines (c : Coverage) : List TraceLine :=
  c.files.flatMap fun entry => entry.2.traceLines entry.1

/-- Reads a trace. -/
def ofTrace? (text : String) : Option Coverage := do
  let lines ← TraceLine.ofText? text.toList
  let reader ← lines.foldlM TraceReader.read {}
  if reader.current.isNone then some ⟨reader.files⟩ else none

/-- No name of a file or procedure breaks a line. -/
def HasOneLineNames (c : Coverage) : Prop :=
  ∀ entry ∈ c.files, '\n' ∉ entry.1.toList ∧ ∀ name ∈ entry.2.procedures, '\n' ∉ name.toList

instance (c : Coverage) : Decidable c.HasOneLineNames :=
  inferInstanceAs (Decidable (∀ entry ∈ c.files,
    '\n' ∉ entry.1.toList ∧ ∀ name ∈ entry.2.procedures, '\n' ∉ name.toList))

/-- The trace of a coverage consists of the lines of its files. -/
theorem toList_trace (c : Coverage) : c.trace.toList = TraceLine.text c.traceLines := by
  simp only [trace, traceLines, TraceLine.text, String.toList_join, List.flatMap_map,
    FileCoverage.toList_trace, List.flatMap_assoc]

/-- Reading the lines of all files gives the files, none of which is left open. -/
theorem foldlM_read_traceLines (c : Coverage) :
    c.traceLines.foldlM TraceReader.read {} = some ⟨c.files, none⟩ := by
  suffices h : ∀ earlier files : List (String × FileCoverage),
      (files.flatMap fun entry => entry.2.traceLines entry.1).foldlM TraceReader.read
        ⟨earlier, none⟩ = some ⟨earlier ++ files, none⟩ from h [] c.files
  -- Between two records none is open, and the earlier ones are closed.
  intro earlier files
  induction files generalizing earlier with
  | nil => simp
  | cons entry rest ih =>
    rw [List.flatMap_cons, List.foldlM_append, TraceReader.foldlM_read_traceLines,
      Option.bind_eq_bind, Option.bind_some, ih, List.append_assoc, List.singleton_append]

/-- Names on one line make lines of a trace. -/
theorem HasOneLineNames.lineBreak_notMem {c : Coverage} (h : c.HasOneLineNames) :
    ∀ line ∈ c.traceLines, '\n' ∉ line.chars := by
  intro line hline
  obtain ⟨entry, hentry, hline⟩ := List.mem_flatMap.mp hline
  obtain ⟨hfile, hprocedures⟩ := h entry hentry
  refine TraceLine.lineBreak_notMem_chars ?_
  rintro name (rfl | rfl)
  · obtain rfl : name = entry.1 := by simpa [FileCoverage.traceLines] using hline
    exact hfile
  · exact hprocedures name (by simpa [FileCoverage.traceLines] using hline)

/-- A coverage is read back from its trace. -/
theorem ofTrace?_trace {c : Coverage} (h : c.HasOneLineNames) : ofTrace? c.trace = some c := by
  have hlines : TraceLine.ofText? c.trace.toList = some c.traceLines := by
    rw [toList_trace, TraceLine.ofText?_text h.lineBreak_notMem]
  rw [ofTrace?, hlines, Option.bind_eq_bind, Option.bind_some, foldlM_read_traceLines]
  rfl

/-- A file and procedures whose names look like lines of the trace. -/
def lookalikes : Coverage :=
  ⟨[("DA:1,1", ⟨[], ["DA:1,1", "a,b", "end_of_record"]⟩), ("end_of_record", {})]⟩

/-- The same with a line that is touched instead of the procedure with that name. -/
def lookalikesTouched : Coverage :=
  ⟨[("DA:1,1", ⟨[1], ["a,b", "end_of_record"]⟩), ("end_of_record", {})]⟩

/-- If no name breaks a line, the trace can be read back, record by record, into the coverage that
it was written from. So different coverages have different traces. -/
theorem ofTrace?_trace_and_eq_of_trace_eq {c : Coverage} (h : c.HasOneLineNames) :
    ofTrace? c.trace = some c ∧
      ∀ c' : Coverage, c'.HasOneLineNames → c.trace = c'.trace → c = c' := by
  refine ⟨ofTrace?_trace h, fun c' h' htrace => ?_⟩
  have hread : some c = some c' := by rw [← ofTrace?_trace h, htrace, ofTrace?_trace h']
  exact Option.some.inj hread

/-- Names that look like lines of a trace are told from them. -/
theorem ofTrace?_trace_and_eq_of_trace_eq_lookalikes :
    lookalikes.HasOneLineNames ∧ lookalikesTouched.HasOneLineNames ∧
      ofTrace? lookalikes.trace = some lookalikes ∧
      lookalikes.trace ≠ lookalikesTouched.trace := by
  have hnames : lookalikes.HasOneLineNames := by decide +kernel
  have hnames' : lookalikesTouched.HasOneLineNames := by decide +kernel
  obtain ⟨hread, hinjective⟩ := ofTrace?_trace_and_eq_of_trace_eq hnames
  exact ⟨hnames, hnames', hread, fun htrace => absurd (hinjective _ hnames' htrace) (by decide)⟩

-- A name that breaks a line can close a record and open another one.
example :
    (⟨[("a\nend_of_record\nSF:b", {})]⟩ : Coverage).trace =
      (⟨[("a", {}), ("b", {})]⟩ : Coverage).trace := by
  decide +kernel

end Coverage

end TaintTrail
