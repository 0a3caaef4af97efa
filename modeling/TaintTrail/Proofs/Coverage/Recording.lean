import TaintTrail.Proofs.Coverage

/-!
# Recording a coverage

A coverage is recorded by calls, each of which writes one or two items. Lines and procedures are
written to two maps, which are merged for a snapshot. Whatever order the items are written in and
however often, and whatever order the entries of the maps are merged in, the snapshot is the same:
its files, lines and procedures are in order and hold what was recorded and nothing else. So calls
may be repeated, reordered and made by several callers at once, whose writes then come in any order
that keeps that of each caller.
-/

namespace TaintTrail

/-- The file that an item belongs to. -/
def CoverageItem.file : CoverageItem → String
  | .line file _ => file
  | .procedure file _ => file

/-- A call that records something. -/
inductive CoverageRecord where
  /-- Taint touches a line in a procedure. -/
  | line (name : String) (place : SourceLine)
  /-- Taint enters a procedure of a file. -/
  | procedure (file name : String)
  deriving DecidableEq, Repr

namespace CoverageRecord

/-- The file that a call mentions. -/
def file : CoverageRecord → String
  | .line _ place => place.file
  | .procedure file _ => file

/-- What a call writes, in order. -/
def items : CoverageRecord → List CoverageItem
  | .line name place => [.line place.file place.line, .procedure place.file name]
  | .procedure file name => [.procedure file name]

variable {r : CoverageRecord} {file : String}

/-- A call writes items of the file it mentions and of no other. -/
theorem exists_mem_items_iff : (∃ item ∈ r.items, item.file = file) ↔ r.file = file := by
  cases r <;> simp [items, CoverageItem.file, CoverageRecord.file]

/-- A line is written by the calls that touch it. -/
theorem line_mem_items_iff {line : Nat} :
    .line file line ∈ r.items ↔ ∃ name, r = .line name ⟨file, line⟩ := by
  cases r with
  | line name place =>
    obtain ⟨file', line'⟩ := place
    simp [items, eq_comm]
  | procedure file' name => simp [items]

/-- A procedure is written by the calls that enter it and by those that touch a line of it. -/
theorem procedure_mem_items_iff {name : String} :
    .procedure file name ∈ r.items ↔
      r = .procedure file name ∨ ∃ line, r = .line name ⟨file, line⟩ := by
  cases r with
  | line name' place =>
    obtain ⟨file', line'⟩ := place
    simp [items, eq_comm, and_comm]
  | procedure file' name' => simp [items, eq_comm]

end CoverageRecord

/-- The entry of a file holds only items of that file. -/
theorem FileCoverage.Holds.file_eq {file : String} {f : FileCoverage} {item : CoverageItem}
    (h : f.Holds file item) : item.file = file := by
  cases item <;> exact h.1

/-- The entry of a file holds the lines of its first set. -/
theorem FileCoverage.holds_line_iff {file : String} {f : FileCoverage} {line : Nat} :
    f.Holds file (.line file line) ↔ line ∈ f.lines :=
  and_iff_right rfl

/-- The entry of a file holds the procedures of its second set. -/
theorem FileCoverage.holds_procedure_iff {file name : String} {f : FileCoverage} :
    f.Holds file (.procedure file name) ↔ name ∈ f.procedures :=
  and_iff_right rfl

namespace Coverage

/-- Writes an item. -/
def add (c : Coverage) : CoverageItem → Coverage
  | .line file line => c.atFile file (·.addLine line)
  | .procedure file name => c.atFile file (·.addProcedure name)

/-- The coverage after writes. -/
def written (writes : List CoverageItem) : Coverage := writes.foldl add {}

/-- Records in one map that taint enters a procedure of a file. -/
def recordProcedure (c : Coverage) (file name : String) : Coverage :=
  c.atFile file (·.addProcedure name)

/-- Records in one map that taint touches a line in a procedure. -/
def recordLine (c : Coverage) (name : String) (place : SourceLine) : Coverage :=
  c.atFile place.file fun f => (f.addLine place.line).addProcedure name

/-- Makes a call. -/
def record (c : Coverage) : CoverageRecord → Coverage
  | .line name place => c.recordLine name place
  | .procedure file name => c.recordProcedure file name

/-- The coverage after calls. -/
def recorded (records : List CoverageRecord) : Coverage := records.foldl record {}

/-! ## Writes -/

variable {c : Coverage} {item new : CoverageItem} {writes : List CoverageItem}

/-- A write adds its item and nothing else. -/
theorem mem_add : item ∈ c.add new ↔ item ∈ c ∨ item = new := by
  cases new with
  | line file line => exact mem_atFile_iff fun _ => FileCoverage.holds_addLine
  | procedure file name => exact mem_atFile_iff fun _ => FileCoverage.holds_addProcedure

/-- The coverage after writes holds what was written. -/
theorem mem_written : item ∈ written writes ↔ item ∈ writes := by
  suffices h : ∀ c : Coverage, item ∈ writes.foldl add c ↔ item ∈ c ∨ item ∈ writes by
    rw [written, h, or_iff_right notMem_empty]
  induction writes with
  | nil => simp
  | cons first rest ih =>
    intro c
    rw [List.foldl_cons, ih, mem_add, List.mem_cons, or_assoc]

/-- Files, lines and procedures are in order, and every file has something in it. -/
structure IsKept (c : Coverage) : Prop where
  files : Sorted.IsOrdered c.files
  lines : ∀ entry ∈ c.files, Sorted.IsIncreasing entry.2.lines
  procedures : ∀ entry ∈ c.files, Sorted.IsIncreasing entry.2.procedures
  inhabited : ∀ entry ∈ c.files, ∃ item, entry.2.Holds entry.1 item

/-- Nothing recorded is in order. -/
theorem isKept_empty : ({} : Coverage).IsKept where
  files := List.Pairwise.nil
  lines entry hentry := by cases hentry
  procedures entry hentry := by cases hentry
  inhabited entry hentry := by cases hentry

/-- What holds of the changed coverage of a file holds of each file. -/
theorem forall_mem_atFile {file : String} {change : FileCoverage → FileCoverage}
    {P : String × FileCoverage → Prop} (hold : ∀ entry ∈ c.files, P entry)
    (hnew : P (file, change {})) (hchange : ∀ f, (file, f) ∈ c.files → P (file, change f)) :
    ∀ entry ∈ (c.atFile file change).files, P entry := by
  intro entry hentry
  obtain hentry | rfl | ⟨f, hf, rfl⟩ := Sorted.mem_alter_cases hentry
  · exact hold entry hentry
  · exact hnew
  · exact hchange f hf

/-- A write keeps what is recorded in order. -/
theorem IsKept.add (h : c.IsKept) (new : CoverageItem) : (c.add new).IsKept := by
  cases new with
  | line file line =>
    have hholds (f : FileCoverage) : (f.addLine line).Holds file (.line file line) :=
      FileCoverage.holds_addLine.mpr (.inr rfl)
    exact {
      files := Sorted.isOrdered_alter h.files
      lines := forall_mem_atFile h.lines (Sorted.isIncreasing_insert .nil) fun f hf =>
        Sorted.isIncreasing_insert (h.lines (file, f) hf)
      procedures := forall_mem_atFile h.procedures .nil fun f hf => h.procedures (file, f) hf
      inhabited := forall_mem_atFile h.inhabited ⟨_, hholds _⟩ fun f _ => ⟨_, hholds f⟩ }
  | procedure file name =>
    have hholds (f : FileCoverage) : (f.addProcedure name).Holds file (.procedure file name) :=
      FileCoverage.holds_addProcedure.mpr (.inr rfl)
    exact {
      files := Sorted.isOrdered_alter h.files
      lines := forall_mem_atFile h.lines .nil fun f hf => h.lines (file, f) hf
      procedures := forall_mem_atFile h.procedures (Sorted.isIncreasing_insert .nil) fun f hf =>
        Sorted.isIncreasing_insert (h.procedures (file, f) hf)
      inhabited := forall_mem_atFile h.inhabited ⟨_, hholds _⟩ fun f _ => ⟨_, hholds f⟩ }

/-- After any writes, what is recorded is in order. -/
theorem isKept_written (writes : List CoverageItem) : (written writes).IsKept :=
  List.foldlRecOn writes _ isKept_empty fun _ hc new _ => hc.add new

/-- A coverage holds an item if it does so for the file of the item. -/
theorem IsKept.mem_iff_holds (h : c.IsKept) {file : String} {f : FileCoverage}
    (hf : (file, f) ∈ c.files) (hfile : item.file = file) : item ∈ c ↔ f.Holds file item := by
  constructor
  · rintro ⟨⟨file', f'⟩, hf', hholds⟩
    obtain rfl : file' = file := hholds.file_eq.symm.trans hfile
    obtain rfl := h.files.eq_of_mem hf hf'
    exact hholds
  · exact fun hholds => ⟨(file, f), hf, hholds⟩

/-- The files of a coverage are those of its items. -/
theorem IsKept.exists_file_iff (h : c.IsKept) {file : String} :
    (∃ f, (file, f) ∈ c.files) ↔ ∃ item ∈ c, item.file = file := by
  constructor
  · rintro ⟨f, hf⟩
    obtain ⟨item, hholds⟩ := h.inhabited _ hf
    exact ⟨item, ⟨(file, f), hf, hholds⟩, hholds.file_eq⟩
  · rintro ⟨item, ⟨⟨file', f⟩, hf, hholds⟩, rfl⟩
    obtain rfl := hholds.file_eq
    exact ⟨f, hf⟩

/-! ## Calls -/

/-- A call makes its writes in order. -/
theorem record_eq_foldl (c : Coverage) (r : CoverageRecord) : c.record r = r.items.foldl add c := by
  cases r with
  | line name place =>
    simp only [record, recordLine, CoverageRecord.items, List.foldl_cons, List.foldl_nil, add,
      atFile, Sorted.alter_alter, Option.getD_some]
  | procedure file name => rfl

/-- Calls do what their writes do one after the other. -/
theorem recorded_eq_written (records : List CoverageRecord) :
    recorded records = written (records.flatMap CoverageRecord.items) := by
  rw [recorded, written, List.foldl_flatMap]
  exact congrArg (fun f => records.foldl f {}) (funext fun c => funext (record_eq_foldl c))

/-- The coverage has an entry for the files that calls mention. The entry of a file is the set of
the lines that calls touch in it and the set of the procedures that calls touch or enter in it. -/
structure IsSnapshotOf (c : Coverage) (records : List CoverageRecord) : Prop where
  ordered : Sorted.IsOrdered c.files
  mentioned : ∀ file, (∃ f, (file, f) ∈ c.files) ↔ ∃ r ∈ records, r.file = file
  linesIncrease : ∀ entry ∈ c.files, Sorted.IsIncreasing entry.2.lines
  lines : ∀ entry ∈ c.files, ∀ line,
    line ∈ entry.2.lines ↔ ∃ name, .line name ⟨entry.1, line⟩ ∈ records
  proceduresIncrease : ∀ entry ∈ c.files, Sorted.IsIncreasing entry.2.procedures
  procedures : ∀ entry ∈ c.files, ∀ name,
    name ∈ entry.2.procedures ↔
      .procedure entry.1 name ∈ records ∨ ∃ line, .line name ⟨entry.1, line⟩ ∈ records

variable {c' : Coverage} {records records' : List CoverageRecord}

/-- The entries of a snapshot are determined by which calls were made: a snapshot of the same calls
has them all. -/
theorem IsSnapshotOf.files_subset (h : c.IsSnapshotOf records) (h' : c'.IsSnapshotOf records')
    (hsame : ∀ r, r ∈ records ↔ r ∈ records') : c.files ⊆ c'.files := by
  rintro ⟨file, f⟩ hf
  obtain ⟨f', hf'⟩ : ∃ f', (file, f') ∈ c'.files := by
    obtain ⟨r, hr, hfile⟩ := (h.mentioned file).mp ⟨f, hf⟩
    exact (h'.mentioned file).mpr ⟨r, (hsame r).mp hr, hfile⟩
  have hlines : f.lines = f'.lines := by
    refine Sorted.eq_of_pairwise_of_mem_iff id (h.linesIncrease _ hf) (h'.linesIncrease _ hf') ?_
    intro line
    simp only [h.lines _ hf, h'.lines _ hf', hsame]
  have hprocedures : f.procedures = f'.procedures := by
    refine Sorted.eq_of_pairwise_of_mem_iff id (h.proceduresIncrease _ hf)
      (h'.proceduresIncrease _ hf') ?_
    intro name
    simp only [h.procedures _ hf, h'.procedures _ hf', hsame]
  cases f
  cases f'
  cases hlines
  cases hprocedures
  exact hf'

/-- There is only one such coverage, and it depends on nothing but which calls are made. -/
theorem IsSnapshotOf.eq (h : c.IsSnapshotOf records) (h' : c'.IsSnapshotOf records')
    (hsame : ∀ r, r ∈ records ↔ r ∈ records') : c = c' := by
  have hfiles : c.files = c'.files :=
    Sorted.eq_of_pairwise_of_mem_iff Prod.fst h.ordered h'.ordered fun entry =>
      ⟨fun hentry => h.files_subset h' hsame hentry,
        fun hentry => h'.files_subset h (fun r => (hsame r).symm) hentry⟩
  cases c
  cases c'
  exact congrArg Coverage.mk hfiles

/-- Writes in any order give the coverage for the calls that make them. -/
theorem isSnapshotOf_written (h : ∀ item, item ∈ writes ↔ ∃ r ∈ records, item ∈ r.items) :
    (written writes).IsSnapshotOf records := by
  have hkept := isKept_written writes
  have hmem (item : CoverageItem) : item ∈ written writes ↔ ∃ r ∈ records, item ∈ r.items :=
    mem_written.trans (h item)
  refine ⟨hkept.files, fun file => ?_, hkept.lines, fun entry hentry line => ?_, hkept.procedures,
    fun entry hentry name => ?_⟩
  · calc (∃ f, (file, f) ∈ (written writes).files)
        ↔ ∃ item, (∃ r ∈ records, item ∈ r.items) ∧ item.file = file := by
          simp only [hkept.exists_file_iff, hmem]
      _ ↔ ∃ r ∈ records, ∃ item ∈ r.items, item.file = file := by
          constructor
          · rintro ⟨item, ⟨r, hr, hitem⟩, hfile⟩
            exact ⟨r, hr, item, hitem, hfile⟩
          · rintro ⟨r, hr, item, hitem, hfile⟩
            exact ⟨item, ⟨r, hr, hitem⟩, hfile⟩
      _ ↔ ∃ r ∈ records, r.file = file := by simp only [CoverageRecord.exists_mem_items_iff]
  · rw [← FileCoverage.holds_line_iff, ← hkept.mem_iff_holds hentry rfl, hmem]
    simp only [CoverageRecord.line_mem_items_iff]
    constructor
    · rintro ⟨r, hr, name, rfl⟩
      exact ⟨name, hr⟩
    · rintro ⟨name, hr⟩
      exact ⟨_, hr, name, rfl⟩
  · rw [← FileCoverage.holds_procedure_iff, ← hkept.mem_iff_holds hentry rfl, hmem]
    simp only [CoverageRecord.procedure_mem_items_iff]
    constructor
    · rintro ⟨r, hr, rfl | ⟨line, rfl⟩⟩
      · exact .inl hr
      · exact .inr ⟨line, hr⟩
    · rintro (hr | ⟨line, hr⟩)
      · exact ⟨_, hr, .inl rfl⟩
      · exact ⟨_, hr, .inr ⟨line, rfl⟩⟩

/-- What calls have recorded is a snapshot of them. -/
theorem isSnapshotOf_recorded (records : List CoverageRecord) :
    (recorded records).IsSnapshotOf records := by
  rw [recorded_eq_written]
  exact isSnapshotOf_written fun item => List.mem_flatMap

/-- Later calls take nothing away. -/
theorem exists_file_recorded_append (later : List CoverageRecord) {entry : String × FileCoverage}
    (hentry : entry ∈ (recorded records).files) :
    ∃ f, (entry.1, f) ∈ (recorded (records ++ later)).files ∧ entry.2.lines ⊆ f.lines ∧
      entry.2.procedures ⊆ f.procedures := by
  have hearlier := isSnapshotOf_recorded records
  have hlater := isSnapshotOf_recorded (records ++ later)
  have hkept {r : CoverageRecord} (hr : r ∈ records) : r ∈ records ++ later :=
    List.mem_append_left later hr
  obtain ⟨r, hr, hfile⟩ := (hearlier.mentioned entry.1).mp ⟨entry.2, hentry⟩
  obtain ⟨f, hf⟩ := (hlater.mentioned entry.1).mpr ⟨r, hkept hr, hfile⟩
  refine ⟨f, hf, fun line hline => ?_, fun name hname => ?_⟩
  · obtain ⟨name, hr⟩ := (hearlier.lines entry hentry line).mp hline
    exact (hlater.lines _ hf line).mpr ⟨name, hkept hr⟩
  · obtain hr | ⟨line, hr⟩ := (hearlier.procedures entry hentry name).mp hname
    · exact (hlater.procedures _ hf name).mpr (.inl (hkept hr))
    · exact (hlater.procedures _ hf name).mpr (.inr ⟨line, hkept hr⟩)

end Coverage

/-! ## Several callers -/

/-- A list takes the elements of several lists and keeps the order of each of them. -/
inductive Interleaves {α : Type} : List (List α) → List α → Prop
  | done {parts : List (List α)} : (∀ part ∈ parts, part = []) → Interleaves parts []
  | take {before after : List (List α)} {a : α} {rest whole : List α} :
      Interleaves (before ++ rest :: after) whole →
      Interleaves (before ++ (a :: rest) :: after) (a :: whole)

/-- What is interleaved has the elements of its parts. -/
theorem Interleaves.mem_iff {α : Type} {parts : List (List α)} {whole : List α} {a : α}
    (h : Interleaves parts whole) : a ∈ whole ↔ ∃ part ∈ parts, a ∈ part := by
  induction h with
  | done hempty =>
    refine iff_of_false List.not_mem_nil ?_
    rintro ⟨part, hpart, ha⟩
    rw [hempty part hpart] at ha
    cases ha
  | @take before after first rest whole _ ih =>
    simp only [List.mem_cons, ih, List.mem_append, or_and_right, exists_or, exists_eq_left]
    exact or_left_comm.trans (or_congr_right (or_assoc.symm))

/-! ## Two maps -/

namespace Coverage

/-- Two changes of what is recorded for a file are one. -/
theorem atFile_atFile (c : Coverage) (file : String)
    (change change' : FileCoverage → FileCoverage) :
    (c.atFile file change).atFile file change' = c.atFile file fun f => change' (change f) := by
  simp only [atFile, Sorted.alter_alter, Option.getD_some]

variable {α : Type} {addTo : FileCoverage → α → FileCoverage} (toItem : String → α → CoverageItem)

/-- Adding the elements of a set to a file, after a change, writes them one after the other. -/
theorem atFile_foldl
    (hadd : ∀ (c : Coverage) (file : String) (a : α),
      c.add (toItem file a) = c.atFile file fun f => addTo f a)
    (set : List α) (c : Coverage) (file : String) (change : FileCoverage → FileCoverage) :
    c.atFile file (fun f => set.foldl addTo (change f)) =
      (set.map (toItem file)).foldl add (c.atFile file change) := by
  induction set generalizing change with
  | nil => rfl
  | cons a rest ih =>
    rw [List.map_cons, List.foldl_cons, hadd, atFile_atFile, ← ih]
    rfl

/-- Adding the sets of a map writes their elements, provided that no set is empty: an empty one
would still leave its file. -/
theorem addSets_eq_foldl
    (hadd : ∀ (c : Coverage) (file : String) (a : α),
      c.add (toItem file a) = c.atFile file fun f => addTo f a)
    {map : List (String × List α)} (hmap : ∀ entry ∈ map, entry.2 ≠ []) (c : Coverage) :
    c.addSets addTo map =
      ((Sorted.pairs map).map fun pair => toItem pair.1 pair.2).foldl add c := by
  induction map generalizing c with
  | nil => rfl
  | cons entry rest ih =>
    obtain ⟨file, set⟩ := entry
    obtain ⟨hset, hrest⟩ := List.forall_mem_cons.mp hmap
    obtain ⟨a, others, rfl⟩ := List.exists_cons_of_ne_nil hset
    have hfile : c.atFile file (fun f => (a :: others).foldl addTo f) =
        ((a :: others).map (toItem file)).foldl add c := by
      rw [List.map_cons, List.foldl_cons, hadd]
      exact atFile_foldl toItem hadd others c file fun f => addTo f a
    rw [Sorted.pairs_cons, List.map_append, List.foldl_append, List.map_map]
    exact (ih hrest _).trans (congrArg (List.foldl add · _) hfile)

end Coverage

namespace LineReport

/-- Writes an item to its map. -/
def add (r : LineReport) : CoverageItem → LineReport
  | .line file line => { r with lines := Sorted.insertAt file line r.lines }
  | .procedure file name => r.recordProcedure file name

/-- The line report after writes. -/
def written (writes : List CoverageItem) : LineReport := writes.foldl add {}

/-- Makes a call. -/
def record (r : LineReport) : CoverageRecord → LineReport
  | .line name place => r.recordLine name place
  | .procedure file name => r.recordProcedure file name

/-- The line report after calls. -/
def recorded (records : List CoverageRecord) : LineReport := records.foldl record {}

/-- No file has an empty set in one of the maps. -/
structure IsInhabited (r : LineReport) : Prop where
  lines : ∀ entry ∈ r.lines, entry.2 ≠ []
  procedures : ∀ entry ∈ r.procedures, entry.2 ≠ []

variable {r : LineReport} {item new : CoverageItem} {writes : List CoverageItem}
  {records : List CoverageRecord}

/-- A call makes its writes in order, the first of them to one map and the second to the other. -/
theorem recorded_eq_written (records : List CoverageRecord) :
    recorded records = written (records.flatMap CoverageRecord.items) := by
  have hrecord (r : LineReport) (call : CoverageRecord) :
      r.record call = call.items.foldl add r := by
    cases call <;> rfl
  rw [recorded, written, List.foldl_flatMap]
  exact congrArg (fun f => records.foldl f {}) (funext fun r => funext (hrecord r))

/-- Writing an item adds it to its map. -/
theorem mem_items_add : item ∈ (r.add new).items ↔ item ∈ r.items ∨ item = new := by
  cases new with
  | line file line => exact mem_items_insertAt_lines
  | procedure file name => exact mem_items_recordProcedure

/-- The maps hold what was written. -/
theorem mem_items_written : item ∈ (written writes).items ↔ item ∈ writes := by
  suffices h : ∀ r : LineReport,
      item ∈ (writes.foldl add r).items ↔ item ∈ r.items ∨ item ∈ writes by
    exact (h {}).trans (or_iff_right List.not_mem_nil)
  induction writes with
  | nil => simp
  | cons first rest ih =>
    intro r
    rw [List.foldl_cons, ih, mem_items_add, List.mem_cons, or_assoc]

/-- Writing an item leaves no empty set. -/
theorem IsInhabited.add (h : r.IsInhabited) (new : CoverageItem) : (r.add new).IsInhabited := by
  cases new with
  | line file line => exact ⟨Sorted.ne_nil_of_mem_insertAt h.lines, h.procedures⟩
  | procedure file name => exact ⟨h.lines, Sorted.ne_nil_of_mem_insertAt h.procedures⟩

/-- After writes no set is empty. -/
theorem isInhabited_written (writes : List CoverageItem) : (written writes).IsInhabited :=
  List.foldlRecOn writes _ ⟨by simp, by simp⟩ fun _ hr new _ => hr.add new

/-- A snapshot writes what the maps hold, all lines before all procedures. -/
theorem IsInhabited.snapshot_eq (h : r.IsInhabited) :
    r.snapshot = Coverage.written r.items := by
  have hlines := Coverage.addSets_eq_foldl CoverageItem.line (fun _ _ _ => rfl) h.lines
  have hprocedures :=
    Coverage.addSets_eq_foldl CoverageItem.procedure (fun _ _ _ => rfl) h.procedures
  rw [snapshot, Coverage.merge, hlines, hprocedures, Coverage.written, items, List.foldl_append]

/-- Whatever order the entries of the maps are merged in, the snapshot is that of the calls that
made the writes. -/
theorem isSnapshotOf_merge (h : ∀ item, item ∈ writes ↔ ∃ r ∈ records, item ∈ r.items)
    {lines : List (String × List Nat)} {procedures : List (String × List String)}
    (hlines : lines.Perm (written writes).lines)
    (hprocedures : procedures.Perm (written writes).procedures) :
    (Coverage.merge lines procedures).IsSnapshotOf records := by
  have hwritten := isInhabited_written writes
  have hinhabited : IsInhabited ⟨lines, procedures⟩ :=
    ⟨fun entry hentry => hwritten.lines entry (hlines.mem_iff.mp hentry),
      fun entry hentry => hwritten.procedures entry (hprocedures.mem_iff.mp hentry)⟩
  have hitems (item : CoverageItem) : item ∈ items ⟨lines, procedures⟩ ↔
      item ∈ (written writes).items :=
    (((hlines.flatMap_right _).map _).append ((hprocedures.flatMap_right _).map _)).mem_iff
  change (snapshot ⟨lines, procedures⟩).IsSnapshotOf records
  rw [hinhabited.snapshot_eq]
  refine Coverage.isSnapshotOf_written fun item => ?_
  rw [hitems, mem_items_written, h]

/-- The snapshot after calls is that of the calls. -/
theorem isSnapshotOf_snapshot (records : List CoverageRecord) :
    (recorded records).snapshot.IsSnapshotOf records := by
  rw [recorded_eq_written]
  exact isSnapshotOf_merge (fun item => List.mem_flatMap) (.refl _) (.refl _)

/-- Merging the maps after calls gives the coverage that one merged map would have recorded. -/
theorem snapshot_recorded (records : List CoverageRecord) :
    (recorded records).snapshot = Coverage.recorded records :=
  (isSnapshotOf_snapshot records).eq (Coverage.isSnapshotOf_recorded records) fun _ => Iff.rfl

/-- Writes of several callers, in any order that keeps that of each, are the writes of their
calls. -/
theorem mem_writes_iff {callers : List (List CoverageRecord)}
    (hcalls : ∀ r, (∃ caller ∈ callers, r ∈ caller) ↔ r ∈ records)
    (hwrites : Interleaves (callers.map (·.flatMap CoverageRecord.items)) writes) :
    item ∈ writes ↔ ∃ r ∈ records, item ∈ r.items := by
  rw [hwrites.mem_iff]
  simp only [← hcalls, List.mem_map]
  constructor
  · rintro ⟨_, ⟨caller, hcaller, rfl⟩, hitem⟩
    obtain ⟨r, hr, hitem⟩ := List.mem_flatMap.mp hitem
    exact ⟨r, ⟨caller, hcaller, hr⟩, hitem⟩
  · rintro ⟨r, ⟨caller, hcaller, hr⟩, hitem⟩
    exact ⟨_, ⟨caller, hcaller, rfl⟩, List.mem_flatMap.mpr ⟨r, hr, hitem⟩⟩

/-- Two callers, with one call each. -/
def twoCallers : List (List CoverageRecord) :=
  [[.line "main" ⟨"b.c", 9⟩], [.procedure "a.c" "helper"]]

/-- An order of the writes of the two callers. -/
def twoCallersWrites : List CoverageItem :=
  [.line "b.c" 9, .procedure "a.c" "helper", .procedure "b.c" "main"]

/-- The snapshot after calls is the coverage that has an entry for the files that the calls mention,
with the sets of the lines and procedures that they record there, as if it had been recorded in one
map. So the same calls in another order, or repeated, give the same snapshot, trace, list of lines
and JSON text. So do several callers that make these calls, whatever writes of others come between
the two writes of a call, and whatever order the entries of the two maps are merged in. Later calls
take nothing away, and neither do later writes. -/
theorem isSnapshotOf_iff_eq_snapshot (records : List CoverageRecord) :
    (∀ c : Coverage, c.IsSnapshotOf records ↔ c = (recorded records).snapshot) ∧
      (recorded records).snapshot = Coverage.recorded records ∧
      (∀ records' : List CoverageRecord, (∀ r, r ∈ records' ↔ r ∈ records) →
        (recorded records').snapshot = (recorded records).snapshot ∧
          (recorded records').snapshot.trace = (recorded records).snapshot.trace ∧
          (recorded records').snapshot.lineList = (recorded records).snapshot.lineList ∧
          (recorded records').snapshot.write = (recorded records).snapshot.write) ∧
      (∀ (callers : List (List CoverageRecord)) (writes : List CoverageItem),
        (∀ r, (∃ caller ∈ callers, r ∈ caller) ↔ r ∈ records) →
        Interleaves (callers.map (·.flatMap CoverageRecord.items)) writes →
        ∀ lines procedures, lines.Perm (written writes).lines →
        procedures.Perm (written writes).procedures →
        Coverage.merge lines procedures = (recorded records).snapshot ∧
          (Coverage.merge lines procedures).trace = (recorded records).snapshot.trace ∧
          (Coverage.merge lines procedures).lineList = (recorded records).snapshot.lineList ∧
          (Coverage.merge lines procedures).write = (recorded records).snapshot.write) ∧
      (∀ later, ∀ entry ∈ (recorded records).snapshot.files,
        ∃ f, (entry.1, f) ∈ (recorded (records ++ later)).snapshot.files ∧
          entry.2.lines ⊆ f.lines ∧ entry.2.procedures ⊆ f.procedures) ∧
      ∀ writes later, ∀ item ∈ (written writes).snapshot,
        item ∈ (written (writes ++ later)).snapshot := by
  have hsnapshot := isSnapshotOf_snapshot records
  refine ⟨fun c => ⟨fun h => h.eq hsnapshot fun r => Iff.rfl, ?_⟩, snapshot_recorded records,
    fun records' hsame => ?_, fun callers writes hcalls hwrites lines procedures hlines
    hprocedures => ?_, fun later entry hentry => ?_, fun writes later item hitem => ?_⟩
  · rintro rfl
    exact hsnapshot
  · rw [(isSnapshotOf_snapshot records').eq hsnapshot hsame]
    exact ⟨rfl, rfl, rfl, rfl⟩
  · have hmerged :=
      isSnapshotOf_merge (fun item => mem_writes_iff hcalls hwrites) hlines hprocedures
    rw [hmerged.eq hsnapshot fun r => Iff.rfl]
    exact ⟨rfl, rfl, rfl, rfl⟩
  · rw [snapshot_recorded] at hentry ⊢
    exact Coverage.exists_file_recorded_append later hentry
  · rw [mem_snapshot, mem_items_written] at hitem ⊢
    exact List.mem_append_left later hitem

/-- The first caller has written the line of its call when the second one makes its own. The file of
the second call is in one of the maps only, and merged last it still comes first. -/
theorem isSnapshotOf_iff_eq_snapshot_twoCallers :
    Interleaves (twoCallers.map (·.flatMap CoverageRecord.items)) twoCallersWrites ∧
      (written twoCallersWrites).lines = [("b.c", [9])] ∧
      (written twoCallersWrites).procedures = [("a.c", ["helper"]), ("b.c", ["main"])] ∧
      Coverage.merge [("b.c", [9])] [("b.c", ["main"]), ("a.c", ["helper"])] =
        (recorded twoCallers.flatten).snapshot ∧
      (recorded (twoCallers.flatten ++ twoCallers.reverse.flatten)).snapshot =
        (recorded twoCallers.flatten).snapshot ∧
      (recorded twoCallers.flatten).snapshot.files =
        [("a.c", ⟨[], ["helper"]⟩), ("b.c", ⟨[9], ["main"]⟩)] := by
  have hwrites :
      Interleaves (twoCallers.map (·.flatMap CoverageRecord.items)) twoCallersWrites := by
    refine @Interleaves.take _ [] _ _ _ _ ?_
    refine @Interleaves.take _ [_] [] _ _ _ ?_
    refine @Interleaves.take _ [] _ _ _ _ ?_
    exact .done (by simp)
  have hlines : (written twoCallersWrites).lines = [("b.c", [9])] := by decide +kernel
  have hprocedures : (written twoCallersWrites).procedures =
      [("a.c", ["helper"]), ("b.c", ["main"])] := by decide +kernel
  obtain ⟨-, -, hsame, hcallers, -⟩ := isSnapshotOf_iff_eq_snapshot twoCallers.flatten
  refine ⟨hwrites, hlines, hprocedures, ?_, (hsame _ fun r => ?_).1, by decide +kernel⟩
  · refine (hcallers twoCallers _ (by simp) hwrites _ _ ?_ ?_).1
    · rw [hlines]
    · rw [hprocedures]
      exact .swap _ _ _
  · simp

end LineReport

end TaintTrail
