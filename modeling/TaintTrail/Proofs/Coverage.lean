import TaintTrail.Coverage
import TaintTrail.Proofs.Sorted

/-!
# What a coverage holds

A coverage is determined by the lines and the procedures that it holds for each file. Recording
something adds it and takes nothing away. A line report holds what its two maps do, and merging them
loses nothing.
-/

namespace TaintTrail

/-- What a coverage can hold. -/
inductive CoverageItem where
  /-- A line of a file. -/
  | line (file : String) (line : Nat)
  /-- A procedure, by its name, under a file. -/
  | procedure (file name : String)
  deriving DecidableEq, Repr

/-- The coverage of a file holds an item. -/
def FileCoverage.Holds (file : String) (c : FileCoverage) : CoverageItem → Prop
  | .line file' line => file' = file ∧ line ∈ c.lines
  | .procedure file' name => file' = file ∧ name ∈ c.procedures

instance (file : String) (c : FileCoverage) (item : CoverageItem) : Decidable (c.Holds file item) :=
  match item with
  | .line .. => inferInstanceAs (Decidable (_ ∧ _))
  | .procedure .. => inferInstanceAs (Decidable (_ ∧ _))

instance : Membership CoverageItem Coverage :=
  ⟨fun c item => ∃ entry ∈ c.files, entry.2.Holds entry.1 item⟩

instance (c : Coverage) (item : CoverageItem) : Decidable (item ∈ c) :=
  inferInstanceAs (Decidable (∃ entry ∈ c.files, entry.2.Holds entry.1 item))

namespace FileCoverage

variable {file : String} {c : FileCoverage} {item : CoverageItem}

/-- Adding a line to a file adds that item. -/
theorem holds_addLine {line : Nat} :
    (c.addLine line).Holds file item ↔ c.Holds file item ∨ item = .line file line := by
  cases item with
  | line file' line' =>
    simp only [Holds, addLine, Sorted.mem_insert, CoverageItem.line.injEq]
    rw [and_or_left, or_comm]
  | procedure file' name => simp [Holds, addLine]

/-- Adding a procedure to a file adds that item. -/
theorem holds_addProcedure {name : String} :
    (c.addProcedure name).Holds file item ↔ c.Holds file item ∨ item = .procedure file name := by
  cases item with
  | line file' line => simp [Holds, addProcedure]
  | procedure file' name' =>
    simp only [Holds, addProcedure, Sorted.mem_insert, CoverageItem.procedure.injEq]
    rw [and_or_left, or_comm]

end FileCoverage

namespace Coverage

variable {c : Coverage} {item : CoverageItem}

/-- Nothing is in the empty coverage. -/
theorem notMem_empty : item ∉ ({} : Coverage) := by
  rintro ⟨entry, hentry, -⟩
  simp at hentry

/-- What a coverage holds after what is recorded for a file was changed, provided that the change
takes nothing away. -/
theorem mem_atFile_iff {file : String} {change : FileCoverage → FileCoverage} {new : Prop}
    (hchange : ∀ f : FileCoverage, (change f).Holds file item ↔ f.Holds file item ∨ new) :
    item ∈ c.atFile file change ↔ item ∈ c ∨ new := by
  refine Sorted.exists_mem_alter_iff (P := fun file f => FileCoverage.Holds file f item) ?_
    fun f => hchange f
  have hnone : ¬({} : FileCoverage).Holds file item := by
    cases item <;> simp [FileCoverage.Holds]
  exact (hchange {}).trans (or_iff_right hnone)

/-- Adding the sets of a map adds their elements, each to its file. -/
theorem mem_addSets {α : Type} {add : FileCoverage → α → FileCoverage}
    {toItem : String → α → CoverageItem}
    (hadd : ∀ (f : FileCoverage) (file : String) (a : α),
      (add f a).Holds file item ↔ f.Holds file item ∨ item = toItem file a)
    {map : List (String × List α)} :
    item ∈ c.addSets add map ↔
      item ∈ c ∨ item ∈ (Sorted.pairs map).map fun pair => toItem pair.1 pair.2 := by
  -- First one set for one file, then one file after the other.
  have hset (file : String) (set : List α) (f : FileCoverage) :
      (set.foldl add f).Holds file item ↔ f.Holds file item ∨ item ∈ set.map (toItem file) := by
    induction set generalizing f with
    | nil => simp
    | cons a rest ih => rw [List.foldl_cons, ih, hadd, List.map_cons, List.mem_cons, or_assoc]
  induction map generalizing c with
  | nil => simp [addSets, Sorted.pairs]
  | cons entry rest ih =>
    rw [Sorted.pairs_cons, List.map_append, List.mem_append, List.map_map, ← or_assoc]
    exact ih.trans (or_congr_left (mem_atFile_iff (hset entry.1 entry.2)))

end Coverage

namespace LineReport

variable {r : LineReport} {item : CoverageItem}

/-- What the two maps of a line report hold. -/
def items (r : LineReport) : List CoverageItem :=
  (Sorted.pairs r.lines).map (fun pair => .line pair.1 pair.2) ++
    (Sorted.pairs r.procedures).map fun pair => .procedure pair.1 pair.2

/-- Merging the two maps loses nothing. -/
theorem mem_snapshot : item ∈ r.snapshot ↔ item ∈ r.items := by
  have hlines : item ∈ ({} : Coverage).addSets .addLine r.lines ↔
      item ∈ ({} : Coverage) ∨ item ∈ (Sorted.pairs r.lines).map fun pair => .line pair.1 pair.2 :=
    Coverage.mem_addSets fun f file line => @FileCoverage.holds_addLine file f item line
  have hprocedures (c : Coverage) : item ∈ c.addSets .addProcedure r.procedures ↔
      item ∈ c ∨ item ∈ (Sorted.pairs r.procedures).map fun pair => .procedure pair.1 pair.2 :=
    Coverage.mem_addSets fun f file name => @FileCoverage.holds_addProcedure file f item name
  rw [snapshot, Coverage.merge, hprocedures, hlines, or_iff_right Coverage.notMem_empty, items,
    List.mem_append]

/-- Recording a procedure adds it. -/
theorem mem_items_recordProcedure {file name : String} :
    item ∈ (r.recordProcedure file name).items ↔ item ∈ r.items ∨ item = .procedure file name := by
  simp only [items, recordProcedure, List.mem_append, List.mem_map, Sorted.mem_pairs_insertAt,
    or_and_right, exists_or, exists_eq_left, or_assoc, eq_comm]

/-- Writing a line adds it. -/
theorem mem_items_insertAt_lines {file : String} {line : Nat} :
    item ∈ LineReport.items { r with lines := Sorted.insertAt file line r.lines } ↔
      item ∈ r.items ∨ item = .line file line := by
  simp only [items, List.mem_append, List.mem_map, Sorted.mem_pairs_insertAt, or_and_right,
    exists_or, exists_eq_left, eq_comm]
  exact or_right_comm

/-- Recording a procedure adds it to the snapshot. -/
theorem mem_snapshot_recordProcedure {file name : String} :
    item ∈ (r.recordProcedure file name).snapshot ↔
      item ∈ r.snapshot ∨ item = .procedure file name := by
  rw [mem_snapshot, mem_snapshot, mem_items_recordProcedure]

/-- Recording a line in a procedure adds both to the snapshot. -/
theorem mem_snapshot_recordLine {name : String} {place : SourceLine} :
    item ∈ (r.recordLine name place).snapshot ↔
      item ∈ r.snapshot ∨ item = .line place.file place.line ∨
        item = .procedure place.file name := by
  rw [recordLine, mem_snapshot_recordProcedure, mem_snapshot, mem_items_insertAt_lines,
    mem_snapshot, or_assoc]

end LineReport

end TaintTrail
