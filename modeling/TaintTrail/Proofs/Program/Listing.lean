import Mathlib.Data.List.Flatten
import Mathlib.Data.List.Nodup
import TaintTrail.Proofs.Program.WellFormed

/-!
# How a program lists its instructions

A construction may reopen a procedure, change its signature, go back to an earlier block or leave a
block empty, so the blocks list the instructions in no particular order. In the arena they stand in
the order in which they were made. The two views agree: what the blocks of all procedures list is
the arena, each instruction once, in the block that it names. Likewise, the names of procedures and
their numbers find each other.
-/

namespace TaintTrail.Program

variable {m : Program}

/-- What the blocks of all procedures list, in order. -/
def listed (m : Program) : List Nat := m.procedures.toList.flatMap Procedure.insts

/-- A block at a position is one of the procedure there. -/
theorem blockAt?_eq_some {proc block : Nat} {b : Block} :
    m.blockAt? proc block = some b ↔
      ∃ p, m.procedure? proc = some p ∧ p.blocks[block]? = some b := by
  simp [blockAt?, Option.bind_eq_some_iff]

/-! ## Every instruction is listed once -/

/-- An instruction is listed by the block that it names. -/
theorem WellFormed.exists_block_of_inst? (hm : m.WellFormed) {id : Nat} {inst : Instruction}
    (hinst : m.inst? id = some inst) :
    ∃ p b, m.procedure? inst.proc = some p ∧ p.blocks[inst.block]? = some b ∧ id ∈ b.insts := by
  obtain ⟨b, hat⟩ := Option.isSome_iff_exists.mp (hm.block_isSome id inst hinst)
  obtain ⟨p, hp, hblock⟩ := blockAt?_eq_some.mp hat
  exact ⟨p, b, hp, hblock, (hm.mem_insts_iff _ _ _ hat id).mpr ⟨inst, hinst, rfl, rfl⟩⟩

/-- A procedure lists the instructions that say they are in it. -/
theorem WellFormed.mem_procedure_insts_iff (hm : m.WellFormed) {i id : Nat} {p : Procedure}
    (hp : m.procedure? i = some p) :
    id ∈ p.insts ↔ ∃ inst, m.inst? id = some inst ∧ inst.proc = i := by
  simp only [Procedure.insts, List.mem_flatMap, Array.mem_toList_iff]
  constructor
  · rintro ⟨b, hb, hid⟩
    obtain ⟨block, hblock⟩ := Array.mem_iff_getElem?.mp hb
    have hat := blockAt?_eq_some.mpr ⟨p, hp, hblock⟩
    obtain ⟨inst, hinst, hproc, -⟩ := (hm.mem_insts_iff _ _ _ hat id).mp hid
    exact ⟨inst, hinst, hproc⟩
  · rintro ⟨inst, hinst, rfl⟩
    obtain ⟨p', b, hp', hblock, hlisted⟩ := hm.exists_block_of_inst? hinst
    obtain rfl := Option.some.inj (hp.symm.trans hp')
    exact ⟨b, Array.mem_of_getElem? hblock, hlisted⟩

/-- A procedure lists no instruction twice. -/
theorem WellFormed.nodup_insts (hm : m.WellFormed) {i : Nat} {p : Procedure}
    (hp : m.procedure? i = some p) : p.insts.Nodup := by
  refine List.nodup_flatMap.mpr ⟨?_, List.pairwise_iff_getElem.mpr ?_⟩
  · intro b hb
    obtain ⟨block, hblock⟩ := Array.mem_iff_getElem?.mp (Array.mem_toList_iff.mp hb)
    have hsorted := hm.insts_sorted i block b (blockAt?_eq_some.mpr ⟨p, hp, hblock⟩)
    exact hsorted.imp Nat.ne_of_lt
  · intro j k hj hk hlt id hidj hidk
    have hat (l : Nat) (hl : l < p.blocks.toList.length) :
        m.blockAt? i l = some p.blocks.toList[l] :=
      blockAt?_eq_some.mpr ⟨p, hp, by simp at hl ⊢⟩
    obtain ⟨inst, hinst, -, hblockj⟩ := (hm.mem_insts_iff _ _ _ (hat j hj) id).mp hidj
    obtain ⟨inst', hinst', -, hblockk⟩ := (hm.mem_insts_iff _ _ _ (hat k hk) id).mp hidk
    obtain rfl := Option.some.inj (hinst.symm.trans hinst')
    omega

/-- Procedures are looked up by their positions. -/
theorem procedure?_eq_getElem {i : Nat} (hi : i < m.procedures.toList.length) :
    m.procedure? i = some m.procedures.toList[i] := by
  simp at hi
  simp [procedure?, hi]

/-- All procedures together list no instruction twice. -/
theorem WellFormed.nodup_listed (hm : m.WellFormed) : m.listed.Nodup := by
  refine List.nodup_flatMap.mpr ⟨?_, List.pairwise_iff_getElem.mpr ?_⟩
  · intro p hp
    obtain ⟨i, hi⟩ := Array.mem_iff_getElem?.mp (Array.mem_toList_iff.mp hp)
    exact hm.nodup_insts hi
  · intro j k hj hk hlt id hidj hidk
    obtain ⟨inst, hinst, hprocj⟩ :=
      (hm.mem_procedure_insts_iff (procedure?_eq_getElem hj)).mp hidj
    obtain ⟨inst', hinst', hprock⟩ :=
      (hm.mem_procedure_insts_iff (procedure?_eq_getElem hk)).mp hidk
    obtain rfl := Option.some.inj (hinst.symm.trans hinst')
    omega

/-- The procedures list what is in the arena. -/
theorem WellFormed.mem_listed_iff (hm : m.WellFormed) {id : Nat} :
    id ∈ m.listed ↔ id < m.instructions.size := by
  rw [listed, List.mem_flatMap]
  constructor
  · rintro ⟨p, hp, hid⟩
    obtain ⟨i, hi⟩ := Array.mem_iff_getElem?.mp (Array.mem_toList_iff.mp hp)
    obtain ⟨inst, hinst, -⟩ := (hm.mem_procedure_insts_iff hi).mp hid
    exact (Array.getElem?_eq_some_iff.mp hinst).1
  · intro hlt
    have hinst : m.inst? id = some m.instructions[id] := Array.getElem?_eq_getElem hlt
    obtain ⟨p, b, hp, -⟩ := hm.exists_block_of_inst? hinst
    have hid := (hm.mem_procedure_insts_iff hp).mpr ⟨_, hinst, rfl⟩
    exact ⟨p, Array.mem_toList_iff.mpr (Array.mem_of_getElem? hp), hid⟩

/-- Every instruction is listed once, and nothing else is listed. -/
theorem WellFormed.count_listed (hm : m.WellFormed) (id : Nat) :
    m.listed.count id = if id < m.instructions.size then 1 else 0 := by
  split
  · next hlt => exact List.count_eq_one_of_mem hm.nodup_listed (hm.mem_listed_iff.mpr hlt)
  · next hnot => exact List.count_eq_zero.mpr fun hmem => hnot (hm.mem_listed_iff.mp hmem)

/-! ## Names and numbers -/

/-- No two procedures have one name. -/
theorem WellFormed.nodup_names (hm : m.WellFormed) :
    (m.procedures.toList.map (·.name)).Nodup := by
  refine List.pairwise_map.mpr (List.pairwise_iff_getElem.mpr ?_)
  intro j k hj hk hlt hnames
  have heq := hm.name_inj j k _ _ (procedure?_eq_getElem hj) (procedure?_eq_getElem hk) hnames
  omega

/-- A name finds the number of the procedure that has it. -/
theorem WellFormed.idNamed?_eq_some_iff (hm : m.WellFormed) {name : String} {id : Nat} :
    m.idNamed? name = some id ↔ ∃ p ∈ m.procedures, p.name = name ∧ p.id = id := by
  have hmem {p : Procedure} : p ∈ m.procedures.toList.reverse ↔ p ∈ m.procedures := by simp
  rw [idNamed?, Option.map_eq_some_iff]
  constructor
  · rintro ⟨p, hfind, hid⟩
    have hname := List.find?_some hfind
    exact ⟨p, hmem.mp (List.mem_of_find?_eq_some hfind), by simpa using hname, hid⟩
  · rintro ⟨p, hp, hname, hid⟩
    cases hfind : m.procedures.toList.reverse.find? (·.name = name) with
    | none =>
      have hno := List.find?_eq_none.mp hfind p (hmem.mpr hp)
      exact absurd hname (by simpa using hno)
    | some q =>
      have hq : q ∈ m.procedures := hmem.mp (List.mem_of_find?_eq_some hfind)
      have hqname : q.name = name := by simpa using List.find?_some hfind
      obtain ⟨i, hi⟩ := Array.mem_iff_getElem?.mp hp
      obtain ⟨j, hj⟩ := Array.mem_iff_getElem?.mp hq
      obtain rfl := hm.name_inj i j p q hi hj (hname.trans hqname.symm)
      obtain rfl := Option.some.inj (hi.symm.trans hj)
      exact ⟨p, rfl, hid⟩

/-! ## Programs that were built -/

/-- The numbers of procedures and instructions are their positions, names and numbers find each
other, and the blocks list every instruction of the arena once, in the order in which they were
made. -/
structure Indexed (m : Program) : Prop where
  procedure_id : ∀ i p, m.procedure? i = some p → p.id = i
  names_nodup : (m.procedures.toList.map (·.name)).Nodup
  inst_id : ∀ i inst, m.inst? i = some inst → inst.id = i
  /-- What is in the arena is listed once, and nothing else is listed. -/
  count_listed : ∀ i, m.listed.count i = if i < m.instructions.size then 1 else 0
  /-- An instruction is listed by the block of the procedure that it names. -/
  listed_in_block : ∀ i inst, m.inst? i = some inst → ∃ p b,
    m.procedure? inst.proc = some p ∧ p.blocks[inst.block]? = some b ∧ i ∈ b.insts
  insts_sorted : ∀ p ∈ m.procedures, ∀ b ∈ p.blocks, b.insts.Pairwise (· < ·)
  /-- The name of a procedure finds its number, and no other name finds any. -/
  idNamed?_iff : ∀ name id,
    m.idNamed? name = some id ↔ ∃ p ∈ m.procedures, p.name = name ∧ p.id = id

/-- Whatever steps a construction takes, the program that it makes is indexed. -/
theorem indexed_of_built (hm : m.Built) : m.Indexed := by
  have hwf := hm.wellFormed
  refine ⟨hwf.procedure_id, hwf.nodup_names, hwf.inst_id, hwf.count_listed,
    fun i inst => hwf.exists_block_of_inst?, ?_, fun name id => hwf.idNamed?_eq_some_iff⟩
  intro p hp b hb
  obtain ⟨i, hi⟩ := Array.mem_iff_getElem?.mp hp
  obtain ⟨block, hblock⟩ := Array.mem_iff_getElem?.mp hb
  exact hwf.insts_sorted i block b (blockAt?_eq_some.mpr ⟨p, hi, hblock⟩)

/-- A procedure that is declared, defined, opened again with another signature and declared once
more, and one whose blocks are filled in the reverse order, but for one that stays empty. -/
def reopened : Program :=
  constructed "reopened"
    [.declare "helper" [] .void false, .define "helper" [.pointer (.int 32)] .void false,
      .emit (.call (.direct "log") []) .void,
      .define "main" [] .void false, .block "first", .block "second", .block "never",
      .positionAt 1, .emit (.ret none) .void, .positionAt 0, .emit (.jump 1) .void,
      .define "helper" [] (.int 32) true, .emit (.ret (some (.int 0))) .void,
      .declare "helper" [.int 32] .void false]

/-- There are two procedures, and the one that was opened again has two blocks with the label that
is given where none is chosen. -/
theorem indexed_of_built_reopened :
    reopened.Indexed ∧ reopened.procedures.toList.map (·.name) = ["helper", "main"] ∧
      reopened.procedures.toList.map (·.blocks.toList) =
        [[⟨"entry", [0]⟩, ⟨"entry", [3]⟩], [⟨"first", [2]⟩, ⟨"second", [1]⟩, ⟨"never", []⟩]] :=
  ⟨indexed_of_built (built_constructed _ _), by decide +kernel, by decide +kernel⟩

end TaintTrail.Program
