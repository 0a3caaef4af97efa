import TaintTrail.Program.Builder

/-!
# Well-formed programs

In a well-formed program every number says where a thing stands: procedures and instructions carry
their own positions, and an instruction is listed in the block that it says it is in and nowhere
else. An instruction without a result has no type. Every step of a construction keeps programs well
formed.
-/

namespace TaintTrail

namespace Program

/-- The block at a position of the procedure at a position. -/
def blockAt? (m : Program) (proc block : Nat) : Option Block :=
  (m.procedure? proc).bind fun p => p.blocks[block]?

/-- Procedures carry their positions, and names of their own. -/
structure Numbered (m : Program) : Prop where
  procedure_id : ∀ i p, m.procedure? i = some p → p.id = i
  name_inj : ∀ i j p q, m.procedure? i = some p → m.procedure? j = some q → p.name = q.name → i = j

/-- Instructions carry their positions and those of the blocks that list them. -/
structure Placed (m : Program) : Prop where
  inst_id : ∀ i inst, m.inst? i = some inst → inst.id = i
  block_isSome : ∀ i inst, m.inst? i = some inst → (m.blockAt? inst.proc inst.block).isSome
  /-- A block lists the instructions that say they are in it. -/
  mem_insts_iff : ∀ proc block b, m.blockAt? proc block = some b →
    ∀ i, i ∈ b.insts ↔ ∃ inst, m.inst? i = some inst ∧ inst.proc = proc ∧ inst.block = block
  /-- A block lists its instructions in the order in which they were made. -/
  insts_sorted : ∀ proc block b, m.blockAt? proc block = some b → b.insts.Pairwise (· < ·)

/-- Only results have types. -/
structure Typed (m : Program) : Prop where
  type_eq_void : ∀ i inst, m.inst? i = some inst → inst.operation.hasResult = false →
    inst.type = .void

/-- The numbers that things carry agree with where they stand, and types with operations. -/
structure WellFormed (m : Program) : Prop extends Numbered m, Placed m, Typed m

/-- Numbers and names stay right where each procedure keeps its own. -/
theorem Numbered.of_exists {m m' : Program} (hm : m.Numbered)
    (h : ∀ i p, m'.procedure? i = some p →
      ∃ q, m.procedure? i = some q ∧ p.id = q.id ∧ p.name = q.name) : m'.Numbered where
  procedure_id i p hp := by
    obtain ⟨q, hq, hid, -⟩ := h i p hp
    rw [hid, hm.procedure_id i q hq]
  name_inj i j p q hp hq hnames := by
    obtain ⟨p', hp', -, hpname⟩ := h i p hp
    obtain ⟨q', hq', -, hqname⟩ := h j q hq
    exact hm.name_inj i j p' q' hp' hq' (by rw [← hpname, ← hqname, hnames])

/-- Only blocks and instructions matter for where instructions stand. -/
theorem Placed.congr {m m' : Program} (hm : m.Placed) (hinst : ∀ i, m'.inst? i = m.inst? i)
    (hblock : ∀ proc block, m'.blockAt? proc block = m.blockAt? proc block) : m'.Placed where
  inst_id := by simpa only [hinst] using hm.inst_id
  block_isSome := by simpa only [hinst, hblock] using hm.block_isSome
  mem_insts_iff := by simpa only [hinst, hblock] using hm.mem_insts_iff
  insts_sorted := by simpa only [hblock] using hm.insts_sorted

/-- Only instructions matter for their types. -/
theorem Typed.congr {m m' : Program} (hm : m.Typed) (hinst : ∀ i, m'.inst? i = m.inst? i) :
    m'.Typed :=
  ⟨by simpa only [hinst] using hm.type_eq_void⟩

/-- The type of an operation without a result. -/
theorem resultType_eq_void (m : Program) (stated : Ty) {operation : Operation}
    (h : operation.hasResult = false) : m.resultType stated operation = .void := by
  cases operation <;> simp_all [resultType, Operation.hasResult, Operation.isTerminator]

/-- The block of an instruction is the one at the position that the instruction carries. -/
theorem blockOf?_eq (m : Program) (id : Nat) :
    m.blockOf? id = (m.inst? id).bind fun inst => m.blockAt? inst.proc inst.block := by
  unfold blockOf? blockAt?
  cases m.inst? id <;> rfl

/-- The program without anything in it is well formed. -/
theorem wellFormed_empty (name : String) : ({ name } : Program).WellFormed := by
  refine ⟨⟨?_, ?_⟩, ⟨?_, ?_, ?_, ?_⟩, ⟨?_⟩⟩ <;> simp [procedure?, inst?, blockAt?]

end Program

namespace Builder

open Program

variable {m : Program}

/-! ## What the steps do to procedures and blocks -/

/-- Only the modified procedure changes. -/
theorem procedure?_modifyProcedure (m : Program) (i j : Nat) (f : Procedure → Procedure) :
    (modifyProcedure m i f).procedure? j =
      if i = j then (m.procedure? j).map f else m.procedure? j := by
  simp only [procedure?, modifyProcedure, Array.getElem?_modify]

/-- No instruction changes when a procedure is modified. -/
@[simp] theorem inst?_modifyProcedure (m : Program) (i j : Nat) (f : Procedure → Procedure) :
    (modifyProcedure m i f).inst? j = m.inst? j :=
  rfl

/-- Procedures come from procedures when one is changed. -/
theorem exists_of_procedure?_modifyProcedure {i j : Nat} {f : Procedure → Procedure}
    {p : Procedure} (hid : ∀ q, (f q).id = q.id) (hname : ∀ q, (f q).name = q.name)
    (h : (modifyProcedure m i f).procedure? j = some p) :
    ∃ q, m.procedure? j = some q ∧ p.id = q.id ∧ p.name = q.name := by
  rw [procedure?_modifyProcedure] at h
  split at h
  · obtain ⟨q, hq, rfl⟩ := Option.map_eq_some_iff.mp h
    exact ⟨q, hq, hid q, hname q⟩
  · exact ⟨p, h, rfl, rfl⟩

/-- Only the blocks of the modified procedure change. -/
theorem blockAt?_modifyProcedure (m : Program) (i proc block : Nat) (f : Procedure → Procedure) :
    (modifyProcedure m i f).blockAt? proc block =
      if i = proc then (m.procedure? proc).bind fun p => (f p).blocks[block]?
      else m.blockAt? proc block := by
  unfold blockAt?
  rw [procedure?_modifyProcedure]
  split
  · cases m.procedure? proc <;> rfl
  · rfl

/-- Only the block that is appended is new. -/
theorem blockAt?_appendBlock (m : Program) (i : Nat) (label : String) (proc block : Nat) :
    (appendBlock m i label).1.blockAt? proc block =
      if i = proc ∧ (m.procedure? i).map (·.blocks.size) = some block then some ⟨label, []⟩
      else m.blockAt? proc block := by
  simp only [appendBlock, blockAt?_modifyProcedure]
  by_cases hi : i = proc
  · subst hi
    cases hp : m.procedure? i with
    | none => simp [blockAt?, hp]
    | some p => simp [blockAt?, hp, Array.getElem?_push, eq_comm]
  · simp [hi]

/-- The instruction is appended to its block and the others stay as they are. -/
theorem blockAt?_appendInst (m : Program) (cursor : Cursor) (block : Nat) (operation : Operation)
    (type : Ty) (proc block' : Nat) :
    (appendInst m cursor block operation type).blockAt? proc block' =
      if cursor.proc = proc ∧ block = block' then
        (m.blockAt? proc block').map fun b => { b with insts := b.insts ++ [m.instructions.size] }
      else m.blockAt? proc block' := by
  simp only [appendInst, blockAt?_modifyProcedure, Array.getElem?_modify]
  by_cases hproc : cursor.proc = proc
  · by_cases hblock : block = block'
    · subst hproc hblock
      cases hp : m.procedures[cursor.proc]? with
      | none => simp [blockAt?, procedure?, hp]
      | some p => simp [blockAt?, procedure?, hp]
    · simp [blockAt?, procedure?, hproc, hblock]
  · simp [blockAt?, procedure?, hproc]

/-- The instructions stay where they are, and the new one comes after them. -/
theorem inst?_appendInst (m : Program) (cursor : Cursor) (block : Nat) (operation : Operation)
    (type : Ty) (i : Nat) :
    (appendInst m cursor block operation type).inst? i =
      if i = m.instructions.size then
        some { id := i, proc := cursor.proc, block, operation, type, source := sourceAt m cursor }
      else m.inst? i := by
  rw [appendInst, inst?_modifyProcedure]
  simp only [inst?, Array.getElem?_push]
  split
  · next h => rw [h]
  · rfl

/-! ## Steps keep programs well formed -/

/-- A change of a procedure keeps the numbers if it keeps the number and the name. -/
theorem numbered_modifyProcedure (hm : m.Numbered) (i : Nat) {f : Procedure → Procedure}
    (hid : ∀ q, (f q).id = q.id) (hname : ∀ q, (f q).name = q.name) :
    (modifyProcedure m i f).Numbered :=
  hm.of_exists fun _ _ => exists_of_procedure?_modifyProcedure hid hname

/-- A change of a procedure that keeps its number, its name and its blocks. -/
theorem wellFormed_modifyProcedure (hm : m.WellFormed) (i : Nat) {f : Procedure → Procedure}
    (hid : ∀ q, (f q).id = q.id) (hname : ∀ q, (f q).name = q.name)
    (hblocks : ∀ q, (f q).blocks = q.blocks) : (modifyProcedure m i f).WellFormed := by
  refine ⟨numbered_modifyProcedure hm.toNumbered i hid hname, hm.toPlaced.congr (fun _ => rfl) ?_,
    hm.toTyped.congr fun _ => rfl⟩
  intro proc block
  rw [blockAt?_modifyProcedure]
  simp only [hblocks, blockAt?, ite_self]

/-- A new procedure of a new name, without blocks. -/
theorem wellFormed_addProcedure (hm : m.WellFormed) (p : Procedure)
    (hid : p.id = m.procedures.size) (hblocks : p.blocks = #[])
    (hname : ∀ i q, m.procedure? i = some q → q.name ≠ p.name) :
    ({ m with procedures := m.procedures.push p } : Program).WellFormed := by
  have hproc : ∀ i q,
      ({ m with procedures := m.procedures.push p } : Program).procedure? i = some q →
      i = m.procedures.size ∧ q = p ∨ m.procedure? i = some q := by
    intro i q h
    simp only [procedure?, Array.getElem?_push] at h
    split at h
    · next hi => exact .inl ⟨hi, by simpa using h.symm⟩
    · exact .inr h
  refine ⟨⟨?_, ?_⟩, hm.toPlaced.congr (fun _ => rfl) ?_, hm.toTyped.congr fun _ => rfl⟩
  · intro i q hq
    obtain ⟨rfl, rfl⟩ | hq := hproc i q hq
    · exact hid
    · exact hm.procedure_id i q hq
  · intro i j q r hq hr hnames
    obtain ⟨rfl, rfl⟩ | hq' := hproc i q hq <;> obtain ⟨rfl, rfl⟩ | hr' := hproc j r hr
    · rfl
    · exact absurd hnames.symm (hname j r hr')
    · exact absurd hnames (hname i q hq')
    · exact hm.name_inj i j q r hq' hr' hnames
  · intro proc block
    simp only [blockAt?, procedure?, Array.getElem?_push]
    split
    · next hi => simp [hi, hblocks]
    · rfl

/-- A program stays well formed when a procedure is declared. -/
theorem wellFormed_signature (hm : m.WellFormed) (name : String) (params : List Ty) (result : Ty)
    (isVariadic : Bool) : (signature m name params result isVariadic).1.WellFormed := by
  unfold signature
  split
  · exact wellFormed_modifyProcedure hm _ (fun _ => rfl) (fun _ => rfl) (fun _ => rfl)
  · next hnone =>
    refine wellFormed_addProcedure hm _ rfl rfl fun i q hq hname => ?_
    have hmem : q ∈ m.procedures := Array.mem_of_getElem? hq
    simpa [hname] using Array.findIdx?_eq_none_iff.mp hnone q hmem

/-- A program stays well formed when a block is added. -/
theorem wellFormed_appendBlock (hm : m.WellFormed) (i : Nat) (label : String) :
    (appendBlock m i label).1.WellFormed := by
  have hnumbered : (appendBlock m i label).1.Numbered :=
    numbered_modifyProcedure hm.toNumbered i (fun _ => rfl) (fun _ => rfl)
  refine ⟨hnumbered, ⟨hm.inst_id, ?_, ?_, ?_⟩, hm.toTyped.congr fun _ => rfl⟩
  · intro j inst hinst
    rw [blockAt?_appendBlock]
    split
    · rfl
    · exact hm.block_isSome j inst hinst
  · intro proc block b hb j
    rw [blockAt?_appendBlock] at hb
    split at hb
    · next hnew =>
      obtain ⟨rfl, hsize⟩ := hnew
      obtain ⟨p, hp, rfl⟩ := Option.map_eq_some_iff.mp hsize
      obtain rfl := Option.some.inj hb
      -- No instruction says it is in the new block, which did not exist.
      simp only [List.not_mem_nil, false_iff]
      rintro ⟨inst, hinst, rfl, hblock⟩
      simpa [blockAt?, hp, hblock] using hm.block_isSome j inst hinst
    · exact hm.mem_insts_iff proc block b hb j
  · intro proc block b hb
    rw [blockAt?_appendBlock] at hb
    split at hb
    · obtain rfl := Option.some.inj hb
      exact List.Pairwise.nil
    · exact hm.insts_sorted proc block b hb

/-- The position of the next instruction is free. -/
theorem inst?_size (m : Program) : m.inst? m.instructions.size = none := by
  simp [inst?]

/-- There is a block at a position if it can be looked up. -/
theorem hasBlock_iff {proc block : Nat} :
    hasBlock m proc block = true ↔ (m.blockAt? proc block).isSome := by
  unfold hasBlock blockAt?
  cases m.procedure? proc <;> simp

/-- A program stays well formed when an instruction is added to a block that is there. -/
theorem wellFormed_appendInst (hm : m.WellFormed) (cursor : Cursor) {block : Nat}
    {operation : Operation} {type : Ty} (htype : operation.hasResult = false → type = .void)
    (hblock : hasBlock m cursor.proc block = true) :
    (appendInst m cursor block operation type).WellFormed := by
  rw [hasBlock_iff] at hblock
  refine ⟨?_, ⟨?_, ?_, ?_, ?_⟩, ⟨?_⟩⟩
  · refine numbered_modifyProcedure ?_ cursor.proc (fun _ => rfl) (fun _ => rfl)
    exact hm.toNumbered.of_exists fun i p hp => ⟨p, hp, rfl, rfl⟩
  · intro i inst hinst
    rw [inst?_appendInst] at hinst
    split at hinst
    · obtain rfl := Option.some.inj hinst
      rfl
    · exact hm.inst_id i inst hinst
  · intro i inst hinst
    have hold : (m.blockAt? inst.proc inst.block).isSome := by
      rw [inst?_appendInst] at hinst
      split at hinst
      · obtain rfl := Option.some.inj hinst
        exact hblock
      · exact hm.block_isSome i inst hinst
    rw [blockAt?_appendInst]
    split <;> simpa using hold
  · intro proc block' b hb i
    rw [blockAt?_appendInst] at hb
    rw [inst?_appendInst]
    split at hb
    · next hhere =>
      obtain ⟨rfl, rfl⟩ := hhere
      obtain ⟨b₀, hb₀, rfl⟩ := Option.map_eq_some_iff.mp hb
      by_cases hi : i = m.instructions.size
      · simp [hi]
      · simpa [hi] using hm.mem_insts_iff _ _ b₀ hb₀ i
    · next helse =>
      by_cases hi : i = m.instructions.size
      · simpa [hi, inst?_size, helse] using hm.mem_insts_iff _ _ b hb i
      · simpa [hi] using hm.mem_insts_iff _ _ b hb i
  · intro proc block' b hb
    rw [blockAt?_appendInst] at hb
    split at hb
    · obtain ⟨b₀, hb₀, rfl⟩ := Option.map_eq_some_iff.mp hb
      have hold : ∀ i ∈ b₀.insts, i < m.instructions.size := by
        intro i hi
        obtain ⟨inst, hinst, -⟩ := (hm.mem_insts_iff _ _ b₀ hb₀ i).mp hi
        exact (Array.getElem?_eq_some_iff.mp hinst).1
      simpa [List.pairwise_append] using ⟨hm.insts_sorted _ _ b₀ hb₀, hold⟩
    · exact hm.insts_sorted _ _ b hb
  · intro i inst hinst hresult
    rw [inst?_appendInst] at hinst
    split at hinst
    · obtain rfl := Option.some.inj hinst
      exact htype hresult
    · exact hm.type_eq_void i inst hinst hresult

/-- A step that needs an open procedure succeeds only where there is one. -/
theorem exists_cursor_of_open_bind {α : Type} {b : Builder} {f : Cursor → Except Error α} {a : α}
    (h : (b.open? >>= f) = .ok a) : ∃ cursor, b.cursor = some cursor ∧ f cursor = .ok a := by
  unfold open? at h
  cases hcursor : b.cursor with
  | none =>
    rw [hcursor] at h
    cases h
  | some cursor =>
    rw [hcursor] at h
    exact ⟨cursor, rfl, h⟩

/-- A program stays well formed when an instruction is emitted. -/
theorem wellFormed_emit {b b' : Builder} {operation : Operation} {stated : Ty} {outcome : Outcome}
    (hb : b.program.WellFormed) (h : b.emit operation stated = .ok (b', outcome)) :
    b'.program.WellFormed := by
  obtain ⟨cursor, -, h⟩ := exists_cursor_of_open_bind h
  have htype : operation.hasResult = false → b.program.resultType stated operation = .void :=
    resultType_eq_void b.program stated
  cases hblock : cursor.block with
  | none =>
    simp only [hblock] at h
    split at h
    · next hhas =>
      obtain ⟨rfl, -⟩ := Prod.mk.inj (Except.ok.inj h)
      exact wellFormed_appendInst (wellFormed_appendBlock hb _ _) cursor htype hhas
    · cases h
  | some block =>
    simp only [hblock] at h
    split at h
    · next hhas =>
      obtain ⟨rfl, -⟩ := Prod.mk.inj (Except.ok.inj h)
      exact wellFormed_appendInst hb cursor htype hhas
    · cases h

/-- A step of a construction keeps its program well formed. -/
theorem wellFormed_apply {b b' : Builder} {command : Command} {outcome : Outcome}
    (hb : b.program.WellFormed) (h : b.apply command = .ok (b', outcome)) :
    b'.program.WellFormed := by
  cases command with
  | layout name isUnion members =>
    obtain ⟨rfl, -⟩ := Prod.mk.inj (Except.ok.inj h)
    exact ⟨hb.toNumbered.of_exists fun i p hp => ⟨p, hp, rfl, rfl⟩,
      hb.toPlaced.congr (fun _ => rfl) (fun _ _ => rfl), hb.toTyped.congr fun _ => rfl⟩
  | declare name params result isVariadic =>
    obtain ⟨rfl, -⟩ := Prod.mk.inj (Except.ok.inj h)
    exact wellFormed_signature hb name params result isVariadic
  | define name params result isVariadic =>
    obtain ⟨rfl, -⟩ := Prod.mk.inj (Except.ok.inj h)
    exact wellFormed_signature hb name params result isVariadic
  | sourceFile file =>
    obtain ⟨cursor, -, h⟩ := exists_cursor_of_open_bind h
    obtain ⟨rfl, -⟩ := Prod.mk.inj (Except.ok.inj h)
    exact wellFormed_modifyProcedure hb _ (fun _ => rfl) (fun _ => rfl) (fun _ => rfl)
  | block label =>
    obtain ⟨cursor, -, h⟩ := exists_cursor_of_open_bind h
    obtain ⟨rfl, -⟩ := Prod.mk.inj (Except.ok.inj h)
    exact wellFormed_appendBlock hb cursor.proc label
  | emit operation stated => exact wellFormed_emit hb h
  | finish | positionAt _ | atLine _ | clearLine =>
    obtain ⟨cursor, -, h⟩ := exists_cursor_of_open_bind h
    obtain ⟨rfl, -⟩ := Prod.mk.inj (Except.ok.inj h)
    exact hb

/-- A program stays well formed through all commands, by induction on them. -/
theorem wellFormed_applyAll {b b' : Builder} {commands : List Command}
    (hb : b.program.WellFormed) (h : b.applyAll commands = .ok b') : b'.program.WellFormed := by
  induction commands generalizing b with
  | nil =>
    obtain rfl := Except.ok.inj h
    exact hb
  | cons command commands ih =>
    unfold applyAll at h
    cases happly : b.apply command with
    | error e =>
      rw [happly] at h
      cases h
    | ok r =>
      rw [happly] at h
      exact ih (wellFormed_apply hb happly) h

end Builder

namespace Program

/-- The program is the result of a construction. -/
def Built (m : Program) : Prop :=
  ∃ name commands b, (Builder.new name).applyAll commands = .ok b ∧ b.program = m

/-- The program that commands construct, which is the empty one if they cannot be carried out. -/
def constructed (name : String) (commands : List Builder.Command) : Program :=
  match (Builder.new name).applyAll commands with
  | .ok b => b.program
  | .error _ => { name }

/-- What commands construct is the result of a construction, even if they cannot be carried out. -/
theorem built_constructed (name : String) (commands : List Builder.Command) :
    (constructed name commands).Built := by
  unfold constructed
  split
  · next b h => exact ⟨name, commands, b, h, rfl⟩
  · exact ⟨name, [], .new name, rfl, rfl⟩

/-- Constructions make well-formed programs. -/
theorem Built.wellFormed {m : Program} (hm : m.Built) : m.WellFormed := by
  obtain ⟨name, commands, b, happly, rfl⟩ := hm
  exact Builder.wellFormed_applyAll (wellFormed_empty name) happly

end Program

end TaintTrail
