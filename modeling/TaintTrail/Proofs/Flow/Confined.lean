import TaintTrail.Proofs.Flow.Shape

/-!
# Facts stay in their procedures

If instructions use only constants and what belongs to their own procedures, then so do facts: a
fact before an instruction names values, stack slots, parameters and variable arguments of the
procedure of that instruction. Calls and returns put the names of the one procedure in place of
those of the other.
-/

namespace TaintTrail

namespace Program

/-- Whether a value is computed by an instruction of the procedure or is one of its parameters. -/
def owns (m : Program) (proc : Nat) : Value → Bool
  | .result n => m.procOf? n = some proc
  | .param owner i => owner = proc && (m.procedure? owner).any fun p => i < p.params.length
  | _ => false

/-- Memory below a frame belongs to the procedure. -/
def OwnsFrame (m : Program) (proc : Nat) : Frame → Prop
  | .stack n => m.IsRoot (.stack n) ∧ m.owns proc (.result n) = true
  | .param owner i => m.owns proc (.param owner i) = true
  | .varArgs owner => owner = proc

/-- Instructions use only constants and what belongs to their own procedures. -/
def OwnOperands (m : Program) : Prop :=
  ∀ inst ∈ m.instructions, ∀ v ∈ inst.operation.operands,
    v.isConstant = true ∨ m.owns inst.proc v = true

instance (m : Program) : Decidable m.OwnOperands :=
  inferInstanceAs (Decidable (∀ inst ∈ m.instructions, ∀ v ∈ inst.operation.operands,
    v.isConstant = true ∨ m.owns inst.proc v = true))

/-- A fact names only what belongs to the procedure. -/
structure Confined (m : Program) (proc : Nat) (d : Fact) : Prop where
  value : ∀ v, d.subject = .value v → m.owns proc v = true
  memory : ∀ l, d.subject = .memory l → m.OwnsFrame proc l.frame
  list : ∀ l, d.list = some l → m.OwnsFrame proc l.frame

variable {m : Program} {config : Config} {proc : Nat}

/-- The fact that taints nothing is confined to every procedure. -/
theorem confined_zero (m : Program) (proc : Nat) : m.Confined proc .zero := by
  constructor <;> simp [Fact.zero]

/-- A tainted value of the procedure is confined to it. -/
theorem confined_value {v : Value} (h : m.owns proc v = true) : m.Confined proc (.value v) := by
  constructor <;> simp [Fact.value, h]

/-- A tainted region is confined to the procedure of its condition. -/
theorem confined_branch {v : Value} {label : String} (h : m.owns proc v = true) :
    m.Confined proc (.branch v label) := by
  constructor <;> simp [Fact.branch, h]

/-- Tainted memory of the procedure is confined to it. -/
theorem confined_memory {l : Location} (h : m.OwnsFrame proc l.frame) :
    m.Confined proc (.memory l) := by
  constructor <;> simp [Fact.memory, h]

/-- A tainted variable argument is confined to the procedure that it was given to. -/
theorem confined_varArg {l : Location} {i : Nat} (h : m.OwnsFrame proc l.frame) :
    m.Confined proc (.varArg l i) := by
  constructor <;> simp [Fact.varArg, h]

/-- An instruction's procedure owns its result. -/
theorem owns_result {n : Nat} (h : m.procOf? n = some proc) : m.owns proc (.result n) = true := by
  simp [owns, h]

/-- A procedure owns its parameters. -/
theorem owns_param {p : Procedure} {i : Nat} (hp : m.procedure? p.id = some p)
    (hi : i < p.params.length) : m.owns p.id (.param p.id i) = true := by
  simp [owns, hp, hi]

/-! ## Operands point into their own procedure -/

/-- An operand is a constant or belongs to the procedure of its instruction. -/
theorem OwnOperands.of_mem_operands (hown : m.OwnOperands) {n : Nat} {inst : Instruction}
    {v : Value} (hinst : m.inst? n = some inst) (hv : v ∈ inst.operation.operands) :
    v.isConstant = true ∨ m.owns inst.proc v = true :=
  hown inst (Array.mem_of_getElem? hinst) v hv

/-- The walk back from an operand does not leave the procedure. -/
theorem OwnOperands.of_walksTo (hown : m.OwnOperands) {v base : Value}
    (hv : v.isConstant = true ∨ m.owns proc v = true) (h : m.WalksTo v base) :
    base.isConstant = true ∨ m.owns proc base = true := by
  obtain ⟨id, inst, rfl, hinst, hbase⟩ := h.exists_inst
  have hproc : inst.proc = proc := by simpa [Value.isConstant, owns, procOf?, hinst] using hv
  exact hproc ▸ hown.of_mem_operands hinst hbase

/-- Instructions point into their own procedures. -/
theorem PointsAt.ownsFrame (hown : m.OwnOperands) {n : Nat} {l : Location} (h : m.PointsAt n l)
    (hproc : m.procOf? n = some proc) : m.OwnsFrame proc l.frame := by
  obtain ⟨inst, v, hinst, hv, hl⟩ := h
  obtain rfl : inst.proc = proc := by simpa [procOf?, hinst] using hproc
  obtain ⟨root, hroot, horigin⟩ := exists_frame_of_locationOf?
    (fun _ _ => hown.of_walksTo) (hown.of_mem_operands hinst hv) hl
  obtain ⟨owner, i, rfl, hframe⟩ | ⟨id, allocated, rfl, hframe, hop⟩ :=
    origin_eq_frame_cases horigin
  · rw [hframe]
    exact hroot.resolve_left (by simp [Value.isConstant])
  · rw [hframe]
    exact ⟨⟨allocated, hop⟩, hroot.resolve_left (by simp [Value.isConstant])⟩

/-! ## What arises from a confined fact is confined -/

/-- A fact that arises at a target from a fact confined at the source is confined at the target. -/
theorem WellFormed.confined_of_arises (hm : m.WellFormed) (hown : m.OwnOperands)
    {t : Transfer Nat} {d d' : Fact} (hlink : m.supergraph.Has t) (h : Arises m config t d d')
    (hshaped : Shaped m config d)
    (hd : ∀ proc, m.procOf? t.source = some proc → m.Confined proc d)
    (hproc : m.procOf? t.target = some proc) : m.Confined proc d' := by
  cases h with
  | zero hzero => exact hshaped.eq_zero hzero ▸ confined_zero m proc
  | kept => exact hd proc (hm.procOf?_of_normal hlink ▸ hproc)
  | passed => exact hd proc (hm.procOf?_of_callToReturn hlink ▸ hproc)
  | computed => exact confined_value (owns_result (hm.procOf?_of_normal hlink ▸ hproc))
  | written _ hrule htarget =>
    have hsource := hm.procOf?_of_normal hlink ▸ hproc
    exact confined_memory ((pointsAt_of_written hrule htarget).ownsFrame hown hsource)
  | moved _ _ hrule htarget =>
    have hsource := hm.procOf?_of_normal hlink ▸ hproc
    have hframe := (pointsAt_of_written hrule htarget).ownsFrame hown hsource
    exact confined_memory hframe
  | opened => exact confined_branch (owns_result (hm.procOf?_of_normal hlink ▸ hproc))
  | started hrule =>
    have hsource := hm.procOf?_of_normal hlink ▸ hproc
    refine { hd proc hsource with list := ?_ }
    rintro l ⟨⟩
    exact (pointsAt_of_vaStart hrule).ownsFrame hown hsource
  | advanced =>
    obtain ⟨hvalue, hmemory, hlist⟩ := hd proc (hm.procOf?_of_normal hlink ▸ hproc)
    exact ⟨hvalue, hmemory, hlist⟩
  | copied hrule =>
    have hsource := hm.procOf?_of_normal hlink ▸ hproc
    refine { hd proc hsource with list := ?_ }
    rintro l ⟨⟩
    exact (pointsAt_of_vaCopy hrule).ownsFrame hown hsource
  | param _ hcallee hi =>
    obtain rfl := Option.some.inj ((hm.procOf?_of_call hlink hcallee).symm.trans hproc)
    exact confined_value (owns_param (hm.procedure?_of_callTarget? hcallee).1 hi)
  | varArg _ _ hcallee =>
    obtain rfl := Option.some.inj ((hm.procOf?_of_call hlink hcallee).symm.trans hproc)
    exact confined_varArg rfl
  | below _ _ hcallee _ hi =>
    obtain rfl := Option.some.inj ((hm.procOf?_of_call hlink hcallee).symm.trans hproc)
    exact confined_memory (owns_param (hm.procedure?_of_callTarget? hcallee).1 hi)
  | around _ hcallee hi =>
    obtain rfl := Option.some.inj ((hm.procOf?_of_call hlink hcallee).symm.trans hproc)
    exact confined_memory (owns_param (hm.procedure?_of_callTarget? hcallee).1 hi)
  | returned => exact confined_value (owns_result (hm.procOf?_of_ret hlink ▸ hproc))
  | landed _ _ hrule htarget =>
    -- The result is stored in the procedure of the call, to which the return leads back.
    obtain ⟨n, hpoints, hsame⟩ := hm.exists_pointsAt_of_resultLocation hrule htarget
    have hsource := hsame.trans (hm.procOf?_of_ret hlink ▸ hproc)
    have hframe := hpoints.ownsFrame hown hsource
    exact confined_memory hframe
  | outParam _ hrule harg =>
    have hsource := hm.procOf?_of_ret hlink ▸ hproc
    refine confined_memory ?_
    rw [Location.frame_graft]
    exact (pointsAt_of_argLocation? hrule harg).ownsFrame hown hsource
  | result => exact confined_value (owns_result (hm.procOf?_of_callToReturn hlink ▸ hproc))
  | filled hrule _ harg =>
    have hsource := hm.procOf?_of_callToReturn hlink ▸ hproc
    refine confined_memory ?_
    rw [Location.frame_filled]
    exact (pointsAt_of_argLocation? hrule harg).ownsFrame hown hsource

/-- The fact of an entailed path edge names only what belongs to the procedure of its node. -/
theorem WellFormed.confined_of_entailed (hm : m.WellFormed) (hown : m.OwnOperands)
    {e : PathEdge Nat Fact}
    (he : Entailed (m.taintProblem config) m.supergraph (m.outcomes config) e)
    (hproc : m.procOf? e.node = some proc) : m.Confined proc e.fact := by
  have hall : Shaped m config e.fact ∧
      ∀ proc, m.procOf? e.node = some proc → m.Confined proc e.fact := by
    refine he.forall_at (P := fun n d => Shaped m config d ∧
      ∀ proc, m.procOf? n = some proc → m.Confined proc d) (fun n d hseed => ?_) ?_
    · rw [eq_zero_of_mem_seeds hseed]
      exact ⟨.zero, fun proc _ => confined_zero m proc⟩
    · rintro t d d' hlink ⟨hshaped, hconfined⟩ hd'
      have harises := hm.arises hlink hd'
      exact ⟨hm.shaped_of_arises hlink harises hshaped, fun proc hproc =>
        hm.confined_of_arises hown hlink harises hshaped hconfined hproc⟩
  exact hall.2 proc hproc

end Program

end TaintTrail
