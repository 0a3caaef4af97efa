import TaintTrail.Proofs.Analysis.Run
import TaintTrail.Proofs.Flow.Confined

/-!
# The facts that runs record

What holds of every fact in the tables of a run, whenever it stops and in whatever order it follows
path edges: the fact has one of a few shapes, and before an instruction it names only what belongs
to the procedure of that instruction.
-/

namespace TaintTrail

open Program

/-- A cursor that moves on does not pass the tainted argument. -/
theorem Rule.cursor_le_of_mem_advance {result : Value} {d d' : Fact}
    (h : d' ∈ Rule.advance result d) {passed : Nat} (hcursor : d'.cursor = some passed) :
    ∃ i, d.argIndex = some i ∧ passed ≤ i := by
  unfold advance at h
  dsimp only at h
  split at h
  · obtain rfl := List.mem_singleton.mp h
    simp [Fact.value] at hcursor
  split at h
  · next hlt =>
    obtain rfl := List.mem_singleton.mp h
    obtain rfl : d.cursor.getD 0 + 1 = passed := Option.some.inj hcursor
    cases hindex : d.argIndex with
    | none => simp [hindex] at hlt
    | some i =>
      rw [hindex, Option.getD_some] at hlt
      exact ⟨i, rfl, hlt⟩
  · simp at h

/-- Takes the second of its variable arguments from a cursor and calls itself with it. -/
def Program.logSecond : Program :=
  constructed "variable"
    [.define "log" [.int 32] .void true, .emit (.alloca (.int 64)) .void,
      .emit (.vaStart (.result 0)) .void, .emit (.vaArg (.result 0)) (.int 32),
      .emit (.vaArg (.result 0)) (.int 32),
      .emit (.call (.direct "log") [.param 0 0, .result 3]) .void, .emit (.ret none) .void, .finish,
      .define "main" [] .void false, .emit (.call (.direct "getenv") []) .void,
      .emit (.call (.direct "log") [.int 0, .int 1, .result 6]) .void, .emit (.ret none) .void]

/-- Every fact in the tables of a run, however many path edges it has followed, is the zero fact, a
tainted result or parameter or tainted memory below a stack slot or a parameter without tags, a
tainted variable argument of a variadic procedure, alone or with a cursor that has not passed it, or
an open region of a conditional branch with the label computed for the branch. In particular no fact
has to skip a return, and a cursor that moves on never exceeds the index of the tainted argument,
which is at most the number of arguments of a call. -/
theorem shaped_of_mem_recorded {m : Program} (hm : m.Built) (config : Config)
    {run : Run Nat Fact Findings} (h : m.PartialRun config run) {d : Fact}
    (hd : d ∈ run.recorded) :
    Shaped m config d ∧ d.returnSkip = none ∧
      ∀ result, ∀ d' ∈ Rule.advance result d, ∀ passed, d'.cursor = some passed →
        ∃ i, d.argIndex = some i ∧ passed ≤ i ∧ i ≤ m.vocabulary.arity := by
  have hwf := hm.wellFormed
  have hshaped : Shaped m config d :=
    h.forall_recorded hwf (fun _ he => hwf.shaped_of_entailed he) hd
  have hsays : m.vocabulary.Says d := h.forall_recorded hwf (fun _ he => hwf.says_of_entailed he) hd
  refine ⟨hshaped, hshaped.returnSkip_eq_none, fun result d' hd' passed hcursor => ?_⟩
  obtain ⟨i, hindex, hle⟩ := Rule.cursor_le_of_mem_advance hd' hcursor
  exact ⟨i, hindex, hle, hsays.argIndex i hindex⟩

/-- A run that stops early has recorded a cursor before the second variable argument, which comes to
that argument when it moves on. -/
theorem shaped_of_mem_recorded_logSecond :
    (logSecond.limitedRun {} 20).isComplete = false ∧
      ∃ d ∈ (logSecond.limitedRun {} 20).recorded, d.cursor = some 0 ∧ d.argIndex = some 1 ∧
        Shaped logSecond {} d ∧ 1 ≤ logSecond.vocabulary.arity := by
  have hrecorded : { Fact.varArg (.ofFrame (.varArgs 0)) 1 with
      list := some (.ofFrame (.stack 0)), cursor := some 0 } ∈
        (logSecond.limitedRun {} 20).recorded := by decide +kernel
  obtain ⟨hshaped, -, hmoves⟩ := shaped_of_mem_recorded (built_constructed _ _) {}
    (logSecond.partialRun_limitedRun {} 20) hrecorded
  obtain ⟨i, hindex, -, hle⟩ := hmoves (.result 2) _ (List.mem_singleton_self _) 1 rfl
  obtain rfl := Option.some.inj hindex
  exact ⟨by decide +kernel, _, hrecorded, rfl, rfl, hshaped, hle⟩

/-- If instructions use only constants and what belongs to their own procedures, then so does every
fact that a run, however many path edges it has followed, records before an instruction: its value
is a result or a parameter of the procedure of the instruction, and its memory and its cursor lie
below stack slots, parameters or the variable arguments of that procedure. -/
theorem confined_of_mem_factsAt {m : Program} (hm : m.Built) (config : Config)
    (hown : m.OwnOperands) {run : Run Nat Fact Findings} (h : m.PartialRun config run) {n : Nat}
    {inst : Instruction} (hinst : m.inst? n = some inst) {d : Fact} (hd : d ∈ run.factsAt n) :
    m.Confined inst.proc d := by
  obtain ⟨source, he⟩ := h.mem_factsAt.mp hd
  have hproc : m.procOf? n = some inst.proc := by simp [procOf?, hinst]
  exact hm.wellFormed.confined_of_entailed hown (h.entailed hm.wellFormed he) hproc

/-- The value that a procedure passes to itself is its own result, whatever its caller passed. -/
theorem confined_of_mem_factsAt_logSecond :
    logSecond.OwnOperands ∧ .value (.result 3) ∈ (logSecond.limitedRun {} 100).factsAt 4 ∧
      logSecond.Confined 0 (.value (.result 3)) ∧ ¬logSecond.Confined 0 (.value (.result 6)) := by
  have hown : logSecond.OwnOperands := by decide +kernel
  have hinst : logSecond.inst? 4 =
      some ⟨4, 0, 0, .call (.direct "log") [.param 0 0, .result 3], .void, none⟩ := by
    decide +kernel
  have hfact : .value (.result 3) ∈ (logSecond.limitedRun {} 100).factsAt 4 := by decide +kernel
  have hconfined := confined_of_mem_factsAt (built_constructed _ _) {} hown
    (logSecond.partialRun_limitedRun {} 100) hinst hfact
  refine ⟨hown, hfact, hconfined, fun hforeign => ?_⟩
  have howns : logSecond.owns 0 (.result 6) = false := by decide +kernel
  simp [hforeign.value (.result 6) rfl] at howns

end TaintTrail
