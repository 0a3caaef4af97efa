import TaintTrail.Proofs.Analysis.Run
import TaintTrail.Proofs.Flow.Effect
import TaintTrail.Proofs.Flow.Shape
import TaintTrail.Proofs.Tabulation.Limit
import TaintTrail.Proofs.Tabulation.Store

/-!
# Which procedures are given up

A procedure is given up when taint comes to one of its branches whose region has no end. From then
on the flow functions are others: nothing gets into the procedure, through it or out of it, and what
the other procedures find depends on how far taint had come by then. Still the procedures that are
given up can be read off what a run has recorded in the end, whatever the order of its work.
-/

namespace TaintTrail

/-- The condition of a conditional branch. -/
def Operation.condition? : Operation → Option Value
  | .branch condition _ _ | .switch condition _ _ => some condition
  | _ => none

namespace Program

/-- The condition of the conditional branch at a position. -/
def condition? (m : Program) (b : Nat) : Option Value := (m.operation? b).bind (·.condition?)

/-- Taint has come to a branch of a procedure whose region has no end: before the branch its
condition is tainted, or a region is open that does not end with the block of the branch. -/
structure StoppedBy (m : Program) (config : Config) (run : Run Nat Fact Findings) (p : Procedure)
    (b : Nat) (e : RegionError) : Prop where
  procedure : m.procedureOf? b = some p
  /-- Control goes on from the branch. -/
  goesOn : ∃ s, (b, .normal s) ∈ m.supergraph.links
  unclosed : (b, .error e) ∈ m.regions config.mergeLabels p
  error : ∃ block, e = .noMergeBlock p.name block b
  tainted : ∃ condition, m.condition? b = some condition ∧
    (.value condition ∈ run.factsAt b ∨
      ∃ v label, .branch v label ∈ run.factsAt b ∧ m.blockLabel? b ≠ some label)

variable {m : Program} {config : Config} {b : Nat} {e : RegionError}

/-! ## Branches whose region has no end -/

/-- The region of a branch that ends a block is the one computed for the branch. -/
theorem eq_regionEnd_of_mem_regions {kinds : List String} {p : Procedure}
    {region : Except RegionError String} (h : (b, region) ∈ m.regions kinds p) :
    m.isConditional b = true ∧ region = m.regionEnd kinds b := by
  obtain ⟨id, hid, heq⟩ := List.mem_map.mp h
  obtain ⟨rfl, rfl⟩ := Prod.mk.inj heq
  exact ⟨(List.mem_filter.mp hid).2, rfl⟩

/-- A branch has at most one entry among the regions of a procedure. -/
theorem lookup_regions_eq_some_iff {kinds : List String} {p : Procedure}
    {region : Except RegionError String} :
    (m.regions kinds p).lookup b = some region ↔ (b, region) ∈ m.regions kinds p := by
  constructor
  · intro h
    obtain ⟨before, after, hsplit, -⟩ := List.lookup_eq_some_iff.mp h
    simp [hsplit]
  · intro h
    cases hlookup : (m.regions kinds p).lookup b with
    | none =>
      have hne := List.lookup_eq_none_iff.mp hlookup _ h
      simp at hne
    | some region' =>
      obtain ⟨before, after, hsplit, -⟩ := List.lookup_eq_some_iff.mp hlookup
      have h' : (b, region') ∈ m.regions kinds p := by simp [hsplit]
      rw [(eq_regionEnd_of_mem_regions h).2, (eq_regionEnd_of_mem_regions h').2]

/-- A branch is unclosed if it is listed with an error among the regions of its procedure. -/
theorem regionIn_eq_unclosed_iff {kinds : List String} {p : Procedure} :
    m.regionIn kinds p b = .unclosed e ↔ (b, .error e) ∈ m.regions kinds p := by
  rw [← lookup_regions_eq_some_iff, regionIn]
  cases (m.regions kinds p).lookup b with
  | none => simp
  | some region => cases region <;> simp

/-- The rule of a branch whose region has no end. -/
theorem WellFormed.rule?_eq_unclosed_iff (hm : m.WellFormed) {condition : Value} :
    m.rule? config b = some (.branch condition (.unclosed e)) ↔
      config.implicitFlows = true ∧ m.condition? b = some condition ∧
        ∃ p, m.procedureOf? b = some p ∧ (b, .error e) ∈ m.regions config.mergeLabels p := by
  cases hinst : m.inst? b with
  | none => simp [rule?, condition?, operation?, hinst]
  | some inst =>
    obtain ⟨p, hp, hrule⟩ := hm.rule?_eq config hinst
    simp only [hrule, condition?, operation?, procedureOf?, procOf?, hinst, hp, Option.map_some,
      Option.bind_some, Option.some.injEq, exists_eq_left', ← regionIn_eq_unclosed_iff]
    cases hop : inst.operation with
    | branch condition' _ _ | switch condition' _ _ =>
      simp only [Rule.ofInstruction, hop, hm.inst_id b inst hinst, Rule.branch.injEq,
        Operation.condition?, Option.some.injEq]
      cases config.implicitFlows <;> simp
    | _ => simp [Rule.ofInstruction, hop, Operation.condition?]

/-- The region of a branch of a procedure can only fail to have a merge block. -/
theorem eq_noMergeBlock_of_mem_regions {kinds : List String} {p : Procedure}
    (hp : m.procedureOf? b = some p) (h : (b, .error e) ∈ m.regions kinds p) :
    ∃ block, e = .noMergeBlock p.name block b := by
  obtain ⟨hconditional, hend⟩ := eq_regionEnd_of_mem_regions h
  cases hinst : m.inst? b with
  | none => simp [isConditional, operation?, hinst] at hconditional
  | some inst =>
    simp only [isConditional, operation?, hinst, Option.map_some, Option.any_some] at hconditional
    simp only [procedureOf?, procOf?, hinst, Option.map_some, Option.bind_some] at hp
    simp only [regionEnd, hinst, hp, hconditional, if_true] at hend
    split at hend
    · simp at hend
    · exact ⟨_, Except.error.inj hend⟩

/-- The taint of its condition decides a branch. -/
theorem decides_value {condition : Value} :
    Flow.decides m b condition (.value condition) = true := by
  simp [Flow.decides, Fact.isBranch, Fact.isPlainValue, Fact.value?, Fact.isVarArg, Fact.value]

/-- A tainted region decides a branch, unless the branch is in the block that ends the region. -/
theorem decides_branch_iff {condition v : Value} {label : String} :
    Flow.decides m b condition (.branch v label) = true ↔ m.blockLabel? b ≠ some label := by
  have hbranch : (Fact.branch v label).isBranch = true := rfl
  rw [Flow.decides, if_pos hbranch, decide_eq_true_iff]
  rfl

/-- Taint decides a branch only if its condition is tainted, or if a region is open that does not
end with the block of the branch. -/
theorem eq_of_decides {d : Fact} {condition : Value} (hshaped : Shaped m config d)
    (h : Flow.decides m b condition d = true) :
    d = .value condition ∨ ∃ v label, d = .branch v label ∧ m.blockLabel? b ≠ some label := by
  cases hbranch : d.isBranch with
  | true =>
    obtain ⟨n, label, rfl⟩ := hshaped.eq_branch hbranch
    exact .inr ⟨_, label, rfl, decides_branch_iff.mp h⟩
  | false =>
    rw [Flow.decides, if_neg (by simp [hbranch])] at h
    exact .inl (hshaped.eq_value h)

end Program

/-! ## What is given up when a flow function is applied -/

namespace Findings

variable {m : Program} {f : Findings} {effect : Effect} {k : Nat} {e : RegionError}

/-- A procedure is given up by the effect that is noted or was so before. -/
theorem mem_aborted_or_of_mem_note (h : (k, e) ∈ (f.note m effect).aborted) :
    (k, e) ∈ f.aborted ∨ effect.aborts = some (k, e) := by
  unfold note at h
  cases haborts : effect.aborts with
  | none => exact .inl (by simpa [haborts] using h)
  | some entry =>
    simp only [haborts, Option.elim_some] at h
    obtain heq | h := Sorted.eq_or_mem_of_mem_put h
    · exact .inr (congrArg some heq.symm)
    · exact .inl h

/-- Taking note of an effect gives up the procedure that the effect says, and no other. -/
theorem exists_mem_aborted_note_iff : (∃ e, (k, e) ∈ (f.note m effect).aborted) ↔
    (∃ e, (k, e) ∈ f.aborted) ∨ ∃ e, effect.aborts = some (k, e) := by
  unfold note
  cases effect.aborts with
  | none => simp
  | some entry =>
    obtain ⟨k', e'⟩ := entry
    simp only [Option.elim_some, Sorted.exists_mem_put_iff, Option.some.injEq, Prod.mk.injEq,
      exists_and_left, exists_eq', and_true, eq_comm (a := k)]
    exact or_comm

/-- An instruction is aborted if its procedure was given up. -/
theorem isAborted_iff {n : Nat} :
    f.isAborted m n = true ↔ ∃ k e, m.procOf? n = some k ∧ (k, e) ∈ f.aborted := by
  unfold isAborted Program.procOf?
  cases m.inst? n with
  | none => simp
  | some inst => simp

/-- The names of the procedures that were given up are those of their numbers. -/
theorem exists_of_mem_abortedNames {name : String} (h : (name, e) ∈ f.abortedNames m) :
    ∃ k p, (k, e) ∈ f.aborted ∧ m.procedure? k = some p ∧ p.name = name := by
  obtain ⟨⟨k, e'⟩, hmem, hname⟩ := List.mem_filterMap.mp (Sorted.mem_of_mem_ofPairs h)
  obtain ⟨p, hp, heq⟩ := Option.map_eq_some_iff.mp hname
  obtain ⟨rfl, rfl⟩ := Prod.mk.inj heq
  exact ⟨k, p, hmem, hp, rfl⟩

/-- A procedure that was given up is reported by its name. -/
theorem exists_mem_abortedNames {p : Procedure} (h : (k, e) ∈ f.aborted)
    (hp : m.procedure? k = some p) : ∃ e, (p.name, e) ∈ f.abortedNames m := by
  rw [abortedNames, Sorted.exists_mem_ofPairs_iff]
  exact ⟨e, List.mem_filterMap.mpr ⟨(k, e), h, by simp [hp]⟩⟩

end Findings

namespace Program

variable {m : Program} {config : Config} {f : Findings} {t : Transfer Nat} {d : Fact} {k b : Nat}
  {e : RegionError}

/-- A flow function gives up the procedure of a branch that taint decides and whose region has no
end. -/
theorem aborts_effectOf_iff : (m.effectOf config t d).aborts = some (k, e) ↔
    ∃ b s condition, t = .normal b s ∧ m.procOf? b = some k ∧
      m.rule? config b = some (.branch condition (.unclosed e)) ∧
      Flow.decides m b condition d = true := by
  constructor
  · intro haborts
    have hgives : m.GivesUp config t d := by simp [GivesUp, haborts]
    obtain ⟨b, s, condition, e', rfl, hrule⟩ := exists_unclosed_of_givesUp hgives
    obtain ⟨inst, -, hinst, -⟩ := exists_inst_of_rule? hrule
    rw [effectOf_normal_unclosed hinst hrule] at haborts
    split at haborts
    · next hdecides =>
      obtain ⟨rfl, rfl⟩ : inst.proc = k ∧ e' = e := by simpa using haborts
      exact ⟨b, s, condition, rfl, by simp [procOf?, hinst], hrule, hdecides⟩
    · simp [Flow.applyRule] at haborts
  · rintro ⟨b, s, condition, rfl, hproc, hrule, hdecides⟩
    obtain ⟨inst, hinst, rfl⟩ := Option.map_eq_some_iff.mp hproc
    simp [effectOf_normal_unclosed hinst hrule, hdecides]

/-- A procedure is given up by a flow function only as the flow function of the transfer says. -/
theorem mem_aborted_or_of_mem_flow
    (h : (k, e) ∈ ((m.taintProblem config).flow t d f).2.aborted) :
    (k, e) ∈ f.aborted ∨ (m.effectOf config t d).aborts = some (k, e) := by
  obtain hold | hnew := Findings.mem_aborted_or_of_mem_note h
  · exact .inl hold
  · obtain hkill | hsame := Flow.ofTransfer_eq_kill_or m (m.rules config) f t
    · simp [hkill, Flow.apply] at hnew
    · rw [hsame] at hnew
      exact .inr hnew

/-- A procedure that was given up stays so. -/
theorem exists_mem_aborted_flow (h : ∃ e, (k, e) ∈ f.aborted) :
    ∃ e, (k, e) ∈ ((m.taintProblem config).flow t d f).2.aborted :=
  Findings.exists_mem_aborted_note_iff.mpr (.inl h)

/-- After taint has decided a branch whose region has no end, its procedure is given up, also if
that was so before. -/
theorem exists_mem_aborted_flow_of_decides {s : Nat} {condition : Value}
    (hproc : m.procOf? b = some k)
    (hrule : m.rule? config b = some (.branch condition (.unclosed e)))
    (hdecides : Flow.decides m b condition d = true) :
    ∃ e, (k, e) ∈ ((m.taintProblem config).flow (.normal b s) d f).2.aborted := by
  cases haborted : f.isAborted m b with
  | true =>
    obtain ⟨k', e', hproc', hmem⟩ := Findings.isAborted_iff.mp haborted
    obtain rfl := Option.some.inj (hproc.symm.trans hproc')
    exact exists_mem_aborted_flow ⟨e', hmem⟩
  | false =>
    refine Findings.exists_mem_aborted_note_iff.mpr (.inr ⟨e, ?_⟩)
    have hflow : Flow.ofTransfer m (m.rules config) f (.normal b s) =
        m.flowOf config (.normal b s) := by
      simp [flowOf_normal, Flow.ofTransfer, haborted]
    rw [hflow]
    exact aborts_effectOf_iff.mpr ⟨b, s, condition, rfl, hproc, hrule, hdecides⟩

/-! ## Runs -/

/-- A fact that a run has recorded decides a branch whose region has no end, in the procedure at a
position. -/
def Decided (m : Program) (config : Config) (run : Run Nat Fact Findings) (k : Nat)
    (e : RegionError) : Prop :=
  ∃ b s condition d, (b, .normal s) ∈ m.supergraph.links ∧ m.procOf? b = some k ∧
    m.rule? config b = some (.branch condition (.unclosed e)) ∧ d ∈ run.factsAt b ∧
    Flow.decides m b condition d = true

variable {run : Run Nat Fact Findings}

/-- A run gives up a procedure only where a recorded fact decides a branch. -/
theorem PartialRun.decided_of_mem_aborted (h : m.PartialRun config run)
    (hmem : (k, e) ∈ run.store.aborted) : m.Decided config run k e := by
  obtain ⟨done, hscheduled⟩ := h
  have hrecorded : ∀ edge ∈ done, edge ∈ run.edges := fun edge hedge =>
    Array.mem_def.mpr (hscheduled.subperm_edges.subset hedge)
  -- Every entry was made when a path edge was followed, which is still recorded.
  refine hscheduled.keeps_store
    (I := fun f => ∀ k e, (k, e) ∈ f.aborted → m.Decided config run k e) ?_ ?_ (by simp) k e hmem
  · intro t d f ht hf k e hmem
    obtain hold | hnew := mem_aborted_or_of_mem_flow hmem
    · exact hf k e hold
    · obtain ⟨b, s, -, rfl, -⟩ := aborts_effectOf_iff.mp hnew
      exact absurd rfl (ht b s)
  · intro edge hedge s hlink f hf k e hmem
    obtain hold | hnew := mem_aborted_or_of_mem_flow hmem
    · exact hf k e hold
    · obtain ⟨b, s', condition, heq, hproc, hrule, hdecides⟩ := aborts_effectOf_iff.mp hnew
      obtain ⟨rfl, rfl⟩ := Transfer.normal.inj heq
      exact ⟨edge.node, s, condition, edge.fact, hlink, hproc, hrule,
        hscheduled.mem_factsAt.mpr ⟨edge.source, hrecorded edge hedge⟩, hdecides⟩

/-- Where a recorded fact decides a branch, a finished run has given up the procedure: either the
branch did it when the fact was followed, or it had happened before. -/
theorem FinishedRun.exists_mem_aborted_of_decided (h : m.FinishedRun config run)
    (hdecided : m.Decided config run k e) : ∃ e, (k, e) ∈ run.store.aborted := by
  obtain ⟨done, hscheduled, hall⟩ := h
  obtain ⟨b, s, condition, d, hlink, hproc, hrule, hd, hdecides⟩ := hdecided
  obtain ⟨source, hedge⟩ := hscheduled.mem_factsAt.mp hd
  exact hscheduled.establishes_store (I := fun f => ∃ e, (k, e) ∈ f.aborted)
    (fun t d f hf => exists_mem_aborted_flow hf) (hall _ hedge) hlink
    fun f => exists_mem_aborted_flow_of_decides hproc hrule hdecides

/-- A branch that a recorded fact decides stops its procedure. Implicit flows are followed then. -/
theorem PartialRun.exists_stoppedBy_of_decided (hm : m.WellFormed) (h : m.PartialRun config run)
    (hdecided : m.Decided config run k e) : config.implicitFlows = true ∧
      ∃ p b, m.procedure? k = some p ∧ m.StoppedBy config run p b e := by
  obtain ⟨b, s, condition, d, hlink, hproc, hrule, hd, hdecides⟩ := hdecided
  obtain ⟨hflows, hcondition, p, hp, hunclosed⟩ := hm.rule?_eq_unclosed_iff.mp hrule
  obtain ⟨source, hedge⟩ := h.mem_factsAt.mp hd
  have hshaped := (hm.shaped_of_entailed (h.entailed hm hedge)).2
  refine ⟨hflows, p, b, by simpa [procedureOf?, hproc] using hp, hp, ⟨s, hlink⟩, hunclosed,
    eq_noMergeBlock_of_mem_regions hp hunclosed, condition, hcondition, ?_⟩
  obtain rfl | ⟨v, label, rfl, hlabel⟩ := eq_of_decides hshaped hdecides
  · exact .inl hd
  · exact .inr ⟨v, label, hd, hlabel⟩

/-- If implicit flows are followed, a branch that stops its procedure is decided by a recorded
fact. -/
theorem StoppedBy.exists_decided (hm : m.WellFormed) (hflows : config.implicitFlows = true)
    {p : Procedure} (h : m.StoppedBy config run p b e) :
    ∃ k, m.procedure? k = some p ∧ m.Decided config run k e := by
  obtain ⟨k, hproc, hp⟩ := Option.bind_eq_some_iff.mp h.procedure
  obtain ⟨s, hlink⟩ := h.goesOn
  obtain ⟨condition, hcondition, htainted⟩ := h.tainted
  have hrule : m.rule? config b = some (.branch condition (.unclosed e)) :=
    hm.rule?_eq_unclosed_iff.mpr ⟨hflows, hcondition, p, h.procedure, h.unclosed⟩
  refine ⟨k, hp, b, s, condition, ?_⟩
  obtain hd | ⟨v, label, hd, hlabel⟩ := htainted
  · exact ⟨_, hlink, hproc, hrule, hd, decides_value⟩
  · exact ⟨_, hlink, hproc, hrule, hd, decides_branch_iff.mpr hlabel⟩

end Program

open Program

/-- If implicit flows are followed, then a run of the analysis that comes to an end, in whatever
order it does its work, has given up exactly the procedures with a branch whose region has no end
and before which the run has recorded that the condition is tainted, or that a region is open which
does not end with the block of the branch. The reported reason is that of such a branch. If implicit
flows are not followed, no procedure is given up at any time. -/
theorem mem_abortedNames_iff_stoppedBy {m : Program} (hm : m.Built) (config : Config) :
    (config.implicitFlows = true → ∀ run, m.FinishedRun config run → ∀ name,
      ((∃ e, (name, e) ∈ run.store.abortedNames m) ↔
        ∃ p b e, p.name = name ∧ m.StoppedBy config run p b e) ∧
      ∀ e, (name, e) ∈ run.store.abortedNames m →
        ∃ p b, p.name = name ∧ m.StoppedBy config run p b e) ∧
    (config.implicitFlows = false → ∀ run, m.PartialRun config run → run.store.aborted = []) := by
  have hwf := hm.wellFormed
  refine ⟨fun hflows run hrun name => ?_, fun hflows run hrun => ?_⟩
  · have hpartial : m.PartialRun config run := hrun.imp fun _ h => h.1
    have hreported : ∀ e, (name, e) ∈ run.store.abortedNames m →
        ∃ p b, p.name = name ∧ m.StoppedBy config run p b e := by
      intro e hmem
      obtain ⟨k, p, haborted, hp, hname⟩ := Findings.exists_of_mem_abortedNames hmem
      have hdecided := hpartial.decided_of_mem_aborted haborted
      obtain ⟨-, p', b, hp', hstopped⟩ := hpartial.exists_stoppedBy_of_decided hwf hdecided
      obtain rfl := Option.some.inj (hp.symm.trans hp')
      exact ⟨p, b, hname, hstopped⟩
    refine ⟨⟨fun ⟨e, hmem⟩ => ?_, ?_⟩, hreported⟩
    · obtain ⟨p, b, hname, hstopped⟩ := hreported e hmem
      exact ⟨p, b, e, hname, hstopped⟩
    · rintro ⟨p, b, e, rfl, hstopped⟩
      obtain ⟨k, hp, hdecided⟩ := hstopped.exists_decided hwf hflows
      obtain ⟨e', haborted⟩ := hrun.exists_mem_aborted_of_decided hdecided
      exact Findings.exists_mem_abortedNames haborted hp
  · refine List.eq_nil_iff_forall_not_mem.mpr fun entry hmem => ?_
    have hdecided := hrun.decided_of_mem_aborted (k := entry.1) (e := entry.2) hmem
    simpa [hflows] using (hrun.exists_stoppedBy_of_decided hwf hdecided).1

/-- Two procedures that branch to blocks which never merge. The one branches on a constant, the
other on a value from a source, which it has passed to the first one. -/
def Program.unmergedBranches : Program :=
  constructed "unmerged"
    [.define "choose" [.int 32] .void false, .block "entry", .block "left", .block "right",
      .positionAt 0, .emit (.branch (.int 1) 1 2) .void, .positionAt 1, .emit (.ret none) .void,
      .positionAt 2, .emit (.ret none) .void,
      .define "main" [] .void false, .block "entry", .block "left", .block "right",
      .positionAt 0, .emit (.call (.direct "getenv") []) .void,
      .emit (.call (.direct "choose") [.result 3]) .void, .emit (.branch (.result 3) 1 2) .void,
      .positionAt 1, .emit (.ret none) .void, .positionAt 2, .emit (.ret none) .void]

/-- The run in the order of the solver. -/
def Program.unmergedBranchesRun (implicitFlows : Bool) : Run Nat Fact Findings :=
  unmergedBranches.limitedRun { implicitFlows } 30

/-- Only the procedure that branches on the tainted value is given up. The other one has a tainted
parameter, but its branch does not depend on it. -/
theorem mem_abortedNames_iff_stoppedBy_unmergedBranches :
    (unmergedBranchesRun true).isComplete = true ∧
      (unmergedBranchesRun true).store.abortedNames unmergedBranches =
        [("main", .noMergeBlock "main" "entry" 5)] ∧
      (∃ p b, p.name = "main" ∧ unmergedBranches.StoppedBy {} (unmergedBranchesRun true) p b
        (.noMergeBlock "main" "entry" 5)) ∧
      (¬∃ p b e, p.name = "choose" ∧
        unmergedBranches.StoppedBy {} (unmergedBranchesRun true) p b e) ∧
      (unmergedBranchesRun false).store.aborted = [] := by
  have hbuilt : unmergedBranches.Built := built_constructed _ _
  have hcomplete : (unmergedBranchesRun true).isComplete = true := by decide +kernel
  have hnames : (unmergedBranchesRun true).store.abortedNames unmergedBranches =
      [("main", .noMergeBlock "main" "entry" 5)] := by decide +kernel
  have hon := (mem_abortedNames_iff_stoppedBy hbuilt {}).1 rfl (unmergedBranchesRun true)
    (Run.finished_of_isComplete hcomplete)
  have hoff := (mem_abortedNames_iff_stoppedBy hbuilt { implicitFlows := false }).2 rfl _
    (unmergedBranches.partialRun_limitedRun _ 30)
  refine ⟨hcomplete, hnames, (hon "main").2 _ ?_, mt (hon "choose").1.mpr ?_, hoff⟩
  · exact hnames ▸ List.mem_cons_self
  · rintro ⟨e, hmem⟩
    rw [hnames] at hmem
    simp at hmem

end TaintTrail
