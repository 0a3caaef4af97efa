import TaintTrail.Proofs.Analysis.Run
import TaintTrail.Proofs.Flow.Vocabulary
import TaintTrail.Proofs.Tabulation.Limit

/-!
# Termination

A program gives rise to facts over a finite vocabulary, but nothing bounds the lengths of their
locations. An analysis comes to an end, whatever the limit, exactly if its locations stay short.
Storing a pointer into a field of the object that it points at, again and again, makes them grow
for ever.
-/

namespace TaintTrail

open Program

/-- No location in a path edge of the run is longer. -/
def Run.LengthsLe (run : Run Nat Fact Findings) (bound : Nat) : Prop :=
  ∀ e ∈ run.edges, ∀ d ∈ [e.source, e.fact], ∀ l, d.location? = some l → l.length ≤ bound

/-- One run has only so many locations. -/
theorem Run.exists_lengthsLe (run : Run Nat Fact Findings) : ∃ bound, run.LengthsLe bound := by
  refine ⟨(run.edges.toList.flatMap fun e => [e.source, e.fact].filterMap fun d =>
    d.location?.map (·.length)).max?.getD 0, fun e he d hd l hl => ?_⟩
  refine List.le_max?_getD_of_mem (List.mem_flatMap.mpr ⟨e, by simpa using he, ?_⟩)
  exact List.mem_filterMap.mpr ⟨d, hd, by simp [hl]⟩

variable {m : Program} {config : Config}

/-- The path edges that a run can record while no location is longer than a bound. -/
def Program.boundedEdges (m : Program) (config : Config) (bound : Nat) : Set (PathEdge Nat Fact) :=
  {e | e.node ∈ (m.taintProblem config).seeds.map (·.1) ++ m.supergraph.links.map (·.2.target) ∧
    ∀ d ∈ [e.source, e.fact], m.vocabulary.Says d ∧ ∀ l, d.location? = some l → l.length ≤ bound}

/-- There are finitely many path edges with locations of a bounded length. -/
theorem Program.finite_boundedEdges (m : Program) (config : Config) (bound : Nat) :
    (m.boundedEdges config bound).Finite := by
  have hfacts := m.vocabulary.finite_says bound
  have hnodes := List.finite_toSet
    ((m.taintProblem config).seeds.map (·.1) ++ m.supergraph.links.map (·.2.target))
  refine ((hfacts.prod (hnodes.prod hfacts)).image fun (source, node, fact) =>
    (⟨source, node, fact⟩ : PathEdge Nat Fact)).subset ?_
  rintro ⟨source, node, fact⟩ ⟨hnode, hd⟩
  exact ⟨(source, node, fact), ⟨hd source (by simp), hnode, hd fact (by simp)⟩, rfl⟩

/-- A run whose locations stay short records path edges from a finite set. -/
theorem Program.mem_boundedEdges (hm : m.WellFormed) {limit bound : Nat}
    (hbound : (m.limitedRun config limit).LengthsLe bound) {e : PathEdge Nat Fact}
    (he : e ∈ (m.limitedRun config limit).edges) : e ∈ m.boundedEdges config bound := by
  have hentailed := entailed_of_mem_limitedRun hm he
  have hsays := hm.says_of_entailed hentailed
  refine ⟨hentailed.node_mem, fun d hd => ⟨?_, hbound e he d hd⟩⟩
  obtain rfl | rfl := List.mem_pair.mp hd
  · exact hsays.1
  · exact hsays.2

/-- The analysis of a program comes to an end under some limit exactly if there is a bound on the
lengths of the locations that it records, whatever the limit. -/
theorem exists_isComplete_iff_lengthsLe {m : Program} (hm : m.Built) (config : Config) :
    (∃ limit, (m.limitedRun config limit).isComplete = true) ↔
      ∃ bound, ∀ limit, (m.limitedRun config limit).LengthsLe bound := by
  constructor
  · rintro ⟨limit, hcomplete⟩
    obtain ⟨bound, hbound⟩ := (m.limitedRun config limit).exists_lengthsLe
    exact ⟨bound, fun limit' e he => hbound e (Run.mem_edges_of_isComplete hcomplete he)⟩
  · rintro ⟨bound, hbound⟩
    have hfinite := m.finite_boundedEdges config bound
    refine ⟨hfinite.toFinset.card, Run.isComplete_solve_card hfinite.toFinset fun e he => ?_⟩
    rw [Set.Finite.mem_toFinset]
    exact mem_boundedEdges hm.wellFormed (hbound _) he

/-- The locations of the program that branches on a source stay short. -/
theorem exists_isComplete_iff_lengthsLe_branchOnSource :
    ∃ bound, ∀ limit, (branchOnSource.limitedRun {} limit).LengthsLe bound := by
  refine (exists_isComplete_iff_lengthsLe (built_constructed _ _) {}).mp ⟨100, ?_⟩
  decide +kernel

/-! ## An object that is linked to itself -/

/-- A tainted object, whose address is stored into a field of the object in a loop. -/
def Program.selfLink : Program :=
  constructed "selfLink"
    [.layout "S" false [.int 32, .pointer (.struct "S")], .define "main" [] .void false,
      .block "entry", .block "loop", .positionAt 0, .emit (.alloca (.struct "S")) .void,
      .emit (.call (.direct "getenv") []) .void, .emit (.store (.result 1) (.result 0)) .void,
      .emit (.jump 1) .void, .positionAt 1, .emit (.member (.struct "S") (.result 0) 1) .void,
      .emit (.store (.result 0) (.result 4)) .void, .emit (.jump 1) .void]

/-- The field of the field and so on of the object. -/
def Program.selfLinkPath (depth : Nat) : Location :=
  ⟨.stack 0, List.replicate depth ⟨.struct "S", [.zero, .int 1]⟩⟩

/-- No procedure of the program with a link to itself is given up. -/
theorem Program.not_givesUp_selfLink (t : Transfer Nat) (d : Fact) :
    ¬selfLink.GivesUp {} t d := by
  intro h
  obtain ⟨n, target, condition, e, rfl, hrule⟩ := exists_unclosed_of_givesUp h
  obtain ⟨inst, p, hinst, hconditional, -⟩ := branch_of_rule? hrule
  have hnone : ∀ inst ∈ selfLink.instructions, inst.operation.isConditional = false := by
    decide +kernel
  simp [hnone inst (Array.mem_of_getElem? hinst)] at hconditional

/-- Tainted memory goes on along a link of the program by the rule of the instruction. -/
theorem Program.entailed_selfLink {n t : Nat} {rule : Rule} {l : Location} {d : Fact}
    (he : Entailed (selfLink.taintProblem {}) selfLink.supergraph (selfLink.outcomes {})
      ⟨.zero, n, .memory l⟩)
    (hlink : (n, .normal t) ∈ selfLink.supergraph.links)
    (hrule : selfLink.rule? {} n = some rule) (hd : d ∈ rule.apply (.result n) (.memory l)) :
    Entailed (selfLink.taintProblem {}) selfLink.supergraph (selfLink.outcomes {})
      ⟨.zero, t, d⟩ := by
  obtain ⟨inst, -, hinst, -⟩ := exists_inst_of_rule? hrule
  refine he.normal hlink ?_
  rw [outcomes_normal hinst hrule (not_givesUp_selfLink _ _)]
  exact hd

/-- Storing the address of the object into its field moves tainted memory below the field. -/
theorem Program.selfLinkPath_mem_store (depth : Nat) :
    .memory (selfLinkPath (depth + 1)) ∈
      (Rule.store (.result 0) (some (selfLinkPath 0)) (some (selfLinkPath 1))).apply (.result 5)
        (.memory (selfLinkPath depth)) := by
  have hplain : (Fact.memory (selfLinkPath depth)).plainLocation? = some (selfLinkPath depth) := rfl
  have hmoved : (selfLinkPath depth).stored? (selfLinkPath 0) (selfLinkPath 1) =
      some (selfLinkPath (depth + 1)) := by
    simp [Location.stored?, selfLinkPath, Location.contains, Step.isBeginning, Location.rebase,
      Location.length, List.replicate_succ]
  have hvalue : ¬(Fact.memory (selfLinkPath depth)).isPlainValue (.result 0) = true := by
    simp [Fact.isPlainValue, Fact.value?, Fact.memory]
  simp only [Rule.apply, if_neg hvalue, Rule.overwriting, hplain]
  simp [hmoved]

/-- Each round of the loop taints the field below the one that was tainted before. -/
theorem Program.entailed_selfLinkPath (depth : Nat) :
    Entailed (selfLink.taintProblem {}) selfLink.supergraph (selfLink.outcomes {})
      ⟨.zero, 4, .memory (selfLinkPath depth)⟩ := by
  induction depth with
  | zero =>
    have hmem : ⟨.zero, 4, .memory (selfLinkPath 0)⟩ ∈ (selfLink.limitedRun {} 10).edges := by
      decide +kernel
    exact entailed_of_mem_limitedRun (built_constructed _ _).wellFormed hmem
  | succ depth ih =>
    have hrule₄ : selfLink.rule? {} 4 = some (.compute [.result 0, .int 0, .int 1]) := by
      decide +kernel
    have hrule₅ : selfLink.rule? {} 5 =
        some (.store (.result 0) (some (selfLinkPath 0)) (some (selfLinkPath 1))) := by
      decide +kernel
    have hrule₆ : selfLink.rule? {} 6 = some .keep := by decide +kernel
    have hlink₄ : (4, .normal 5) ∈ selfLink.supergraph.links := by decide +kernel
    have hlink₅ : (5, .normal 6) ∈ selfLink.supergraph.links := by decide +kernel
    have hlink₆ : (6, .normal 4) ∈ selfLink.supergraph.links := by decide +kernel
    have hat₅ := entailed_selfLink ih hlink₄ hrule₄ (Rule.mem_producing.mpr (.inl rfl))
    have hat₆ := entailed_selfLink hat₅ hlink₅ hrule₅ (selfLinkPath_mem_store depth)
    exact entailed_selfLink hat₆ hlink₆ hrule₆ (List.mem_singleton.mpr rfl)

/-- No limit is high enough for the program that links an object to itself. -/
theorem isComplete_selfLink_eq_false :
    selfLink.Built ∧ ∀ limit, (selfLink.limitedRun {} limit).isComplete = false := by
  have hbuilt : selfLink.Built := built_constructed _ _
  refine ⟨hbuilt, fun limit => Bool.eq_false_iff.mpr fun hcomplete => ?_⟩
  have hfinished : selfLink.FinishedRun {} (selfLink.limitedRun {} limit) :=
    Run.finished_of_isComplete hcomplete
  have hquiet := (hfinished.aborted_eq_nil_iff hbuilt.wellFormed).mpr
    fun t d _ => not_givesUp_selfLink t d
  obtain ⟨bound, hbound⟩ := (selfLink.limitedRun {} limit).exists_lengthsLe
  have hfact := (hfinished.mem_factsAt hbuilt.wellFormed hquiet).mpr
    ⟨_, entailed_selfLinkPath bound⟩
  obtain ⟨source, hedge⟩ := (selfLink.partialRun_limitedRun {} limit).mem_factsAt.mp hfact
  have hlength := hbound _ hedge (.memory (selfLinkPath bound)) (by simp) (selfLinkPath bound) rfl
  rw [Location.length, selfLinkPath, List.length_replicate] at hlength
  omega

end TaintTrail
