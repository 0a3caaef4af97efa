import TaintTrail.Proofs.Flow.Arises
import TaintTrail.Proofs.Location.Alphabet

/-!
# Vocabularies of facts

The facts that a program can give rise to are made of finitely many values, labels, frames, types
and indices: those that stand in the program. Only the lengths of locations are not bounded by it.
-/

namespace TaintTrail

/-- What facts are made of. -/
structure Vocabulary extends Alphabet where
  values : List Value
  labels : List String
  /-- The locations that operands point at. -/
  resolved : List Location
  /-- The number of arguments of a call at most. -/
  arity : Nat
  spells_resolved : ∀ l ∈ resolved, toAlphabet.Spells l

namespace Vocabulary

variable {V : Vocabulary}

/-- A fact over the vocabulary. -/
structure Says (V : Vocabulary) (d : Fact) : Prop where
  value : ∀ v, d.subject = .value v → v ∈ V.values
  memory : ∀ l, d.subject = .memory l → V.Spells l
  argIndex : ∀ i, d.argIndex = some i → i ≤ V.arity
  cursor : ∀ i, d.cursor = some i → i ≤ V.arity
  list : ∀ l, d.list = some l → l ∈ V.resolved
  returnSkip : d.returnSkip = none
  endLabel : ∀ label, d.endLabel = some label → label ∈ V.labels

/-- Every vocabulary has the fact that taints nothing. -/
theorem says_zero (V : Vocabulary) : V.Says .zero := by
  constructor <;> simp [Fact.zero]

/-- A value of the vocabulary makes a fact. -/
theorem says_value {v : Value} (h : v ∈ V.values) : V.Says (.value v) := by
  constructor <;> simp [Fact.value, h]

/-- A location over the alphabet makes a fact. -/
theorem says_memory {l : Location} (h : V.Spells l) : V.Says (.memory l) := by
  constructor <;> simp [Fact.memory, h]

/-- A value and the label that its region ends at make a fact. -/
theorem says_branch {v : Value} {label : String} (hv : v ∈ V.values) (hlabel : label ∈ V.labels) :
    V.Says (.branch v label) := by
  constructor <;> simp [Fact.branch, hv, hlabel]

/-- A location and a position among the arguments make a fact. -/
theorem says_varArg {l : Location} {i : Nat} (hl : V.Spells l) (hi : i ≤ V.arity) :
    V.Says (.varArg l i) := by
  constructor <;> simp [Fact.varArg, hl, hi]

/-- The tainted memory of a fact is over the alphabet. -/
theorem Says.spells_plainLocation {d : Fact} {l : Location} (hd : V.Says d)
    (hl : d.plainLocation? = some l) : V.Spells l := by
  unfold Fact.plainLocation? Fact.location? at hl
  split at hl
  · simp at hl
  · split at hl
    · next l' hsubject => exact Option.some.inj hl ▸ hd.memory l' hsubject
    · simp at hl

/-- Optional things from a finite set are finitely many. -/
theorem finite_option {α : Type} {S : Set α} (hS : S.Finite) :
    {o : Option α | ∀ a, o = some a → a ∈ S}.Finite := by
  refine ((hS.image some).insert none).subset fun o ho => ?_
  cases o with
  | none => exact Set.mem_insert _ _
  | some a => exact Set.mem_insert_of_mem _ ⟨a, ho a rfl, rfl⟩

/-- The facts over a vocabulary whose locations are not longer than a bound are finitely many. -/
theorem finite_says (V : Vocabulary) (n : Nat) :
    {d : Fact | V.Says d ∧ ∀ l, d.location? = some l → l.length ≤ n}.Finite := by
  have hsubjects : ({.zero} ∪ Subject.value '' {v | v ∈ V.values} ∪
      Subject.memory '' {l | V.Spells l ∧ l.length ≤ n}).Finite :=
    ((Set.finite_singleton _).union ((List.finite_toSet V.values).image _)).union
      ((V.finite_spells n).image _)
  have hcounts := finite_option (Set.finite_le_nat V.arity)
  have hlists := finite_option (List.finite_toSet V.resolved)
  have hlabels := finite_option (List.finite_toSet V.labels)
  refine ((hsubjects.prod (hcounts.prod (hcounts.prod (hlists.prod hlabels)))).image
    fun (subject, argIndex, cursor, list, endLabel) =>
      ({ subject, argIndex, cursor, list, endLabel } : Fact)).subset ?_
  rintro ⟨subject, argIndex, cursor, list, returnSkip, endLabel⟩ ⟨hd, hn⟩
  obtain rfl : returnSkip = none := hd.returnSkip
  refine ⟨(subject, argIndex, cursor, list, endLabel),
    ⟨?_, hd.argIndex, hd.cursor, hd.list, hd.endLabel⟩, rfl⟩
  cases subject with
  | zero => exact .inl (.inl rfl)
  | value v => exact .inl (.inr ⟨v, hd.value v rfl, rfl⟩)
  | memory l => exact .inr ⟨l, ⟨hd.memory l rfl, hn l rfl⟩, rfl⟩

end Vocabulary

namespace Program

variable {m : Program} {config : Config}

/-- The operands of all instructions. -/
def operands (m : Program) : List Value :=
  m.instructions.toList.flatMap fun inst => inst.operation.operands

/-- The locations that operands point at. -/
def resolvedOperands (m : Program) : List Location := m.operands.filterMap m.locationOf?

/-- The parameters of all procedures, by number and position. -/
def paramPositions (m : Program) : List (Nat × Nat) :=
  m.procedures.toList.flatMap fun p => (List.range p.params.length).map fun i => (p.id, i)

/-- The labels of all blocks. -/
def labels (m : Program) : List String :=
  m.procedures.toList.flatMap fun p => p.blocks.toList.map (·.label)

/-- What the locations that a program can taint are made of. -/
def alphabet (m : Program) : Alphabet where
  frames := m.resolvedOperands.map (·.frame) ++
    (m.paramPositions.map (fun (proc, i) => .param proc i) ++
      m.procedures.toList.map fun p => .varArgs p.id)
  types := m.resolvedOperands.flatMap fun l => l.steps.flatMap fun s => s.indexed.elements
  indices := .zero :: m.resolvedOperands.flatMap fun l => l.steps.flatMap (·.indices)
  width := (m.resolvedOperands.flatMap fun l => l.steps.map (·.indices.length)).max?.getD 0
  element_mem element length h := by
    simp only [List.mem_flatMap] at h ⊢
    obtain ⟨l, hl, s, hs, h⟩ := h
    exact ⟨l, hl, s, hs, Ty.element_mem_elements h⟩
  zero_mem := List.mem_cons_self

/-- The locations that operands point at are over the alphabet. -/
theorem spells_resolvedOperands {l : Location} (hl : l ∈ m.resolvedOperands) :
    m.alphabet.Spells l := by
  refine ⟨?_, fun s hs => ⟨?_, fun v hv => ?_, ?_⟩⟩
  · exact List.mem_append.mpr (.inl (List.mem_map.mpr ⟨l, hl, rfl⟩))
  · exact List.mem_flatMap.mpr ⟨l, hl, List.mem_flatMap.mpr ⟨s, hs, s.indexed.mem_elements_self⟩⟩
  · exact List.mem_cons_of_mem _
      (List.mem_flatMap.mpr ⟨l, hl, List.mem_flatMap.mpr ⟨s, hs, hv⟩⟩)
  · refine Nat.le_trans (List.le_max?_getD_of_mem ?_) (Nat.le_add_right _ _)
    exact List.mem_flatMap.mpr ⟨l, hl, List.mem_map.mpr ⟨s, hs, rfl⟩⟩

/-- What the facts that a program can give rise to are made of. -/
def vocabulary (m : Program) : Vocabulary where
  toAlphabet := m.alphabet
  values := (List.range m.instructions.size).map .result ++
    m.paramPositions.map fun (proc, i) => .param proc i
  labels := m.labels
  resolved := m.resolvedOperands
  arity := (m.instructions.toList.map fun inst => inst.operation.operands.length).max?.getD 0
  spells_resolved _ hl := spells_resolvedOperands hl

/-- The results of all instructions are in the vocabulary. -/
theorem result_mem_values {n : Nat} {inst : Instruction} (h : m.inst? n = some inst) :
    .result n ∈ m.vocabulary.values := by
  have hn := (Array.getElem?_eq_some_iff.mp h).1
  simp [vocabulary, hn]

/-- The parameters of all procedures have positions. -/
theorem mem_paramPositions {p : Procedure} {i : Nat} (hp : m.procedure? p.id = some p)
    (hi : i < p.params.length) : (p.id, i) ∈ m.paramPositions := by
  refine List.mem_flatMap.mpr ⟨p, by simpa using Array.mem_of_getElem? hp, ?_⟩
  simpa using hi

/-- The parameters of all procedures are values of the vocabulary. -/
theorem param_mem_values {p : Procedure} {i : Nat} (hp : m.procedure? p.id = some p)
    (hi : i < p.params.length) : .param p.id i ∈ m.vocabulary.values :=
  List.mem_append.mpr (.inr (List.mem_map.mpr ⟨(p.id, i), mem_paramPositions hp hi, rfl⟩))

/-- The memory behind every parameter is a frame of the vocabulary. -/
theorem param_mem_frames {p : Procedure} {i : Nat} (hp : m.procedure? p.id = some p)
    (hi : i < p.params.length) : .param p.id i ∈ m.vocabulary.frames :=
  List.mem_append.mpr (.inr (List.mem_append.mpr (.inl
    (List.mem_map.mpr ⟨(p.id, i), mem_paramPositions hp hi, rfl⟩))))

/-- The variable arguments of every procedure are a frame of the vocabulary. -/
theorem varArgs_mem_frames {p : Procedure} (hp : m.procedure? p.id = some p) :
    .varArgs p.id ∈ m.vocabulary.frames :=
  List.mem_append.mpr (.inr (List.mem_append.mpr (.inr
    (List.mem_map.mpr ⟨p, by simpa using Array.mem_of_getElem? hp, rfl⟩))))

/-! ## Rules are over the vocabulary of their program -/

/-- The operands of an instruction are among those of all. -/
theorem mem_operands {n : Nat} {inst : Instruction} {v : Value} (hinst : m.inst? n = some inst)
    (hv : v ∈ inst.operation.operands) : v ∈ m.operands :=
  List.mem_flatMap.mpr ⟨inst, by simpa using Array.mem_of_getElem? hinst, hv⟩

/-- The locations that operands of instructions point at are among the resolved operands. -/
theorem PointsAt.mem_resolvedOperands {n : Nat} {l : Location} (h : m.PointsAt n l) :
    l ∈ m.resolvedOperands := by
  obtain ⟨inst, v, hinst, hv, hl⟩ := h
  exact List.mem_filterMap.mpr ⟨v, mem_operands hinst hv, hl⟩

/-- A location that an operand points at is over the alphabet. -/
theorem PointsAt.spells {n : Nat} {l : Location} (h : m.PointsAt n l) : m.alphabet.Spells l :=
  spells_resolvedOperands h.mem_resolvedOperands

/-- No call has more arguments than the vocabulary has positions. -/
theorem args_length_le_arity {c : Nat} {site : CallSite}
    (hrule : m.rule? config c = some (.call site)) :
    site.args.length ≤ m.vocabulary.arity := by
  obtain ⟨inst, callee, args, hinst, hop, rfl⟩ := eq_callSite_of_rule? hrule
  have hle : args.length ≤ inst.operation.operands.length := by
    cases callee <;> simp [hop, Operation.operands]
  refine hle.trans (List.le_max?_getD_of_mem (List.mem_map.mpr ⟨inst, ?_, rfl⟩))
  simpa using Array.mem_of_getElem? hinst

/-! ## The labels that end regions are labels of blocks -/

/-- The label of a block is among those of all. -/
theorem mem_labels {i : Nat} {p : Procedure} {b : Block} (hp : m.procedure? i = some p)
    (hb : b ∈ p.blocks) : b.label ∈ m.labels := by
  refine List.mem_flatMap.mpr ⟨p, by simpa using Array.mem_of_getElem? hp, ?_⟩
  exact List.mem_map.mpr ⟨b, by simpa using hb, rfl⟩

/-- The label that closes a region is that of a block, by induction on the blocks. -/
theorem exists_block_of_closingLabel? {kinds : List String} {depth : Nat} {blocks : List Block}
    {label : String} (h : m.closingLabel? kinds depth blocks = some label) :
    ∃ b ∈ blocks, b.label = label := by
  induction blocks generalizing depth with
  | nil => simp [closingLabel?] at h
  | cons b rest ih =>
    simp only [closingLabel?] at h
    generalize (if isMergeLabel kinds b.label = true then depth - 1 else depth) = depth' at h
    split at h
    · exact ⟨b, List.mem_cons_self, Option.some.inj h⟩
    · obtain ⟨b', hb', hlabel⟩ := ih h
      exact ⟨b', List.mem_cons_of_mem _ hb', hlabel⟩

/-- The label of a merge target is that of a block. -/
theorem exists_block_of_mergeTarget? {p : Procedure} {kinds : List String} {targets : List Nat}
    {label : String} (h : mergeTarget? p kinds targets = some label) :
    ∃ b ∈ p.blocks, b.label = label := by
  obtain ⟨b, hb, rfl⟩ := Option.map_eq_some_iff.mp h
  obtain ⟨i, -, hi⟩ := List.mem_filterMap.mp (List.mem_of_find?_eq_some hb)
  exact ⟨b, Array.mem_of_getElem? hi, rfl⟩

/-- The label that a region ends at stands in the program. -/
theorem mem_labels_of_regionEnd {kinds : List String} {branch : Nat} {label : String}
    (h : m.regionEnd kinds branch = .ok label) : label ∈ m.labels := by
  unfold regionEnd at h
  split at h
  · simp at h
  split at h
  · simp at h
  next inst _ p hp =>
  split at h
  · dsimp only at h
    split at h
    · next found hfound =>
      obtain rfl := Except.ok.inj h
      obtain hfound | ⟨-, hfound⟩ := Option.or_eq_some_iff.mp hfound
      · obtain ⟨b, hb, rfl⟩ := exists_block_of_mergeTarget? hfound
        exact mem_labels hp hb
      · obtain ⟨first, -, hclosing⟩ := Option.bind_eq_some_iff.mp hfound
        obtain ⟨b, hb, rfl⟩ := exists_block_of_closingLabel? hclosing
        exact mem_labels hp (by simpa using List.mem_of_mem_drop hb)
    · simp at h
  · simp at h

/-- The region of a branch ends at the label computed for the branch. -/
theorem regionEnd_of_regionIn {kinds : List String} {p : Procedure} {branch : Nat} {label : String}
    (h : m.regionIn kinds p branch = .endsAt label) : m.regionEnd kinds branch = .ok label := by
  unfold regionIn at h
  split at h
  · next label' hlookup =>
    obtain rfl := Region.endsAt.inj h
    obtain ⟨before, after, hsplit, -⟩ := List.lookup_eq_some_iff.mp hlookup
    have hmem : (branch, .ok label') ∈ m.regions kinds p := by simp [hsplit]
    obtain ⟨id, -, heq⟩ := List.mem_map.mp hmem
    obtain ⟨rfl, hend⟩ := Prod.mk.inj heq
    exact hend
  · simp at h
  · simp at h

/-- A branch rule belongs to a conditional branch, whose region it knows. -/
theorem branch_of_rule? {n : Nat} {condition : Value} {region : Region}
    (hrule : m.rule? config n = some (.branch condition region)) :
    ∃ inst p, m.inst? n = some inst ∧ inst.operation.isConditional = true ∧
      region = if config.implicitFlows then m.regionIn config.mergeLabels p inst.id
        else .untracked := by
  obtain ⟨inst, p, hinst, heq⟩ := exists_inst_of_rule? hrule
  unfold Rule.ofInstruction at heq
  split at heq <;> simp only [Rule.branch.injEq, reduceCtorEq] at heq
  all_goals
    next hop => exact ⟨inst, p, hinst, by simp [hop, Operation.isConditional], heq.2⟩

/-- The region in the rule of a conditional branch ends at the label computed for the branch. -/
theorem WellFormed.region_of_rule? (hm : m.WellFormed) {n : Nat} {condition : Value}
    {label : String} (hrule : m.rule? config n = some (.branch condition (.endsAt label))) :
    m.isConditional n = true ∧ m.regionEnd config.mergeLabels n = .ok label := by
  obtain ⟨inst, p, hinst, hconditional, hregion⟩ := branch_of_rule? hrule
  refine ⟨by simp [isConditional, operation?, hinst, hconditional], ?_⟩
  split at hregion
  · rw [hm.inst_id n inst hinst] at hregion
    exact regionEnd_of_regionIn hregion.symm
  · simp at hregion

/-! ## What arises from facts over the vocabulary is over the vocabulary -/

/-- What arises from a fact over the vocabulary is over it, one case for each way to arise. -/
theorem WellFormed.says_of_arises (hm : m.WellFormed) {t : Transfer Nat} {d d' : Fact}
    (hlink : m.supergraph.Has t) (h : Arises m config t d d') (hd : m.vocabulary.Says d) :
    m.vocabulary.Says d' := by
  cases h with
  | zero | kept | passed => exact hd
  | computed =>
    obtain ⟨inst, hinst, -⟩ := hm.normal_mem_links_iff.mp hlink
    exact Vocabulary.says_value (result_mem_values hinst)
  | written _ hrule htarget =>
    exact Vocabulary.says_memory (pointsAt_of_written hrule htarget).spells
  | moved matched hl hrule htarget =>
    have hspells := (pointsAt_of_written hrule htarget).spells
    exact Vocabulary.says_memory ((hd.spells_plainLocation hl).rebase hspells matched)
  | opened hrule =>
    obtain ⟨inst, -, hinst, -⟩ := exists_inst_of_rule? hrule
    have hlabel := mem_labels_of_regionEnd (hm.region_of_rule? hrule).2
    exact Vocabulary.says_branch (result_mem_values hinst) hlabel
  | started hrule =>
    refine { hd with cursor := ?_, list := ?_ }
    · rintro i ⟨⟩
      exact Nat.zero_le _
    · rintro l ⟨⟩
      exact (pointsAt_of_vaStart hrule).mem_resolvedOperands
  | advanced _ _ hlt =>
    refine { hd with cursor := ?_ }
    rintro i ⟨⟩
    cases hindex : d.argIndex with
    | none => simp [hindex] at hlt
    | some index =>
      have hle := hd.argIndex index hindex
      rw [hindex, Option.getD_some] at hlt
      omega
  | copied hrule =>
    refine { hd with list := ?_ }
    rintro l ⟨⟩
    exact (pointsAt_of_vaCopy hrule).mem_resolvedOperands
  | param _ hcallee hi =>
    exact Vocabulary.says_value (param_mem_values (hm.procedure?_of_callTarget? hcallee).1 hi)
  | varArg _ hrule hcallee _ hi =>
    have hframe := varArgs_mem_frames (hm.procedure?_of_callTarget? hcallee).1
    have hle := args_length_le_arity hrule
    exact Vocabulary.says_varArg (Alphabet.spells_ofFrame hframe) (by omega)
  | below hl hrule hcallee _ hi hsteps =>
    have hframe := param_mem_frames (hm.procedure?_of_callTarget? hcallee).1 hi
    exact Vocabulary.says_memory ⟨hframe, (hd.spells_plainLocation hl).stepsBelow? hsteps⟩
  | around _ hcallee hi =>
    have hframe := param_mem_frames (hm.procedure?_of_callTarget? hcallee).1 hi
    exact Vocabulary.says_memory (Alphabet.spells_ofFrame hframe)
  | returned =>
    obtain ⟨site, -, hrule, -⟩ := hm.outcomes_ret_of_has config hlink
    obtain ⟨inst, -, hinst, -⟩ := exists_inst_of_rule? hrule
    exact Vocabulary.says_value (result_mem_values hinst)
  | landed matched hl hrule htarget =>
    obtain ⟨n, hpoints, -⟩ := hm.exists_pointsAt_of_resultLocation hrule htarget
    exact Vocabulary.says_memory ((hd.spells_plainLocation hl).rebase hpoints.spells matched)
  | outParam hl hrule harg =>
    have hspells := (pointsAt_of_argLocation? hrule harg).spells
    exact Vocabulary.says_memory (hspells.graft (hd.spells_plainLocation hl).steps)
  | result hrule =>
    obtain ⟨inst, -, hinst, -⟩ := exists_inst_of_rule? hrule
    exact Vocabulary.says_value (result_mem_values hinst)
  | filled hrule _ harg =>
    exact Vocabulary.says_memory (pointsAt_of_argLocation? hrule harg).spells.filled

/-- The facts of entailed path edges are over the vocabulary of the program. -/
theorem WellFormed.says_of_entailed (hm : m.WellFormed) {e : PathEdge Nat Fact}
    (he : Entailed (m.taintProblem config) m.supergraph (m.outcomes config) e) :
    m.vocabulary.Says e.source ∧ m.vocabulary.Says e.fact := by
  refine he.forall_facts (Vocabulary.says_zero _) (fun n d hseed => ?_) fun t d d' hlink hd h => ?_
  · exact eq_zero_of_mem_seeds hseed ▸ Vocabulary.says_zero _
  · exact hm.says_of_arises hlink (hm.arises hlink h) hd

end Program

end TaintTrail
