import TaintTrail.Proofs.Flow.Problem
import TaintTrail.Proofs.Supergraph.OfProgram

/-!
# The rules of a well-formed program

In a well-formed program every instruction has a rule, which belongs to its own procedure. The flow
functions of transfers along links are then determined by the rules of the two instructions.
-/

namespace TaintTrail

/-- The address that the operation writes memory at. -/
def Operation.writtenAddress? : Operation → Option Value
  | .store _ address => some address
  | .copy target _ _ => some target
  | .fill target _ _ => some target
  | _ => none

/-- The address that an operation writes at is one of its operands. -/
theorem Operation.mem_operands_of_writtenAddress? {operation : Operation} {address : Value}
    (h : operation.writtenAddress? = some address) : address ∈ operation.operands := by
  cases operation <;> simp_all [writtenAddress?, operands]

/-- Whether the rule is that of an instruction which computes a result from what it uses. -/
def Rule.givesResult : Rule → Bool
  | .load .. | .compute _ | .phi .. | .vaArg _ | .call _ => true
  | _ => false

/-- The memory that an instruction writes is what the address points at. -/
theorem Rule.written?_ofInstruction (m : Program) (config : Config) (p : Procedure)
    (inst : Instruction) : (ofInstruction m config p inst).written? =
      inst.operation.writtenAddress?.bind m.locationOf? := by
  unfold ofInstruction
  split <;> simp_all [written?, Operation.writtenAddress?]

namespace Program

variable {m : Program} {config : Config}

/-- The table of rules holds the rule of each instruction. -/
theorem rules_getElem?_join (m : Program) (config : Config) (id : Nat) :
    (m.rules config)[id]?.join = m.rule? config id := by
  unfold rules
  by_cases hid : id < m.instructions.size
  · simp [hid]
  · have hnone : m.inst? id = none := by simpa [inst?] using hid
    simp [hid, rule?, hnone]

/-- A rule is that of the instruction at its position. -/
theorem exists_inst_of_rule? {n : Nat} {rule : Rule} (h : m.rule? config n = some rule) :
    ∃ inst p, m.inst? n = some inst ∧ rule = Rule.ofInstruction m config p inst := by
  simp only [rule?, Option.bind_eq_bind, Option.bind_eq_some_iff, Option.some.injEq] at h
  obtain ⟨inst, hinst, p, -, rfl⟩ := h
  exact ⟨inst, p, hinst, rfl⟩

/-- Every instruction has a rule, of its own procedure. -/
theorem WellFormed.rule?_eq (hm : m.WellFormed) (config : Config) {n : Nat} {inst : Instruction}
    (hinst : m.inst? n = some inst) : ∃ p, m.procedure? inst.proc = some p ∧
      m.rule? config n = some (Rule.ofInstruction m config p inst) := by
  obtain ⟨b, hat⟩ := Option.isSome_iff_exists.mp (hm.block_isSome n inst hinst)
  obtain ⟨p, hp, -⟩ := blockAt?_eq_some.mp hat
  refine ⟨p, hp, ?_⟩
  have hlister : m.lister? n = some p := by
    cases hfind : m.lister? n with
    | none =>
      have hmem : p ∈ m.procedures.toList.reverse := by simpa using Array.mem_of_getElem? hp
      have hnot := List.find?_eq_none.mp hfind p hmem
      simp [(hm.mem_procedure_insts_iff hp).mpr ⟨inst, hinst, rfl⟩] at hnot
    | some q =>
      have hq : q ∈ m.procedures := by simpa using List.mem_of_find?_eq_some hfind
      obtain ⟨i, hi⟩ := Array.mem_iff_getElem?.mp hq
      have hlists : n ∈ q.insts := by simpa using List.find?_some hfind
      obtain ⟨inst', hinst', rfl⟩ := (hm.mem_procedure_insts_iff hi).mp hlists
      obtain rfl := Option.some.inj (hinst.symm.trans hinst')
      rw [← hp]
      exact hi.symm
  simp [rule?, hinst, hlister]

/-- A call has the rule of a call. -/
theorem WellFormed.rule?_of_isCall (hm : m.WellFormed) (config : Config) {c : Nat}
    {operation : Operation} (hop : m.operation? c = some operation) (hcall : operation.IsCall) :
    ∃ site, m.rule? config c = some (.call site) := by
  obtain ⟨inst, hinst, rfl⟩ := operation?_eq_some.mp hop
  obtain ⟨callee, args, hcall⟩ := hcall
  obtain ⟨p, -, hrule⟩ := hm.rule?_eq config hinst
  exact ⟨_, by rw [hrule, Rule.ofInstruction, hcall]⟩

/-- A return has the rule of a return. -/
theorem WellFormed.rule?_of_isReturn (hm : m.WellFormed) (config : Config) {x : Nat}
    {inst : Instruction} (hinst : m.inst? x = some inst)
    (hret : inst.operation.isReturn = true) : ∃ exit, m.rule? config x = some (.ret exit) := by
  obtain ⟨p, -, hrule⟩ := hm.rule?_eq config hinst
  cases hop : inst.operation with
  | ret value => exact ⟨_, by rw [hrule, Rule.ofInstruction, hop]⟩
  | _ => simp [hop, Operation.isReturn] at hret

/-- Only calls have the rule of a call. -/
theorem eq_callSite_of_rule? {c : Nat} {site : CallSite}
    (h : m.rule? config c = some (.call site)) :
    ∃ inst callee args, m.inst? c = some inst ∧ inst.operation = .call callee args ∧
      site = .ofInstruction m config inst args := by
  obtain ⟨inst, p, hinst, hrule⟩ := exists_inst_of_rule? h
  unfold Rule.ofInstruction at hrule
  split at hrule <;> cases hrule
  next callee args hop => exact ⟨inst, callee, args, hinst, hop, rfl⟩

/-- The number of a call site is the position of the call. -/
theorem WellFormed.callSite_call (hm : m.WellFormed) {c : Nat} {site : CallSite}
    (h : m.rule? config c = some (.call site)) : site.call = c := by
  obtain ⟨inst, callee, args, hinst, -, rfl⟩ := eq_callSite_of_rule? h
  exact hm.inst_id c inst hinst

/-- Only returns have the rule of a return. -/
theorem eq_exitSite_of_rule? {x : Nat} {exit : ExitSite}
    (h : m.rule? config x = some (.ret exit)) :
    ∃ inst value, m.inst? x = some inst ∧ inst.operation = .ret value ∧
      exit = .ofInstruction m inst value := by
  obtain ⟨inst, p, hinst, hrule⟩ := exists_inst_of_rule? h
  unfold Rule.ofInstruction at hrule
  split at hrule <;> cases hrule
  next value hop => exact ⟨inst, value, hinst, hop, rfl⟩

/-- The number of an exit site is the position of the return. -/
theorem WellFormed.exitSite_exit (hm : m.WellFormed) {x : Nat} {exit : ExitSite}
    (h : m.rule? config x = some (.ret exit)) : exit.exit = x := by
  obtain ⟨inst, value, hinst, -, rfl⟩ := eq_exitSite_of_rule? h
  exact hm.inst_id x inst hinst

/-! ## Instructions with a result -/

/-- Whether the instruction at a position has a result. -/
def hasResult (m : Program) (id : Nat) : Bool := (m.operation? id).any Operation.hasResult

/-- The rules that can taint a result belong to instructions that have one. -/
theorem hasResult_of_rule? {n : Nat} {rule : Rule} (hrule : m.rule? config n = some rule)
    (h : rule.givesResult = true) : m.hasResult n = true := by
  obtain ⟨inst, p, hinst, rfl⟩ := exists_inst_of_rule? hrule
  simp only [hasResult, operation?, hinst, Option.map_some, Option.any_some]
  unfold Rule.ofInstruction at h
  split at h <;> simp_all [Rule.givesResult, Operation.hasResult, Operation.isTerminator]

/-- An instruction with a type has a result. -/
theorem WellFormed.hasResult_of_type_ne_void (hm : m.WellFormed) {n : Nat} {inst : Instruction}
    (hinst : m.inst? n = some inst) (htype : inst.type ≠ .void) : m.hasResult n = true := by
  simp only [hasResult, operation?, hinst, Option.map_some, Option.any_some]
  by_contra hresult
  exact htype (hm.type_eq_void n inst hinst (by simpa using hresult))

/-! ## The locations in a rule are those of operands -/

/-- An operand of the instruction at a position points at a location. -/
def PointsAt (m : Program) (n : Nat) (l : Location) : Prop :=
  ∃ inst v, m.inst? n = some inst ∧ v ∈ inst.operation.operands ∧ m.locationOf? v = some l

/-- An operand points at the memory that a rule writes. -/
theorem pointsAt_of_written {n : Nat} {rule : Rule} {target : Location}
    (hrule : m.rule? config n = some rule) (htarget : rule.written? = some target) :
    m.PointsAt n target := by
  obtain ⟨inst, p, hinst, rfl⟩ := exists_inst_of_rule? hrule
  rw [Rule.written?_ofInstruction] at htarget
  obtain ⟨address, haddress, htarget⟩ := Option.bind_eq_some_iff.mp htarget
  exact ⟨inst, address, hinst, Operation.mem_operands_of_writtenAddress? haddress, htarget⟩

/-- An operand points at the list that is opened. -/
theorem pointsAt_of_vaStart {n : Nat} {list : Location}
    (hrule : m.rule? config n = some (.vaStart (some list))) : m.PointsAt n list := by
  obtain ⟨inst, p, hinst, heq⟩ := exists_inst_of_rule? hrule
  unfold Rule.ofInstruction at heq
  split at heq <;> simp only [Rule.vaStart.injEq, reduceCtorEq] at heq
  next operand hop => exact ⟨inst, operand, hinst, by simp [hop, Operation.operands], heq.symm⟩

/-- An operand points at the list that is copied to. -/
theorem pointsAt_of_vaCopy {n : Nat} {source : Option Location} {target : Location}
    (hrule : m.rule? config n = some (.vaCopy source (some target))) : m.PointsAt n target := by
  obtain ⟨inst, p, hinst, heq⟩ := exists_inst_of_rule? hrule
  unfold Rule.ofInstruction at heq
  split at heq <;> simp only [Rule.vaCopy.injEq, reduceCtorEq] at heq
  next operand _ hop => exact ⟨inst, operand, hinst, by simp [hop, Operation.operands], heq.2.symm⟩

/-- An operand of a call points at the memory behind an argument. -/
theorem pointsAt_of_argLocation? {c i : Nat} {site : CallSite} {l : Location}
    (hrule : m.rule? config c = some (.call site)) (hl : site.argLocation? i = some l) :
    m.PointsAt c l := by
  obtain ⟨inst, callee, args, hinst, hop, rfl⟩ := eq_callSite_of_rule? hrule
  have hget : (args.map m.locationOf?)[i]? = some (some l) := Option.join_eq_some_iff.mp hl
  rw [List.getElem?_map, Option.map_eq_some_iff] at hget
  obtain ⟨v, hv, hlocation⟩ := hget
  refine ⟨inst, v, hinst, ?_, hlocation⟩
  cases callee <;> simp [hop, Operation.operands, List.mem_of_getElem? hv]

/-- The result of a call is stored by an instruction of the same procedure. -/
theorem WellFormed.exists_pointsAt_of_resultLocation (hm : m.WellFormed) {c : Nat}
    {site : CallSite} {l : Location} (hrule : m.rule? config c = some (.call site))
    (hl : site.resultLocation = some l) : ∃ n, m.PointsAt n l ∧ m.procOf? n = m.procOf? c := by
  obtain ⟨call, -, args, hcall, -, rfl⟩ := eq_callSite_of_rule? hrule
  simp only [CallSite.ofInstruction, resultAddress?, hm.inst_id c call hcall, hcall,
    Option.bind_eq_bind, Option.bind_some, Option.bind_eq_some_iff] at hl
  obtain ⟨address, ⟨p, hp, hfirst⟩, hl⟩ := hl
  obtain ⟨n, hn, hstore⟩ := List.exists_of_findSome?_eq_some hfirst
  obtain ⟨inst, hinst, hproc⟩ := (hm.mem_procedure_insts_iff hp).mp hn
  refine ⟨n, ⟨inst, address, hinst, ?_, hl⟩, by simp [procOf?, hinst, hcall, hproc]⟩
  simp only [operation?, hinst, Option.map_some] at hstore
  cases hop : inst.operation with
  | store value address' =>
    simp only [hop] at hstore
    split at hstore
    · obtain rfl := Option.some.inj hstore
      simp [Operation.operands]
    · simp at hstore
  | _ => simp [hop] at hstore

/-! ## Flow functions of transfers -/

/-- The flow to the next instruction is given by the rule of the instruction. -/
theorem flowOf_normal (m : Program) (config : Config) (n t : Nat) :
    m.flowOf config (.normal n t) = Flow.within m (m.rules config) n := by
  simp [flowOf, Flow.ofTransfer]

/-- The flow into a procedure is given by the call and the entry. -/
theorem flowOf_call (m : Program) (config : Config) (c entry : Nat) :
    m.flowOf config (.call c entry) = Flow.into m (m.rules config) c entry := by
  simp [flowOf, Flow.ofTransfer]

/-- The flow out of a procedure is given by the exit and the call. -/
theorem flowOf_ret (m : Program) (config : Config) (x r c : Nat) :
    m.flowOf config (.ret x r c) = Flow.outOf (m.rules config) x c := by
  simp [flowOf, Flow.ofTransfer]

/-- The flow past a call is given by the call. -/
theorem flowOf_callToReturn (m : Program) (config : Config) (c r : Nat) :
    m.flowOf config (.callToReturn c r) = Flow.past (m.rules config) c := by
  simp [flowOf, Flow.ofTransfer]

section Outcomes

variable {n t c r x entry : Nat} {inst : Instruction} {d : Fact}

/-- The effect of a branch whose region has no end. -/
theorem effectOf_normal_unclosed {condition : Value} {e : RegionError}
    (hinst : m.inst? n = some inst)
    (hrule : m.rule? config n = some (.branch condition (.unclosed e))) :
    m.effectOf config (.normal n t) d =
      if Flow.decides m n condition d then { facts := [], aborts := some (inst.proc, e) }
      else Flow.applyRule m n inst.type (.branch condition (.unclosed e)) d := by
  simp [effectOf, flowOf_normal, Flow.within, rules_getElem?_join, hrule, hinst, Flow.apply]

/-- The effect of any other instruction is that of its rule. -/
theorem effectOf_normal {rule : Rule} (hinst : m.inst? n = some inst)
    (hrule : m.rule? config n = some rule)
    (hclosed : ∀ condition e, rule ≠ .branch condition (.unclosed e)) :
    m.effectOf config (.normal n t) d = Flow.applyRule m n inst.type rule d := by
  have hflow : m.flowOf config (.normal n t) = .normal n inst.type rule := by
    rw [flowOf_normal, Flow.within, rules_getElem?_join, hrule, hinst]
    dsimp only
    split
    · next condition e => exact absurd rfl (hclosed condition e)
    · rfl
  rw [effectOf, hflow]
  rfl

/-- Whether following an instruction gives up its procedure. -/
theorem givesUp_normal_iff {rule : Rule} (hinst : m.inst? n = some inst)
    (hrule : m.rule? config n = some rule) :
    m.GivesUp config (.normal n t) d ↔ ∃ condition e, rule = .branch condition (.unclosed e) ∧
      Flow.decides m n condition d = true := by
  by_cases hclosed : ∃ condition e, rule = .branch condition (.unclosed e)
  · obtain ⟨condition, e, rfl⟩ := hclosed
    rw [GivesUp, effectOf_normal_unclosed hinst hrule]
    by_cases hdecides : Flow.decides m n condition d = true <;> simp [hdecides, Flow.applyRule]
  · rw [GivesUp, effectOf_normal hinst hrule fun condition e h => hclosed ⟨condition, e, h⟩]
    simp only [Flow.applyRule, ne_eq, not_true_eq_false, false_iff]
    rintro ⟨condition, e, h, -⟩
    exact hclosed ⟨condition, e, h⟩

/-- Only a branch whose region has no end gives up a procedure. -/
theorem exists_unclosed_of_givesUp {t : Transfer Nat} (h : m.GivesUp config t d) :
    ∃ n target condition e, t = .normal n target ∧
      m.rule? config n = some (.branch condition (.unclosed e)) := by
  unfold GivesUp effectOf at h
  cases t with
  | normal n target =>
    rw [flowOf_normal, Flow.within, rules_getElem?_join] at h
    split at h
    · next rule inst hrule hinst =>
      split at h
      · next condition e => exact ⟨n, target, condition, e, rfl, hrule⟩
      · simp [Flow.apply, Flow.applyRule] at h
    · simp [Flow.apply] at h
  | call c entry =>
    rw [flowOf_call, Flow.into] at h
    split at h <;> simp only [Flow.apply, ne_eq, not_true_eq_false] at h
    split at h <;> simp at h
  | ret x r c =>
    rw [flowOf_ret, Flow.outOf] at h
    split at h <;> simp [Flow.apply] at h
  | callToReturn c r =>
    rw [flowOf_callToReturn, Flow.past] at h
    split at h <;> simp [Flow.apply] at h

/-- What comes out inside a procedure comes out of the rule. -/
theorem mem_flow_of_mem_outcomes {rule : Rule} {d' : Fact} (hinst : m.inst? n = some inst)
    (hrule : m.rule? config n = some rule) (h : d' ∈ m.outcomes config (.normal n t) d) :
    d' ∈ rule.flow m n inst.type d := by
  unfold outcomes at h
  by_cases hclosed : ∃ condition e, rule = .branch condition (.unclosed e)
  · obtain ⟨condition, e, rfl⟩ := hclosed
    rw [effectOf_normal_unclosed hinst hrule] at h
    split at h
    · simp at h
    · exact h
  · rw [effectOf_normal hinst hrule fun condition e h => hclosed ⟨condition, e, h⟩] at h
    exact h

/-- Unless a procedure is given up, what comes out inside a procedure is what comes out of the
rule. -/
theorem outcomes_normal {rule : Rule} (hinst : m.inst? n = some inst)
    (hrule : m.rule? config n = some rule) (hquiet : ¬m.GivesUp config (.normal n t) d) :
    m.outcomes config (.normal n t) d = rule.flow m n inst.type d := by
  rw [givesUp_normal_iff hinst hrule] at hquiet
  unfold outcomes
  by_cases hclosed : ∃ condition e, rule = .branch condition (.unclosed e)
  · obtain ⟨condition, e, rfl⟩ := hclosed
    rw [effectOf_normal_unclosed hinst hrule, if_neg]
    · rfl
    · exact fun hdecides => hquiet ⟨condition, e, rfl, hdecides⟩
  · rw [effectOf_normal hinst hrule fun condition e h => hclosed ⟨condition, e, h⟩]
    rfl

/-- Past a call go the facts that the call lets pass. -/
theorem outcomes_callToReturn {site : CallSite} (hrule : m.rule? config c = some (.call site)) :
    m.outcomes config (.callToReturn c r) d = site.pass m config d := by
  simp [outcomes, effectOf, flowOf_callToReturn, Flow.past, rules_getElem?_join, hrule, Flow.apply]

/-- Into a procedure go the facts that the call hands over. -/
theorem outcomes_call {site : CallSite} {callee : Procedure}
    (hrule : m.rule? config c = some (.call site)) (hinst : m.inst? entry = some inst)
    (hcallee : m.procedure? inst.proc = some callee) :
    m.outcomes config (.call c entry) d = site.enter callee d := by
  have hflow : m.flowOf config (.call c entry) = .call site callee := by
    simp [flowOf_call, Flow.into, rules_getElem?_join, hrule, hinst, hcallee]
  rw [outcomes, effectOf, hflow, Flow.apply]
  split <;> rfl

/-- Out of a procedure go the facts that the exit hands back to the call. -/
theorem outcomes_ret {site : CallSite} {exit : ExitSite}
    (hsite : m.rule? config c = some (.call site)) (hexit : m.rule? config x = some (.ret exit)) :
    m.outcomes config (.ret x r c) d = site.leave exit d := by
  simp [outcomes, effectOf, flowOf_ret, Flow.outOf, rules_getElem?_join, hsite, hexit, Flow.apply]

/-- Along a link into a callee. -/
theorem WellFormed.outcomes_call_of_has (hm : m.WellFormed) (config : Config)
    (hlink : m.supergraph.Has (.call c entry)) :
    ∃ site callee, m.rule? config c = some (.call site) ∧ m.callTarget? c = some callee ∧
      ∀ d, m.outcomes config (.call c entry) d = site.enter callee d := by
  obtain ⟨⟨callee, hcallee, hentry⟩, -⟩ := hm.call_mem_links_iff.mp hlink
  obtain ⟨operation, hop, hcall⟩ := isCall_of_callTarget? hcallee
  obtain ⟨site, hrule⟩ := hm.rule?_of_isCall config hop hcall
  obtain ⟨hp, -⟩ := hm.procedure?_of_callTarget? hcallee
  obtain ⟨⟨inst, hinst, hproc⟩, -⟩ := hm.exists_inst_of_entry? hp hentry
  exact ⟨site, callee, hrule, hcallee, fun d => outcomes_call hrule hinst (by rwa [hproc])⟩

/-- Along a link out of a callee. -/
theorem WellFormed.outcomes_ret_of_has (hm : m.WellFormed) (config : Config)
    (hlink : m.supergraph.Has (.ret x r c)) :
    ∃ site exit, m.rule? config c = some (.call site) ∧ m.rule? config x = some (.ret exit) ∧
      ∀ d, m.outcomes config (.ret x r c) d = site.leave exit d := by
  obtain ⟨⟨callee, -, hcallee, -, hexit⟩, -⟩ := hm.ret_mem_links_iff.mp hlink
  obtain ⟨operation, hop, hcall⟩ := isCall_of_callTarget? hcallee
  obtain ⟨site, hrule⟩ := hm.rule?_of_isCall config hop hcall
  obtain ⟨inst, hinst, -, hret⟩ := hm.mem_exits_iff.mp hexit
  obtain ⟨exit, hrule'⟩ := hm.rule?_of_isReturn config hinst hret
  exact ⟨site, exit, hrule, hrule', fun d => outcomes_ret hrule hrule'⟩

/-- Along a link past a call. -/
theorem WellFormed.outcomes_callToReturn_of_has (hm : m.WellFormed) (config : Config)
    (hlink : m.supergraph.Has (.callToReturn c r)) :
    ∃ site, m.rule? config c = some (.call site) ∧
      ∀ d, m.outcomes config (.callToReturn c r) d = site.pass m config d := by
  obtain ⟨⟨operation, hop, hcall⟩, -⟩ := hm.callToReturn_mem_links_iff.mp hlink
  obtain ⟨site, hrule⟩ := hm.rule?_of_isCall config hop hcall
  exact ⟨site, hrule, fun d => outcomes_callToReturn hrule⟩

end Outcomes

end Program

end TaintTrail
