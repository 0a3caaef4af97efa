import Mathlib.Logic.Relation
import TaintTrail.Proofs.Analysis.Run
import TaintTrail.Proofs.Flow.Shape

/-!
# Weak and strong updates

In a finished run taint stays where it is until an instruction overwrites the memory around it, and
no call takes it away. A write that takes nothing tainted is a strong update: after it no memory
inside its target is tainted.
-/

namespace TaintTrail

open Program

/-! ## What instructions write -/

/-- The value that the operation writes, or the address that it copies from. -/
def Operation.writtenValue? : Operation → Option Value
  | .store value _ => some value
  | .copy _ source _ => some source
  | .fill _ value _ => some value
  | _ => none

namespace Program

/-- Whether an instruction writes to memory around a location. -/
def overwrites (m : Program) (n : Nat) (l : Location) : Bool :=
  (((m.operation? n).bind Operation.writtenAddress?).bind m.locationOf?).any (·.contains l)

/-- Whether an operation carries the taint of a location over to the memory that it writes: a
stored pointer that of the memory below it, a copy that of the memory around its source too. -/
def feeds (m : Program) : Operation → Location → Bool
  | .store value _, l => (m.locationOf? value).any (·.contains l)
  | .copy _ source _, l => (m.locationOf? source).any (·.overlaps l)
  | _, _ => false

/-- Control goes on past an instruction that does not write to memory around a location. -/
def GoesOnSparing (m : Program) (l : Location) (n s : Nat) : Prop :=
  m.GoesOn n s ∧ m.overwrites n l = false

/-- Nothing tainted goes into what an instruction writes: neither the written value nor memory that
it points at, and no region of a branch is open beyond the block of the instruction. -/
structure CleanWrite (m : Program) (run : Run Nat Fact Findings) (n : Nat)
    (operation : Operation) : Prop where
  value : ∀ v, operation.writtenValue? = some v → .value v ∉ run.factsAt n
  memory : ∀ l, .memory l ∈ run.factsAt n → m.feeds operation l = false
  region : ∀ d ∈ run.factsAt n, d.isBranch = true → m.blockLabel? n = d.endLabel

end Program

/-! ## Facts that one instruction keeps -/

/-- A tainted value is no tainted memory. -/
@[simp] theorem Fact.plainLocation?_value (v : Value) : (Fact.value v).plainLocation? = none := rfl

namespace Rule

variable {rule : Rule} {result : Value} {d : Fact}

/-- A fact stays if its memory is not inside what is overwritten. -/
theorem mem_overwriting_self {moved? : Location → Location → Option Location}
    {target : Option Location}
    (hspared : ∀ l t, d.plainLocation? = some l → target = some t → t.contains l = false) :
    d ∈ overwriting moved? target d := by
  unfold overwriting
  split
  · next l t hl =>
    split
    · exact List.mem_cons_self
    · simp [hspared l t hl rfl]
  · exact List.mem_cons_self

/-- A fact that is not about variable arguments goes with no cursor. -/
theorem follows_eq_false {list : Option Location} (hplain : d.isVarArg = false) :
    follows d list = false := by
  have hlist : d.list = none := by
    simp only [Fact.isVarArg, Bool.or_eq_false_iff, Option.isSome_eq_false_iff] at hplain
    simpa using hplain.2
  simp [follows, hlist]

/-- Every rule keeps the facts that are not about variable arguments, except for memory inside of
what the instruction writes. -/
theorem mem_apply_self (hplain : d.isVarArg = false)
    (hspared : ∀ l target, d.plainLocation? = some l → rule.written? = some target →
      target.contains l = false) : d ∈ rule.apply result d := by
  cases rule with
  | store | copy | fill =>
    simp only [apply]
    split
    · exact mem_writing.mpr (.inl rfl)
    · exact mem_overwriting_self hspared
  | load | compute | phi => exact mem_producing.mpr (.inl rfl)
  | branch condition region =>
    simp only [apply]
    split
    · split <;> exact List.mem_cons_self
    · exact List.mem_cons_self
  | vaStart | vaCopy =>
    simp only [apply]
    split <;> exact List.mem_cons_self
  | vaArg | vaEnd => simp [apply, follows_eq_false hplain]
  | keep | call | ret => exact List.mem_cons_self

/-- A fact stays past an instruction that does not overwrite its memory. -/
theorem mem_flow_self {m : Program} {n : Nat} {type : Ty} (hbranch : d.isBranch = false)
    (hplain : d.isVarArg = false)
    (hspared : ∀ l target, d.plainLocation? = some l → rule.written? = some target →
      target.contains l = false) : d ∈ rule.flow m n type d := by
  unfold flow
  split
  · exact List.mem_cons_self
  · simpa [hbranch] using mem_apply_self hplain hspared

/-- Instructions that write differ only in what they find again in the target. -/
theorem exists_apply_eq_overwriting (m : Program) (config : Config) (p : Procedure)
    {inst : Instruction} {address : Value}
    (haddress : inst.operation.writtenAddress? = some address) :
    ∃ v moved?, inst.operation.writtenValue? = some v ∧
      (∀ l t, m.feeds inst.operation l = false → moved? l t = none) ∧
      ∀ result d, (ofInstruction m config p inst).apply result d =
        if d.isPlainValue v then writing (m.locationOf? address) d
        else overwriting moved? (m.locationOf? address) d := by
  cases hop : inst.operation with
  | store value target =>
    obtain rfl : target = address := by simpa [hop, Operation.writtenAddress?] using haddress
    refine ⟨value, fun l t => (m.locationOf? value).bind fun s => l.stored? s t, rfl, ?_, ?_⟩
    · intro l t hfeeds
      cases hsource : m.locationOf? value with
      | none => rfl
      | some s =>
        have houtside : s.contains l = false := by simpa [feeds, hsource] using hfeeds
        simp [Location.stored?, houtside]
    · simp [ofInstruction, hop, apply]
  | copy target source length =>
    obtain rfl : target = address := by simpa [hop, Operation.writtenAddress?] using haddress
    refine ⟨source, fun l t => (m.locationOf? source).bind fun s => l.copied? s t, rfl, ?_, ?_⟩
    · intro l t hfeeds
      cases hsource : m.locationOf? source with
      | none => rfl
      | some s =>
        have happart : s.overlaps l = false := by simpa [feeds, hsource] using hfeeds
        obtain ⟨houtside, haround⟩ := Bool.or_eq_false_iff.mp happart
        simp [Location.copied?, houtside, haround]
    · simp [ofInstruction, hop, apply]
  | fill target value length =>
    obtain rfl : target = address := by simpa [hop, Operation.writtenAddress?] using haddress
    exact ⟨value, fun _ _ => none, rfl, fun _ _ _ => rfl, by simp [ofInstruction, hop, apply]⟩
  | _ => simp [hop, Operation.writtenAddress?] at haddress

/-- Memory inside the target comes out of a write only if it is found again there. -/
theorem contains_eq_false_of_mem_overwriting {moved? : Location → Location → Option Location}
    {target l : Location} (hmoved : ∀ l', d.plainLocation? = some l' → moved? l' target = none)
    (h : .memory l ∈ overwriting moved? (some target) d) : target.contains l = false := by
  unfold overwriting at h
  split at h
  · next l' t hl' ht =>
    obtain rfl := Option.some.inj ht
    rw [hmoved l' hl'] at h
    dsimp only at h
    split at h
    · simp at h
    · next houtside =>
      obtain rfl := List.mem_singleton.mp h
      obtain rfl : l = l' := by simpa using hl'
      simpa using houtside
  · next hnone =>
    obtain rfl := List.mem_singleton.mp h
    exact absurd rfl (hnone l target rfl)

end Rule

/-- A call keeps every fact, except for a region that ends at the block of the call. -/
theorem CallSite.mem_pass_self {m : Program} {config : Config} {site : CallSite} {d : Fact}
    (hlabel : d.isBranch = true → m.blockLabel? site.call ≠ d.endLabel) :
    d ∈ site.pass m config d := by
  unfold pass
  split
  · exact List.mem_cons_self
  split
  · next hbranch => simp [hlabel hbranch]
  · split <;> exact List.mem_cons_self

/-! ## Persistence along a run -/

section FinishedRun

variable {m : Program} {config : Config} {run : Run Nat Fact Findings}

/-- The memory in the rule of an instruction that does not write around a location does not contain
the location. -/
theorem Program.contains_eq_false_of_overwrites {n : Nat} {l target : Location} {rule : Rule}
    (hrule : m.rule? config n = some rule) (htarget : rule.written? = some target)
    (h : m.overwrites n l = false) : target.contains l = false := by
  obtain ⟨inst, p, hinst, rfl⟩ := exists_inst_of_rule? hrule
  rw [Rule.written?_ofInstruction] at htarget
  simpa [overwrites, operation?, hinst, htarget] using h

/-- A call takes away no fact of the caller, except for a region that ends at its block. -/
theorem Program.FinishedRun.mem_factsAt_past_call (hm : m.WellFormed)
    (h : m.FinishedRun config run) (hquiet : run.store.aborted = []) {n r : Nat} {d : Fact}
    (hd : d ∈ run.factsAt n) (hlink : (n, .callToReturn r) ∈ m.supergraph.links)
    (hlabel : d.isBranch = true → m.blockLabel? n ≠ d.endLabel) : d ∈ run.factsAt r := by
  obtain ⟨site, hrule, -⟩ := hm.outcomes_callToReturn_of_has config hlink
  rw [← hm.callSite_call hrule] at hlabel
  exact h.mem_factsAt_of_callToReturn hm hquiet hd hlink hrule (CallSite.mem_pass_self hlabel)

/-- A plain fact holds on from an instruction that does not overwrite it. -/
theorem Program.FinishedRun.mem_factsAt_of_goesOn (hm : m.WellFormed)
    (h : m.FinishedRun config run) (hquiet : run.store.aborted = []) {n s : Nat} {d : Fact}
    (hbranch : d.isBranch = false) (hplain : d.isVarArg = false) (hd : d ∈ run.factsAt n)
    (hgoes : m.GoesOn n s)
    (hspared : ∀ l, d.plainLocation? = some l → m.overwrites n l = false) :
    d ∈ run.factsAt s := by
  obtain hlink | hlink := hgoes
  · obtain ⟨inst, hinst, -⟩ := hm.normal_mem_links_iff.mp hlink
    obtain ⟨p, -, hrule⟩ := hm.rule?_eq config hinst
    refine h.mem_factsAt_of_normal hm hquiet hd hlink hinst hrule ?_
    refine Rule.mem_flow_self hbranch hplain fun l target hl htarget => ?_
    exact contains_eq_false_of_overwrites hrule htarget (hspared l hl)
  · exact h.mem_factsAt_past_call hm hquiet hd hlink (by simp [hbranch])

/-- A plain fact holds on along a path whose instructions do not overwrite it. -/
theorem Program.FinishedRun.mem_factsAt_of_path (hm : m.WellFormed)
    (h : m.FinishedRun config run) (hquiet : run.store.aborted = []) {n s : Nat} {d : Fact}
    (hbranch : d.isBranch = false) (hplain : d.isVarArg = false) (hd : d ∈ run.factsAt n)
    {R : Nat → Nat → Prop}
    (hsteps : ∀ k k', R k k' → m.GoesOn k k' ∧
      ∀ l, d.plainLocation? = some l → m.overwrites k l = false)
    (hpath : Relation.ReflTransGen R n s) : d ∈ run.factsAt s := by
  induction hpath with
  | refl => exact hd
  | @tail k k' _ hstep ih =>
    obtain ⟨hgoes, hspared⟩ := hsteps k k' hstep
    exact h.mem_factsAt_of_goesOn hm hquiet hbranch hplain ih hgoes hspared

end FinishedRun

/-- In a finished run that gives up no procedure, a tainted value stays tainted wherever control
goes on to, and tainted memory wherever control goes on to without writing to memory around it. No
call takes away a fact of its caller, except that a region ends at its label. -/
theorem mem_factsAt_of_not_overwritten {m : Program} (hm : m.Built) (config : Config)
    {run : Run Nat Fact Findings} (h : m.FinishedRun config run)
    (hquiet : run.store.aborted = []) {n : Nat} :
    (∀ v s, .value v ∈ run.factsAt n → Relation.ReflTransGen m.GoesOn n s →
      .value v ∈ run.factsAt s) ∧
    (∀ l s, .memory l ∈ run.factsAt n → Relation.ReflTransGen (m.GoesOnSparing l) n s →
      .memory l ∈ run.factsAt s) ∧
    ∀ d r, d ∈ run.factsAt n → (n, .callToReturn r) ∈ m.supergraph.links →
      (d.isBranch = true → m.blockLabel? n ≠ d.endLabel) → d ∈ run.factsAt r := by
  have hwf := hm.wellFormed
  refine ⟨fun v s hv hpath => ?_, fun l s hl hpath => ?_, fun d r hd hlink hlabel => ?_⟩
  · exact h.mem_factsAt_of_path hwf hquiet rfl rfl hv (fun _ _ hgoes => ⟨hgoes, by simp⟩) hpath
  · refine h.mem_factsAt_of_path hwf hquiet rfl rfl hl (fun _ _ hgoes => ⟨hgoes.1, ?_⟩) hpath
    simpa using hgoes.2
  · exact h.mem_factsAt_past_call hwf hquiet hd hlink hlabel

/-- The result of a source gets past the call of another procedure to the end of its own, and so
does memory that is written in a region. -/
theorem mem_factsAt_of_not_overwritten_branchOnSource :
    branchOnSourceRun.store.aborted = [] ∧ .value (.result 1) ∈ branchOnSourceRun.factsAt 4 ∧
      .value (.result 1) ∈ branchOnSourceRun.factsAt 8 ∧
      .memory (.ofFrame (.stack 2)) ∈ branchOnSourceRun.factsAt 8 := by
  have hquiet : branchOnSourceRun.store.aborted = [] := by decide +kernel
  have hkeeps (n : Nat) := mem_factsAt_of_not_overwritten (built_constructed _ _) {}
    finishedRun_branchOnSourceRun hquiet (n := n)
  have hpast : .value (.result 1) ∈ branchOnSourceRun.factsAt 4 :=
    (hkeeps 3).2.2 _ 4 (by decide +kernel) (by decide +kernel) (by decide)
  have hskips : Relation.ReflTransGen branchOnSource.GoesOn 4 8 :=
    .tail (.single (.inl (by decide +kernel)) : Relation.ReflTransGen _ 4 7)
      (.inl (by decide +kernel))
  have hspares : Relation.ReflTransGen
      (branchOnSource.GoesOnSparing (.ofFrame (.stack 2))) 6 8 :=
    .tail (.single ⟨.inl (by decide +kernel), by decide +kernel⟩ : Relation.ReflTransGen _ 6 7)
      ⟨.inl (by decide +kernel), by decide +kernel⟩
  exact ⟨hquiet, hpast, (hkeeps 4).1 _ 8 hpast hskips,
    (hkeeps 6).2.1 _ 8 (by decide +kernel) hspares⟩

/-! ## Strong updates -/

section CleanWrite

variable {m : Program} {config : Config} {run : Run Nat Fact Findings} {n : Nat}
  {inst : Instruction} {address : Value} {target l : Location}

/-- A clean write turns no fact before it into tainted memory inside its target. -/
theorem Program.CleanWrite.contains_eq_false (hclean : m.CleanWrite run n inst.operation)
    (haddress : inst.operation.writtenAddress? = some address)
    (htarget : m.locationOf? address = some target) {p : Procedure} {type : Ty} {d : Fact}
    (hshaped : Shaped m config d) (hd : d ∈ run.factsAt n)
    (h : .memory l ∈ (Rule.ofInstruction m config p inst).flow m n type d) :
    target.contains l = false := by
  obtain ⟨v, moved?, hv, hmoved, happly⟩ :=
    Rule.exists_apply_eq_overwriting m config p haddress
  unfold Rule.flow at h
  split at h
  · next hzero =>
    obtain rfl := List.mem_singleton.mp h
    simp [Fact.isZero, Fact.memory] at hzero
  split at h
  · next hbranch => simp [Rule.applyBranch, hclean.region d hd hbranch] at h
  rw [happly] at h
  split at h
  · next hplain =>
    obtain rfl := hshaped.eq_value hplain
    exact absurd hd (hclean.value v hv)
  · rw [htarget] at h
    refine Rule.contains_eq_false_of_mem_overwriting (fun l' hl' => ?_) h
    obtain rfl := hshaped.eq_memory hl'
    exact hmoved l' target (hclean.memory l' hd)

end CleanWrite

/-- In a finished run that gives up no procedure, a write that takes nothing tainted is a strong
update: before an instruction that control gets to only from the write, no memory inside the target
of the write is tainted. -/
theorem contains_eq_false_of_cleanWrite {m : Program} (hm : m.Built) (config : Config)
    {run : Run Nat Fact Findings} (h : m.FinishedRun config run)
    (hquiet : run.store.aborted = []) {n s : Nat} {inst : Instruction} {address : Value}
    {target : Location} (hinst : m.inst? n = some inst)
    (haddress : inst.operation.writtenAddress? = some address)
    (htarget : m.locationOf? address = some target)
    (honly : ∀ x ∈ m.supergraph.links, x.2.target = s → x = (n, .normal s))
    (hclean : m.CleanWrite run n inst.operation) {l : Location}
    (hl : .memory l ∈ run.factsAt s) : target.contains l = false := by
  have hwf := hm.wellFormed
  obtain ⟨source, he⟩ := (h.mem_factsAt hwf hquiet).mp hl
  -- The last link of the way to the instruction is the one from the write.
  generalize hedge : (⟨source, s, .memory l⟩ : PathEdge Nat Fact) = edge at he
  cases he with
  | seed hseed =>
    obtain ⟨-, rfl, rfl⟩ := PathEdge.mk.inj hedge
    exact absurd (eq_zero_of_mem_seeds hseed) (by simp [Fact.memory, Fact.zero])
  | @normal e _ _ he hlink hd =>
    obtain ⟨-, rfl, rfl⟩ := PathEdge.mk.inj hedge
    obtain rfl : e.node = n := (Prod.mk.inj (honly _ hlink rfl)).1
    obtain ⟨p, -, hrule⟩ := hwf.rule?_eq config hinst
    have hbefore : e.fact ∈ run.factsAt e.node := (h.mem_factsAt hwf hquiet).mpr ⟨e.source, he⟩
    exact hclean.contains_eq_false haddress htarget (hwf.shaped_of_entailed he).2 hbefore
      (mem_flow_of_mem_outcomes hinst hrule hd)
  | callToReturn _ hlink _ | call _ hlink _ | ret _ _ _ _ _ _ hlink _ =>
    obtain ⟨-, rfl, -⟩ := PathEdge.mk.inj hedge
    simpa using honly _ hlink rfl

/-- Writes the result of a source to memory and then a constant. -/
def Program.overwrittenSource : Program :=
  constructed "overwritten"
    [.define "main" [] (.int 32) false, .emit (.alloca (.int 32)) .void,
      .emit (.call (.direct "getenv") []) .void, .emit (.store (.result 1) (.result 0)) .void,
      .emit (.store (.int 0) (.result 0)) .void, .emit (.load (.result 0)) .void,
      .emit (.ret (some (.result 4))) .void]

/-- The memory is tainted before the constant is written and is not tainted after that. -/
theorem contains_eq_false_of_cleanWrite_overwrittenSource :
    overwrittenSource.CleanWrite (overwrittenSource.limitedRun {} 100) 3
        (.store (.int 0) (.result 0)) ∧
      .memory (.ofFrame (.stack 0)) ∈ (overwrittenSource.limitedRun {} 100).factsAt 3 ∧
      .memory (.ofFrame (.stack 0)) ∉ (overwrittenSource.limitedRun {} 100).factsAt 4 := by
  have hfinished : overwrittenSource.FinishedRun {} (overwrittenSource.limitedRun {} 100) :=
    Run.finished_of_isComplete (by decide +kernel)
  have hinst : overwrittenSource.inst? 3 =
      some ⟨3, 0, 0, .store (.int 0) (.result 0), .void, none⟩ := by decide +kernel
  have htarget : overwrittenSource.locationOf? (.result 0) = some (.ofFrame (.stack 0)) := by
    decide +kernel
  have hclean : overwrittenSource.CleanWrite (overwrittenSource.limitedRun {} 100) 3
      (.store (.int 0) (.result 0)) := by
    refine ⟨?_, fun l _ => ?_, by decide +kernel⟩
    · rintro v ⟨⟩
      decide +kernel
    · have hconstant : overwrittenSource.locationOf? (.int 0) = none := by decide +kernel
      simp [feeds, hconstant]
  refine ⟨hclean, by decide +kernel, fun htainted => ?_⟩
  have houtside := contains_eq_false_of_cleanWrite (built_constructed _ _) {} hfinished
    (by decide +kernel) hinst rfl htarget (by decide +kernel) hclean htainted
  exact absurd houtside (by decide)

end TaintTrail
