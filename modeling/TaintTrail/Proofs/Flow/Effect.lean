import TaintTrail.Proofs.Coverage
import TaintTrail.Proofs.Flow.Rule

/-!
# What flow functions leave in the coverage

Applying a flow function touches the source line of the instruction that the transfer leaves, or
nothing. It does so exactly if taint comes out that is worth reporting: within a procedure and past
a call a new fact that is not about a cursor, and across procedures any fact at all. Taint that gets
into a callee also leaves the callee's name.
-/

namespace TaintTrail

namespace Program

/-- The source line of the instruction at a position. -/
def lineOf? (m : Program) (n : Nat) : Option SourceLine := (m.inst? n).bind (·.source)

/-- The procedure of the instruction at a position. -/
def procedureOf? (m : Program) (n : Nat) : Option Procedure := (m.procOf? n).bind m.procedure?

/-- What touching an instruction leaves in the coverage: its source line, and the name of its
procedure under the file of that line. -/
def itemsAt (m : Program) (n : Nat) : List CoverageItem :=
  match m.lineOf? n, m.procedureOf? n with
  | some place, some p => [.line place.file place.line, .procedure place.file p.name]
  | _, _ => []

end Program

/-- What entering a procedure leaves in the coverage: its name under its source file. -/
def Procedure.items (p : Procedure) : List CoverageItem :=
  p.sourceFile.toList.map fun file => .procedure file p.name

/-- What an effect leaves in the coverage. -/
def Effect.items (e : Effect) (m : Program) : List CoverageItem :=
  e.touched.toList.flatMap m.itemsAt ++
    (e.entered.bind m.procedure?).toList.flatMap Procedure.items

section Note

variable {m : Program} {item : CoverageItem}

/-- Touching an instruction adds its source line and the name of its procedure. -/
theorem LineReport.mem_snapshot_touch {r : LineReport} {n : Nat} :
    item ∈ (r.touch m n).snapshot ↔ item ∈ r.snapshot ∨ item ∈ m.itemsAt n := by
  unfold touch Program.itemsAt Program.lineOf? Program.procedureOf? Program.procOf?
  cases m.inst? n with
  | none => simp
  | some inst =>
    cases hline : inst.source with
    | none => simp [hline]
    | some place =>
      cases hp : m.procedure? inst.proc with
      | none => simp [hp]
      | some p => simp [hline, hp, mem_snapshot_recordLine]

/-- Entering a procedure adds its name under its source file. -/
theorem LineReport.mem_snapshot_enter {r : LineReport} {proc : Nat} :
    item ∈ (r.enter m proc).snapshot ↔
      item ∈ r.snapshot ∨ item ∈ (m.procedure? proc).toList.flatMap Procedure.items := by
  unfold enter Procedure.items
  cases m.procedure? proc with
  | none => simp
  | some p =>
    cases hfile : p.sourceFile with
    | none => simp [hfile]
    | some file => simp [hfile, mem_snapshot_recordProcedure]

/-- Taking note of an effect adds what the effect leaves. -/
theorem Findings.mem_note_coverage {f : Findings} {e : Effect} :
    item ∈ (f.note m e).coverage ↔ item ∈ f.coverage ∨ item ∈ e.items m := by
  unfold note Effect.items coverage
  cases e.touched <;> cases e.entered <;>
    simp [LineReport.mem_snapshot_touch, LineReport.mem_snapshot_enter, or_assoc]

end Note

/-- Facts that come out of a flow function are worth reporting if one of them is new and is not
about a cursor. -/
theorem marksLine_iff {d : Fact} {facts : List Fact} :
    marksLine d facts = true ↔ ∃ e ∈ facts, e ≠ d ∧ e.list = none := by
  simp [marksLine]

/-- A call brings in taint of values and memory. -/
theorem CallSite.eq_of_mem_generated {site : CallSite} {d : Fact} (h : d ∈ site.generated) :
    (∃ v, d = .value v) ∨ ∃ l, d = .memory l := by
  unfold generated at h
  split at h
  · simp at h
  · obtain h | h := List.mem_append.mp h
    · split at h
      · exact .inl ⟨_, List.mem_singleton.mp h⟩
      · simp at h
    · obtain ⟨l, -, rfl⟩ := List.mem_map.mp h
      exact .inr ⟨_, rfl⟩

namespace Program

/-- Following a transfer with a fact is worth reporting. -/
def Marks (m : Program) (config : Config) (t : Transfer Nat) (d : Fact) : Prop :=
  match t with
  | .normal .. => d.isZero = false ∧ ∃ e ∈ m.outcomes config t d, e ≠ d ∧ e.list = none
  | .callToReturn .. => ∃ e ∈ m.outcomes config t d, e ≠ d ∧ e.list = none
  | .call .. | .ret .. => d.isZero = false ∧ m.outcomes config t d ≠ []

variable {m : Program} {config : Config} {d : Fact}

/-- Within a procedure, what is worth reporting touches the instruction. -/
theorem WellFormed.touched_effectOf_normal (hm : m.WellFormed) {n s k : Nat}
    (hlink : m.supergraph.Has (.normal n s)) :
    (m.effectOf config (.normal n s) d).touched = some k ↔
      m.Marks config (.normal n s) d ∧ n = k := by
  obtain ⟨inst, hinst, -⟩ := hm.normal_mem_links_iff.mp hlink
  obtain ⟨p, -, hrule⟩ := hm.rule?_eq config hinst
  have happly (rule : Rule) : (Flow.applyRule m n inst.type rule d).touched = some k ↔
      (d.isZero = false ∧
        ∃ e ∈ (Flow.applyRule m n inst.type rule d).facts, e ≠ d ∧ e.list = none) ∧ n = k := by
    simp only [Flow.applyRule, Option.ite_none_right_eq_some, Bool.and_eq_true, Bool.not_eq_true',
      marksLine_iff, Option.some.injEq]
  unfold Marks outcomes
  by_cases hclosed : ∃ condition e,
      Rule.ofInstruction m config p inst = .branch condition (.unclosed e)
  · obtain ⟨condition, e, hbranch⟩ := hclosed
    rw [hbranch] at hrule
    rw [effectOf_normal_unclosed hinst hrule]
    split
    · simp
    · exact happly _
  · rw [effectOf_normal hinst hrule fun condition e h => hclosed ⟨condition, e, h⟩]
    exact happly _

/-- Into a callee, what is worth reporting touches the call and enters the callee. -/
theorem WellFormed.effectOf_call (hm : m.WellFormed) (config : Config) {c entry : Nat}
    {callee : Procedure} (hlink : m.supergraph.Has (.call c entry))
    (hcallee : m.callTarget? c = some callee) (d : Fact) (k : Nat) :
    ((m.effectOf config (.call c entry) d).touched = some k ↔
        m.Marks config (.call c entry) d ∧ c = k) ∧
      ((m.effectOf config (.call c entry) d).entered = some k ↔
        m.Marks config (.call c entry) d ∧ callee.id = k) := by
  have hentry := hm.procOf?_of_call hlink hcallee
  obtain ⟨inst, hinst, hproc⟩ := Option.map_eq_some_iff.mp hentry
  obtain ⟨hp, -⟩ := hm.procedure?_of_callTarget? hcallee
  obtain ⟨operation, hop, hcall⟩ := isCall_of_callTarget? hcallee
  obtain ⟨site, hrule⟩ := hm.rule?_of_isCall config hop hcall
  have hflow : m.flowOf config (.call c entry) = .call site callee := by
    simp [flowOf_call, Flow.into, rules_getElem?_join, hrule, hinst, hproc, hp]
  simp only [Marks, outcomes_call hrule hinst (hproc ▸ hp), effectOf, hflow, Flow.apply,
    hm.callSite_call hrule]
  cases hzero : d.isZero <;> cases hfacts : site.enter callee d <;> simp

/-- Out of a callee, what is worth reporting touches the exit. -/
theorem WellFormed.touched_effectOf_ret (hm : m.WellFormed) {x r c k : Nat}
    (hlink : m.supergraph.Has (.ret x r c)) :
    (m.effectOf config (.ret x r c) d).touched = some k ↔
      m.Marks config (.ret x r c) d ∧ x = k := by
  obtain ⟨site, exit, hsite, hexit, houtcomes⟩ := hm.outcomes_ret_of_has config hlink
  have hflow : m.flowOf config (.ret x r c) = .ret site exit := by
    simp [flowOf_ret, Flow.outOf, rules_getElem?_join, hsite, hexit]
  simp only [Marks, houtcomes, effectOf, hflow, Flow.apply, hm.exitSite_exit hexit,
    Option.ite_none_left_eq_some, Option.some.injEq, Bool.or_eq_true, not_or, Bool.not_eq_true,
    List.isEmpty_eq_false_iff, ne_eq]

/-- Past a call, what is worth reporting touches the call. -/
theorem WellFormed.touched_effectOf_callToReturn (hm : m.WellFormed) {c r k : Nat}
    (hlink : m.supergraph.Has (.callToReturn c r)) :
    (m.effectOf config (.callToReturn c r) d).touched = some k ↔
      m.Marks config (.callToReturn c r) d ∧ c = k := by
  obtain ⟨site, hsite, houtcomes⟩ := hm.outcomes_callToReturn_of_has config hlink
  have hflow : m.flowOf config (.callToReturn c r) = .callToReturn site := by
    simp [flowOf_callToReturn, Flow.past, rules_getElem?_join, hsite]
  simp only [Marks, houtcomes, effectOf, hflow, Flow.apply, hm.callSite_call hsite,
    Option.ite_none_right_eq_some, Option.some.injEq, marksLine_iff]

/-- Only calls enter procedures. -/
theorem entered_effectOf_eq_none {t : Transfer Nat} (ht : ∀ c entry, t ≠ .call c entry) :
    (m.effectOf config t d).entered = none := by
  unfold effectOf
  cases t with
  | normal n s =>
    rw [flowOf_normal, Flow.within]
    split
    · split <;> simp only [Flow.apply, Flow.applyRule]
      split <;> rfl
    · rfl
  | call c entry => exact absurd rfl (ht c entry)
  | ret x r c =>
    rw [flowOf_ret, Flow.outOf]
    split <;> rfl
  | callToReturn c r =>
    rw [flowOf_callToReturn, Flow.past]
    split <;> rfl

/-- What following a transfer leaves in the coverage if it is worth reporting. -/
def itemsAlong (m : Program) : Transfer Nat → List CoverageItem
  | .call c _ => m.itemsAt c ++ (m.callTarget? c).toList.flatMap Procedure.items
  | t => m.itemsAt t.source

/-- Following a link leaves something in the coverage exactly if it is worth reporting. -/
theorem WellFormed.mem_items_effectOf (hm : m.WellFormed) {t : Transfer Nat}
    (hlink : m.supergraph.Has t) {item : CoverageItem} :
    item ∈ (m.effectOf config t d).items m ↔
      m.Marks config t d ∧ item ∈ m.itemsAlong t := by
  -- Where nothing is entered, only the touched instruction counts.
  have hother (ht : ∀ c entry, t ≠ .call c entry) (htouched : ∀ k,
      (m.effectOf config t d).touched = some k ↔ m.Marks config t d ∧ t.source = k) :
      item ∈ (m.effectOf config t d).items m ↔
        m.Marks config t d ∧ item ∈ m.itemsAt t.source := by
    simp only [Effect.items, entered_effectOf_eq_none ht, List.mem_append, List.mem_flatMap,
      Option.mem_toList, htouched, Option.bind_none, Option.toList_none, List.flatMap_nil,
      List.not_mem_nil, or_false]
    constructor
    · rintro ⟨k, ⟨hmarks, rfl⟩, hitem⟩
      exact ⟨hmarks, hitem⟩
    · rintro ⟨hmarks, hitem⟩
      exact ⟨_, ⟨hmarks, rfl⟩, hitem⟩
  cases t with
  | normal n s => exact hother (by simp) fun k => hm.touched_effectOf_normal hlink
  | ret x r c => exact hother (by simp) fun k => hm.touched_effectOf_ret hlink
  | callToReturn c r => exact hother (by simp) fun k => hm.touched_effectOf_callToReturn hlink
  | call c entry =>
    obtain ⟨⟨callee, hcallee, -⟩, -⟩ := hm.call_mem_links_iff.mp hlink
    obtain ⟨hp, -⟩ := hm.procedure?_of_callTarget? hcallee
    have htouched k := (hm.effectOf_call config hlink hcallee d k).1
    have hentered k := (hm.effectOf_call config hlink hcallee d k).2
    simp only [Effect.items, itemsAlong, hcallee, List.mem_append, List.mem_flatMap,
      Option.mem_toList, Option.bind_eq_some_iff, htouched, hentered, Option.some.injEq]
    constructor
    · rintro (⟨k, ⟨hmarks, rfl⟩, hitem⟩ | ⟨p, ⟨k, ⟨hmarks, rfl⟩, hp'⟩, hitem⟩)
      · exact ⟨hmarks, .inl hitem⟩
      · exact ⟨hmarks, .inr ⟨p, Option.some.inj (hp.symm.trans hp'), hitem⟩⟩
    · rintro ⟨hmarks, hitem | ⟨p, rfl, hitem⟩⟩
      · exact .inl ⟨c, ⟨hmarks, rfl⟩, hitem⟩
      · exact .inr ⟨callee, ⟨callee.id, ⟨hmarks, rfl⟩, hp⟩, hitem⟩

/-- With the zero fact, going past a call is worth reporting exactly if the call brings taint in. -/
theorem marks_callToReturn_zero_iff {c r : Nat} {site : CallSite}
    (hrule : m.rule? config c = some (.call site)) :
    m.Marks config (.callToReturn c r) .zero ↔ site.generated ≠ [] := by
  have hpass : site.pass m config .zero = .zero :: site.generated := rfl
  simp only [Marks, outcomes_callToReturn hrule, hpass]
  constructor
  · rintro ⟨e, he, hne, -⟩
    exact List.ne_nil_of_mem ((List.mem_cons.mp he).resolve_left hne)
  · intro hgenerated
    obtain ⟨e, he⟩ := List.exists_mem_of_ne_nil _ hgenerated
    obtain ⟨v, rfl⟩ | ⟨l, rfl⟩ := CallSite.eq_of_mem_generated he
    · exact ⟨_, List.mem_cons_of_mem _ he, by simp [Fact.value, Fact.zero], rfl⟩
    · exact ⟨_, List.mem_cons_of_mem _ he, by simp [Fact.memory, Fact.zero], rfl⟩

/-! ## Lines and procedures -/

section Items

variable {n line : Nat} {file name : String} {t : Transfer Nat}

/-- Every instruction is in a procedure. -/
theorem WellFormed.exists_procedureOf? (hm : m.WellFormed) {place : SourceLine}
    (hline : m.lineOf? n = some place) : ∃ p, m.procedureOf? n = some p := by
  obtain ⟨inst, hinst, -⟩ := Option.bind_eq_some_iff.mp hline
  obtain ⟨p, hp, -⟩ := hm.rule?_eq {} hinst
  exact ⟨p, by simp [procedureOf?, procOf?, hinst, hp]⟩

/-- An instruction stands for the line of its place. -/
theorem WellFormed.line_mem_itemsAt_iff (hm : m.WellFormed) :
    .line file line ∈ m.itemsAt n ↔ m.lineOf? n = some ⟨file, line⟩ := by
  unfold itemsAt
  cases hline : m.lineOf? n with
  | none => simp
  | some place =>
    obtain ⟨p, hp⟩ := hm.exists_procedureOf? hline
    rw [hp]
    cases place
    simp [eq_comm]

/-- An instruction stands for its procedure if it has a place. -/
theorem procedure_mem_itemsAt_iff : .procedure file name ∈ m.itemsAt n ↔
    ∃ line p, m.lineOf? n = some ⟨file, line⟩ ∧ m.procedureOf? n = some p ∧ p.name = name := by
  unfold itemsAt
  cases m.lineOf? n with
  | none => simp
  | some place =>
    cases m.procedureOf? n with
    | none => simp
    | some p =>
      cases place
      simp [eq_comm]

/-- A procedure stands for its name in its file, if that is known. -/
theorem mem_procedure_items_iff {p : Procedure} {item : CoverageItem} :
    item ∈ p.items ↔ ∃ file, p.sourceFile = some file ∧ item = .procedure file p.name := by
  simp [Procedure.items, eq_comm]

/-- The line that a transfer leaves in the coverage is that of the instruction it comes from. -/
theorem WellFormed.line_mem_itemsAlong_iff (hm : m.WellFormed) :
    .line file line ∈ m.itemsAlong t ↔ m.lineOf? t.source = some ⟨file, line⟩ := by
  cases t with
  | call c entry =>
    simp [itemsAlong, mem_procedure_items_iff, hm.line_mem_itemsAt_iff, Transfer.source]
  | _ => exact hm.line_mem_itemsAt_iff

/-- The procedures that a transfer leaves in the coverage are that of the instruction it comes from,
and for a call the callee. -/
theorem procedure_mem_itemsAlong_iff : .procedure file name ∈ m.itemsAlong t ↔
    (∃ line p, m.lineOf? t.source = some ⟨file, line⟩ ∧ m.procedureOf? t.source = some p ∧
      p.name = name) ∨
    ∃ c entry p, t = .call c entry ∧ m.callTarget? c = some p ∧ p.sourceFile = some file ∧
      p.name = name := by
  cases t with
  | call c entry =>
    simp [itemsAlong, mem_procedure_items_iff, procedure_mem_itemsAt_iff, Transfer.source, eq_comm]
  | _ => simp [itemsAlong, procedure_mem_itemsAt_iff]

end Items

end Program

end TaintTrail
