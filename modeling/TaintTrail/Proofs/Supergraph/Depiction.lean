import Mathlib.Algebra.Order.BigOperators.Group.List
import Mathlib.Algebra.Order.Group.Nat
import TaintTrail.Proofs.Supergraph.OfProgram

/-!
# How the supergraph depicts its program

The supergraph is drawn in one pass over the blocks of all procedures, and a link back from a callee
is drawn where the call stands, not where the return stands. Targets that are missing, blocks that
are empty and blocks that do not end are passed over. What the solver relies on holds nevertheless:
control inside a procedure stays there, a call has one way into a callee and one way past it, and
the ways back fit the ways in.
-/

namespace TaintTrail

/-- Whether the link leads into a called procedure. -/
def Link.isCall {ν : Type} : Link ν → Bool
  | .call _ => true
  | _ => false

/-- Whether the link leads past a call. -/
def Link.isPast {ν : Type} : Link ν → Bool
  | .callToReturn _ => true
  | _ => false

/-- The instruction is a return of the procedure. -/
def Program.IsReturnOf (m : Program) (x : Nat) (p : Procedure) : Prop :=
  x ∈ p.insts ∧ ∃ value, m.operation? x = some (.ret value)

/-- The links and exits of a graph are those of a program. -/
structure Supergraph.Depicts (g : Supergraph Nat) (m : Program) : Prop where
  /-- Control inside a procedure and past calls stays in one procedure. -/
  within : ∀ n t, (n, .normal t) ∈ g.links ∨ (n, .callToReturn t) ∈ g.links →
    ∃ p ∈ m.defined, n ∈ p.insts ∧ t ∈ p.insts ∧ g.entryOf? n = p.entry? ∧ g.entryOf? t = p.entry?
  /-- There is at most one way from an instruction into a callee. -/
  call_once : ∀ c, (g.linksFrom c).countP Link.isCall ≤ 1
  /-- There is at most one way from an instruction past a call. -/
  past_once : ∀ c, (g.linksFrom c).countP Link.isPast ≤ 1
  /-- The way in leads to the start of the procedure that is called by its name, and there is also a
  way past the call, to the next instruction of the block. -/
  call_leads : ∀ c entry, (c, .call entry) ∈ g.links → ∃ callee ∈ m.defined,
    m.calleeName? c = some callee.name ∧ callee.entry? = some entry ∧
      ∃ r, m.next? c = some r ∧ (c, .callToReturn r) ∈ g.links
  /-- There is a way back from exactly the returns of the called procedure, to the return site. -/
  ret_iff : ∀ x r c, (x, .ret r c) ∈ g.links ↔ ∃ p ∈ m.defined, ∃ entry,
    p.entry? = some entry ∧ g.entryOf? x = some entry ∧ (c, .call entry) ∈ g.links ∧
      m.IsReturnOf x p ∧ g.returnSite? c = some r
  /-- The exits are the returns of the procedures that start with an instruction. -/
  isExit_iff : ∀ x, g.isExit x = true ↔ ∃ p ∈ m.defined, p.entry?.isSome ∧ m.IsReturnOf x p

/-- The links of a kind that leave a node, counted among all links. -/
theorem Supergraph.countP_linksFrom {ν : Type} [DecidableEq ν] (g : Supergraph ν) (n : ν)
    (q : Link ν → Bool) :
    (g.linksFrom n).countP q = g.links.countP fun x => x.1 = n && q x.2 := by
  rw [linksFrom, List.countP_filterMap]
  congr 1
  funext x
  by_cases hx : x.1 = n <;> simp [hx]

namespace Program

variable {m : Program} {c : Nat} {q : Link Nat → Bool}

/-- The defined procedures are those with a body. -/
theorem mem_defined_iff {p : Procedure} :
    p ∈ m.defined ↔ ∃ i, m.procedure? i = some p ∧ p.isDeclaration = false := by
  simp only [defined, List.mem_filter, Array.mem_toList_iff, Array.mem_iff_getElem?, procedure?,
    Bool.not_eq_true', exists_and_right]

/-! ## A call has one way in and one way past -/

/-- The links of a call into its callee and back: one of them leads in, and none leads past. -/
theorem countP_calleeLinks_le (id next : Nat) :
    (m.calleeLinks id next).countP (fun x => x.1 = c && x.2.isCall) ≤ (if id = c then 1 else 0) ∧
      (m.calleeLinks id next).countP (fun x => x.1 = c && x.2.isPast) = 0 := by
  unfold calleeLinks
  cases m.callTarget? id with
  | none => simp
  | some callee =>
    cases hentry : callee.entry? with
    | none => simp [hentry]
    | some entry =>
      by_cases hid : id = c <;>
        simp [hentry, hid, List.countP_eq_zero, Link.isCall, Link.isPast]

/-- What does not call is only linked to what follows it. -/
theorem stepLinks_of_not_isCall {operation : Operation} (h : ¬operation.IsCall) (id next : Nat) :
    m.stepLinks id next operation = [(id, .normal next)] := by
  cases operation with
  | call callee args => exact absurd ⟨callee, args, rfl⟩ h
  | _ => rfl

/-- An instruction gives rise to at most one link in and one link past, which leave the instruction
itself. -/
theorem countP_instLinks_le (hq : q = Link.isCall ∨ q = Link.isPast) (p : Procedure) (id : Nat)
    (next : Option Nat) :
    (m.instLinks p id next).countP (fun x => x.1 = c && q x.2) ≤ if id = c then 1 else 0 := by
  have hnormal : ∀ n t, (decide (n = c) && q (.normal t)) = false := by
    rcases hq with rfl | rfl <;> simp [Link.isCall, Link.isPast]
  unfold instLinks
  cases m.operation? id with
  | none => simp
  | some operation =>
    cases hterm : operation.isTerminator with
    | true =>
      have hzero : (terminatorLinks p id operation).countP (fun x => x.1 = c && q x.2) = 0 := by
        rw [List.countP_eq_zero]
        intro x hx
        obtain ⟨-, -, first, -, rfl⟩ := mem_terminatorLinks_iff.mp hx
        simp [hnormal]
      simp [hterm, hzero]
    | false =>
      cases next with
      | none => simp [hterm]
      | some next =>
        by_cases hcall : operation.IsCall
        · obtain ⟨callee, args, rfl⟩ := hcall
          obtain ⟨hin, hpast⟩ := countP_calleeLinks_le (m := m) (c := c) id next
          have hlinks : m.stepLinks id next (.call callee args) =
              m.calleeLinks id next ++ [(id, .callToReturn next)] := rfl
          simp only [hterm, Bool.false_eq_true, if_false, hlinks, List.countP_append,
            List.countP_singleton]
          -- The one link past comes from the call itself, the one link in from its callee.
          rcases hq with rfl | rfl
          · simpa [Link.isCall] using hin
          · rw [hpast]
            simp [Link.isPast]
        · simp [hterm, stepLinks_of_not_isCall hcall, hnormal]

/-- A call has at most one link into a procedure and one past it for each time it is listed in a
block. -/
theorem countP_blockLinks_le (hq : q = Link.isCall ∨ q = Link.isPast) (p : Procedure)
    (ids : List Nat) :
    (m.blockLinks p ids).countP (fun x => x.1 = c && q x.2) ≤ ids.count c := by
  induction ids with
  | nil => simp [blockLinks]
  | cons id rest ih =>
    have hfirst := countP_instLinks_le (m := m) (c := c) hq p id rest.head?
    rw [blockLinks, List.countP_append, List.count_cons]
    simp only [beq_iff_eq]
    omega

/-- In all, an instruction has at most one link in and one link past. -/
theorem WellFormed.countP_linksFrom_le (hm : m.WellFormed)
    (hq : q = Link.isCall ∨ q = Link.isPast) (c : Nat) :
    (m.supergraph.linksFrom c).countP q ≤ 1 := by
  have hprocedure (p : Procedure) :
      (p.blocks.toList.flatMap fun b => m.blockLinks p b.insts).countP
        (fun x => x.1 = c && q x.2) ≤ p.insts.count c := by
    rw [List.countP_flatMap, Procedure.insts, List.count_flatMap]
    exact List.sum_le_sum fun b _ => countP_blockLinks_le hq p b.insts
  have hlisted : (m.defined.flatMap Procedure.insts).Nodup :=
    hm.nodup_listed.sublist (List.filter_sublist.flatMap _)
  calc (m.supergraph.linksFrom c).countP q
      = m.supergraph.links.countP (fun x => x.1 = c && q x.2) :=
        m.supergraph.countP_linksFrom c q
    _ ≤ (m.defined.flatMap Procedure.insts).count c := by
        rw [supergraph, List.countP_flatMap, List.count_flatMap]
        exact List.sum_le_sum fun p _ => hprocedure p
    _ ≤ 1 := List.nodup_iff_count_le_one.mp hlisted c

/-! ## Procedures, their names and their returns -/

/-- A call names the procedure with a body that it calls. -/
theorem WellFormed.calleeName?_of_callTarget? (hm : m.WellFormed) {callee : Procedure}
    (h : m.callTarget? c = some callee) :
    callee ∈ m.defined ∧ m.calleeName? c = some callee.name := by
  obtain ⟨hp, hbody⟩ := hm.procedure?_of_callTarget? h
  refine ⟨mem_defined_iff.mpr ⟨callee.id, hp, hbody⟩, ?_⟩
  simp only [callTarget?, procedureNamed?, idNamed?, Option.bind_eq_bind,
    Option.bind_eq_some_iff, Option.map_eq_some_iff] at h
  obtain ⟨name, hname, p, ⟨i, ⟨p', hfind, rfl⟩, hp'⟩, hsame⟩ := h
  -- The procedure of the name stands at its number, so it is the one that is called.
  have hname' : p'.name = name := by simpa using List.find?_some hfind
  have hmem := List.mem_reverse.mp (List.mem_of_find?_eq_some hfind)
  obtain ⟨j, hj⟩ := Array.mem_iff_getElem?.mp (Array.mem_toList_iff.mp hmem)
  have hj' : m.procedure? j = some p' := hj
  rw [hm.procedure_id j p' hj', hj'] at hp'
  obtain rfl := Option.some.inj hp'
  rw [hname, ← hname']
  split at hsame
  · simp at hsame
  · rw [Option.some.inj hsame]

/-- The returns of a procedure, by what the instructions say themselves. -/
theorem WellFormed.isReturnOf_iff (hm : m.WellFormed) {i x : Nat} {p : Procedure}
    (hp : m.procedure? i = some p) :
    m.IsReturnOf x p ↔
      ∃ inst, m.inst? x = some inst ∧ inst.proc = i ∧ inst.operation.isReturn = true := by
  have hreturn (operation : Operation) :
      operation.isReturn = true ↔ ∃ value, operation = .ret value := by
    cases operation <;> simp [Operation.isReturn]
  rw [IsReturnOf, hm.mem_procedure_insts_iff hp]
  constructor
  · rintro ⟨⟨inst, hinst, hproc⟩, value, hop⟩
    obtain ⟨inst', hinst', hret⟩ := operation?_eq_some.mp hop
    obtain rfl := Option.some.inj (hinst.symm.trans hinst')
    exact ⟨inst, hinst, hproc, (hreturn _).mpr ⟨value, hret⟩⟩
  · rintro ⟨inst, hinst, hproc, hret⟩
    obtain ⟨value, hvalue⟩ := (hreturn _).mp hret
    exact ⟨⟨inst, hinst, hproc⟩, value, operation?_eq_some.mpr ⟨inst, hinst, hvalue⟩⟩

/-- The entry of a node is where its procedure starts, if it starts with an instruction at all. -/
theorem WellFormed.entryOf?_eq (hm : m.WellFormed) {i n : Nat} {p : Procedure}
    (hp : m.procedure? i = some p) (hn : n ∈ p.insts) : m.supergraph.entryOf? n = p.entry? := by
  obtain ⟨inst, hinst, rfl⟩ := (hm.mem_procedure_insts_iff hp).mp hn
  ext entry
  rw [hm.entryOf?_supergraph]
  constructor
  · rintro ⟨inst', p', hinst', hp', hentry⟩
    obtain rfl := Option.some.inj (hinst.symm.trans hinst')
    obtain rfl := Option.some.inj (hp.symm.trans hp')
    exact hentry
  · intro hentry
    exact ⟨inst, p, hinst, hp, hentry⟩

/-- Two instructions of one procedure are listed by it and have its start for their entry. -/
theorem WellFormed.exists_defined_of_procOf?_eq (hm : m.WellFormed) {n t : Nat}
    {inst : Instruction} (hinst : m.inst? n = some inst) (hproc : m.procOf? t = m.procOf? n) :
    ∃ p ∈ m.defined, n ∈ p.insts ∧ t ∈ p.insts ∧ m.supergraph.entryOf? n = p.entry? ∧
      m.supergraph.entryOf? t = p.entry? := by
  obtain ⟨b, hat⟩ := Option.isSome_iff_exists.mp (hm.block_isSome n inst hinst)
  obtain ⟨p, hp, hblock⟩ := blockAt?_eq_some.mp hat
  have hbody : p.isDeclaration = false := by
    have hsize := (Array.getElem?_eq_some_iff.mp hblock).1
    simpa [Procedure.isDeclaration] using Array.ne_empty_of_size_pos (Nat.zero_lt_of_lt hsize)
  have hn : n ∈ p.insts := (hm.mem_procedure_insts_iff hp).mpr ⟨inst, hinst, rfl⟩
  have ht : t ∈ p.insts := by
    rw [procOf?, procOf?, hinst] at hproc
    obtain ⟨inst', hinst', hproc'⟩ := Option.map_eq_some_iff.mp hproc
    exact (hm.mem_procedure_insts_iff hp).mpr ⟨inst', hinst', hproc'⟩
  exact ⟨p, mem_defined_iff.mpr ⟨inst.proc, hp, hbody⟩, hn, ht, hm.entryOf?_eq hp hn,
    hm.entryOf?_eq hp ht⟩

/-- The exits are the returns of the procedures that start with an instruction. -/
theorem WellFormed.isExit_iff_isReturnOf (hm : m.WellFormed) {x : Nat} :
    m.supergraph.isExit x = true ↔ ∃ p ∈ m.defined, p.entry?.isSome ∧ m.IsReturnOf x p := by
  rw [hm.isExit_supergraph]
  constructor
  · rintro ⟨inst, p, entry, hinst, hret, hp, hentry⟩
    have hbody := (hm.exists_inst_of_entry? hp hentry).2
    have hreturn : m.IsReturnOf x p := (hm.isReturnOf_iff hp).mpr ⟨inst, hinst, rfl, hret⟩
    exact ⟨p, mem_defined_iff.mpr ⟨_, hp, hbody⟩, by simp [hentry], hreturn⟩
  · rintro ⟨p, hdefined, hstarts, hreturn⟩
    obtain ⟨i, hp, -⟩ := mem_defined_iff.mp hdefined
    obtain ⟨entry, hentry⟩ := Option.isSome_iff_exists.mp hstarts
    obtain ⟨inst, hinst, rfl, hret⟩ := (hm.isReturnOf_iff hp).mp hreturn
    exact ⟨inst, p, entry, hinst, hret, hp, hentry⟩

/-- A called procedure is linked back to the return site from exactly its returns. -/
theorem WellFormed.ret_mem_links_iff_isReturnOf (hm : m.WellFormed) {x r c : Nat} :
    (x, .ret r c) ∈ m.supergraph.links ↔ ∃ p ∈ m.defined, ∃ entry, p.entry? = some entry ∧
      m.supergraph.entryOf? x = some entry ∧ (c, .call entry) ∈ m.supergraph.links ∧
      m.IsReturnOf x p ∧ m.supergraph.returnSite? c = some r := by
  rw [hm.wellShaped_supergraph.ret_iff, hm.isExit_iff_isReturnOf]
  constructor
  · rintro ⟨⟨p, hdefined, -, hreturn⟩, entry, howner, hcall, hsite⟩
    obtain ⟨i, hp, -⟩ := mem_defined_iff.mp hdefined
    have hentry : p.entry? = some entry := (hm.entryOf?_eq hp hreturn.1).symm.trans howner
    exact ⟨p, hdefined, entry, hentry, howner, hcall, hreturn, hsite⟩
  · rintro ⟨p, hdefined, entry, hentry, howner, hcall, hreturn, hsite⟩
    exact ⟨⟨p, hdefined, by simp [hentry], hreturn⟩, entry, howner, hcall, hsite⟩

/-- A link into a callee leads to the start of the procedure that the call names, and there is a
link past the call as well. -/
theorem WellFormed.exists_callee_of_call (hm : m.WellFormed) {c entry : Nat}
    (h : (c, .call entry) ∈ m.supergraph.links) :
    ∃ callee ∈ m.defined, m.calleeName? c = some callee.name ∧ callee.entry? = some entry ∧
      ∃ r, m.next? c = some r ∧ (c, .callToReturn r) ∈ m.supergraph.links := by
  obtain ⟨⟨callee, hcallee, hentry⟩, r, hnext⟩ := hm.call_mem_links_iff.mp h
  obtain ⟨hdefined, hname⟩ := hm.calleeName?_of_callTarget? hcallee
  have hpast : (c, .callToReturn r) ∈ m.supergraph.links :=
    hm.callToReturn_mem_links_iff.mpr ⟨isCall_of_callTarget? hcallee, hnext⟩
  exact ⟨callee, hdefined, hname, hentry, r, hnext, hpast⟩

end Program

open Program

/-- The supergraph of a program that was built depicts the program, whatever is missing in the
bodies of its procedures. -/
theorem supergraph_depicts {m : Program} (hm : m.Built) : m.supergraph.Depicts m := by
  have hwf := hm.wellFormed
  refine ⟨fun n t h => ?_, fun c => ?_, fun c => ?_, fun c entry h => ?_, fun x r c => ?_,
    fun x => ?_⟩
  · rcases h with hnormal | hpast
    · obtain ⟨inst, hinst, -⟩ := hwf.normal_mem_links_iff.mp hnormal
      exact hwf.exists_defined_of_procOf?_eq hinst (hwf.procOf?_of_normal hnormal)
    · obtain ⟨⟨operation, hop, -⟩, -⟩ := hwf.callToReturn_mem_links_iff.mp hpast
      obtain ⟨inst, hinst, -⟩ := operation?_eq_some.mp hop
      exact hwf.exists_defined_of_procOf?_eq hinst (hwf.procOf?_of_callToReturn hpast)
  · exact hwf.countP_linksFrom_le (.inl rfl) c
  · exact hwf.countP_linksFrom_le (.inr rfl) c
  · exact hwf.exists_callee_of_call h
  · exact hwf.ret_mem_links_iff_isReturnOf
  · exact hwf.isExit_iff_isReturnOf

/-- One procedure that returns at once, one that starts with an empty block, and one with calls of
both, a call of nothing, a branch to an empty block and to a missing one, and a call at the end of a
block that does not end. -/
def Program.ragged : Program :=
  constructed "ragged"
    [.define "leaf" [] .void false, .emit (.ret none) .void,
      .define "hollow" [] .void false, .block "entry", .block "tail", .positionAt 1,
      .emit (.ret none) .void,
      .define "main" [] .void false, .block "entry", .block "empty", .block "open", .positionAt 0,
      .emit (.call (.direct "leaf") []) .void, .emit (.call (.direct "hollow") []) .void,
      .emit (.call (.direct "nothing") []) .void, .emit (.branch (.int 1) 1 7) .void,
      .positionAt 2, .emit (.call (.direct "leaf") []) .void]

/-- Of the calls only the first one leads into a procedure, and only it is returned to. -/
theorem supergraph_depicts_ragged :
    ragged.supergraph.Depicts ragged ∧
      ragged.supergraph.links = [(2, .call 0), (0, .ret 3 2), (2, .callToReturn 3),
        (3, .callToReturn 4), (4, .callToReturn 5)] ∧
      ragged.supergraph.exits = [0] :=
  ⟨supergraph_depicts (built_constructed _ _), by decide +kernel, by decide +kernel⟩

end TaintTrail
