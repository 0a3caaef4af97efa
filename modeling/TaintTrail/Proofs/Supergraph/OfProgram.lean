import TaintTrail.Proofs.Program.Listing
import TaintTrail.Proofs.Supergraph.WellShaped
import TaintTrail.Supergraph.OfProgram

/-!
# The supergraph of a well-formed program

In a well-formed program every instruction is listed once, so it is one node with one procedure,
and what follows it in its block is well defined. The links of the supergraph can then be read off
an instruction and its successor, and the supergraph is well shaped.
-/

namespace TaintTrail

namespace Supergraph

variable {ν : Type} [DecidableEq ν] {g : Supergraph ν}

/-- The entry of a node's procedure is the last one that it is listed with. -/
theorem entryOf?_eq_find? (g : Supergraph ν) (n : ν) :
    g.entryOf? n = (g.owners.reverse.find? fun pair => pair.1 = n).map (·.2) := by
  rw [entryOf?, ← List.foldr_reverse]
  induction g.owners.reverse with
  | nil => rfl
  | cons pair rest ih =>
    rw [List.foldr_cons, ih, List.find?_cons]
    by_cases h : pair.1 = n <;> simp [h]

/-- The entry of a node's procedure is the one it is listed with, if there is only one. -/
theorem entryOf?_eq_some_iff {n entry : ν}
    (hunique : ∀ e e', (n, e) ∈ g.owners → (n, e') ∈ g.owners → e = e') :
    g.entryOf? n = some entry ↔ (n, entry) ∈ g.owners := by
  rw [entryOf?_eq_find?]
  cases hfind : g.owners.reverse.find? fun pair => pair.1 = n with
  | none =>
    have hnone := List.find?_eq_none.mp hfind (n, entry)
    simpa using hnone
  | some pair =>
    obtain ⟨node, e⟩ := pair
    obtain rfl : node = n := by simpa using List.find?_some hfind
    have he : (node, e) ∈ g.owners := List.mem_reverse.mp (List.mem_of_find?_eq_some hfind)
    constructor
    · rintro h
      rwa [← Option.some.inj h]
    · intro hentry
      rw [hunique entry e hentry he]
      rfl

/-- The return site of a call is the one that it is linked past the call to, if there is only
one. -/
theorem returnSite?_eq_some_iff {c r : ν} (hunique : ∀ r r', (c, .callToReturn r) ∈ g.links →
    (c, .callToReturn r') ∈ g.links → r = r') :
    g.returnSite? c = some r ↔ (c, .callToReturn r) ∈ g.links := by
  refine ⟨callToReturn_mem_of_returnSite?, fun hr => ?_⟩
  cases hsite : g.returnSite? c with
  | none =>
    have hnone := List.findSome?_eq_none_iff.mp hsite _ (mem_linksFrom.mpr hr)
    simp at hnone
  | some r' => rw [hunique r r' hr (callToReturn_mem_of_returnSite? hsite)]

end Supergraph

/-- The operation calls something. -/
def Operation.IsCall (operation : Operation) : Prop := ∃ callee args, operation = .call callee args

/-- A call does not end a block. -/
theorem Operation.IsCall.not_isTerminator {operation : Operation} (h : operation.IsCall) :
    operation.isTerminator = false := by
  obtain ⟨callee, args, rfl⟩ := h
  rfl

namespace Program

variable {m : Program}

/-! ## Instructions and their successors -/

/-- What follows an instruction is what stands after it in its block. -/
theorem WellFormed.next?_eq_head? (hm : m.WellFormed) {proc block id : Nat} {b : Block}
    {before after : List Nat} (hb : m.blockAt? proc block = some b)
    (hsplit : b.insts = before ++ id :: after) : m.next? id = after.head? := by
  have hmem : id ∈ b.insts := by simp [hsplit]
  obtain ⟨inst, hinst, rfl, rfl⟩ := (hm.mem_insts_iff _ _ _ hb id).mp hmem
  have hsorted := hm.insts_sorted _ _ _ hb
  rw [hsplit, List.pairwise_append] at hsorted
  have hdrop : b.insts.dropWhile (· ≠ id) = id :: after := by
    rw [hsplit, List.dropWhile_append_of_pos]
    · simp
    · intro i hi
      simpa using Nat.ne_of_lt (hsorted.2.2 i hi id List.mem_cons_self)
  have hnext : m.next? id = (b.insts.dropWhile (· ≠ id))[1]? := by
    simp [next?, blockOf?_eq, hinst, hb]
  rw [hnext, hdrop]
  simp [List.head?_eq_getElem?]

/-- The links of a block are those of its instructions, each with what stands after it. -/
theorem mem_blockLinks_iff {p : Procedure} {ids : List Nat} {x : Nat × Link Nat} :
    x ∈ m.blockLinks p ids ↔
      ∃ before id after, ids = before ++ id :: after ∧ x ∈ m.instLinks p id after.head? := by
  induction ids with
  | nil => simp [blockLinks]
  | cons id rest ih =>
    rw [blockLinks, List.mem_append, ih]
    constructor
    · rintro (hx | ⟨before, id', after, rfl, hx⟩)
      · exact ⟨[], id, rest, rfl, hx⟩
      · exact ⟨id :: before, id', after, rfl, hx⟩
    · rintro ⟨before, id', after, hsplit, hx⟩
      cases before with
      | nil =>
        obtain ⟨rfl, rfl⟩ := List.cons.inj hsplit
        exact .inl hx
      | cons first before =>
        obtain ⟨rfl, rfl⟩ := List.cons.inj hsplit
        exact .inr ⟨before, id', after, rfl, hx⟩

/-- Every link comes from an instruction and what follows it. -/
theorem WellFormed.mem_links_iff (hm : m.WellFormed) {x : Nat × Link Nat} :
    x ∈ m.supergraph.links ↔ ∃ id inst p, m.inst? id = some inst ∧
      m.procedure? inst.proc = some p ∧ x ∈ m.instLinks p id (m.next? id) := by
  simp only [supergraph, List.mem_flatMap, mem_blockLinks_iff, defined, List.mem_filter,
    Array.mem_toList_iff]
  constructor
  · rintro ⟨p, ⟨hp, -⟩, b, hb, before, id, after, hsplit, hx⟩
    obtain ⟨i, hi⟩ := Array.mem_iff_getElem?.mp hp
    obtain ⟨block, hblock⟩ := Array.mem_iff_getElem?.mp hb
    have hat := blockAt?_eq_some.mpr ⟨p, hi, hblock⟩
    obtain ⟨inst, hinst, rfl, -⟩ := (hm.mem_insts_iff _ _ _ hat id).mp (by simp [hsplit])
    rw [← hm.next?_eq_head? hat hsplit] at hx
    exact ⟨id, inst, p, hinst, hi, hx⟩
  · rintro ⟨id, inst, p, hinst, hp, hx⟩
    obtain ⟨b, hat⟩ := Option.isSome_iff_exists.mp (hm.block_isSome id inst hinst)
    obtain ⟨p', hp', hblock⟩ := blockAt?_eq_some.mp hat
    obtain rfl := Option.some.inj (hp.symm.trans hp')
    have hmem := (hm.mem_insts_iff _ _ _ hat id).mpr ⟨inst, hinst, rfl, rfl⟩
    obtain ⟨before, after, hsplit⟩ := List.append_of_mem hmem
    rw [hm.next?_eq_head? hat hsplit] at hx
    have hbody : p.blocks.isEmpty = false := by
      have hb := Array.mem_of_getElem? hblock
      cases hempty : p.blocks.isEmpty with
      | false => rfl
      | true => simp [Array.isEmpty_iff.mp hempty] at hb
    refine ⟨p, ⟨Array.mem_of_getElem? hp, ?_⟩, b, Array.mem_of_getElem? hblock, before, id, after,
      hsplit, hx⟩
    simp [Procedure.isDeclaration, hbody]

/-! ## The links by their kinds -/

/-- The operation at a position is that of the instruction there. -/
theorem operation?_eq_some {id : Nat} {operation : Operation} :
    m.operation? id = some operation ↔
      ∃ inst, m.inst? id = some inst ∧ inst.operation = operation := by
  simp [operation?]

/-- What enters a procedure is a call. -/
theorem isCall_of_callTarget? {c : Nat} {callee : Procedure} (h : m.callTarget? c = some callee) :
    ∃ operation, m.operation? c = some operation ∧ operation.IsCall := by
  simp only [callTarget?, Option.bind_eq_bind, Option.bind_eq_some_iff] at h
  obtain ⟨name, hname, -⟩ := h
  unfold calleeName? at hname
  split at hname
  · next args hop => exact ⟨_, hop, _, args, rfl⟩
  · simp at hname

/-- A called procedure stands at its number, and has a body. -/
theorem WellFormed.procedure?_of_callTarget? (hm : m.WellFormed) {c : Nat} {callee : Procedure}
    (h : m.callTarget? c = some callee) :
    m.procedure? callee.id = some callee ∧ callee.isDeclaration = false := by
  simp only [callTarget?, procedureNamed?, Option.bind_eq_bind, Option.bind_eq_some_iff] at h
  obtain ⟨name, -, p, ⟨i, -, hp⟩, hbody⟩ := h
  split at hbody
  · simp at hbody
  · next hdecl =>
    obtain rfl := Option.some.inj hbody
    rw [hm.procedure_id i p hp]
    exact ⟨hp, by simpa using hdecl⟩

/-- A call is linked to the entry of its callee, and the exits of the callee are linked back. -/
theorem mem_calleeLinks_iff {c r : Nat} {x : Nat × Link Nat} :
    x ∈ m.calleeLinks c r ↔ ∃ callee entry, m.callTarget? c = some callee ∧
      callee.entry? = some entry ∧
      (x = (c, .call entry) ∨ ∃ exit ∈ m.exits callee.id, x = (exit, .ret r c)) := by
  unfold calleeLinks
  cases m.callTarget? c with
  | none => simp
  | some callee =>
    cases hentry : callee.entry? with
    | none => simp [hentry]
    | some entry => simp [hentry, eq_comm]

/-- Inside a block, a call is linked to its callee and past it, and any other instruction to the
next. -/
theorem mem_stepLinks_iff {id next : Nat} {operation : Operation} {x : Nat × Link Nat} :
    x ∈ m.stepLinks id next operation ↔
      operation.IsCall ∧ (x ∈ m.calleeLinks id next ∨ x = (id, .callToReturn next)) ∨
      ¬ operation.IsCall ∧ x = (id, .normal next) := by
  cases operation <;> simp [stepLinks, Operation.IsCall]

/-- The links of an instruction are those at the end of a block or those inside one. -/
theorem mem_instLinks_iff {p : Procedure} {id : Nat} {next : Option Nat} {x : Nat × Link Nat} :
    x ∈ m.instLinks p id next ↔ ∃ operation, m.operation? id = some operation ∧
      (operation.isTerminator = true ∧ x ∈ terminatorLinks p id operation ∨
      operation.isTerminator = false ∧ ∃ n, next = some n ∧ x ∈ m.stepLinks id n operation) := by
  unfold instLinks
  cases m.operation? id with
  | none => simp
  | some operation =>
    cases hterm : operation.isTerminator <;> cases next <;> simp [hterm]

/-- At the end of a block are links to the first instructions of the blocks that follow. -/
theorem mem_terminatorLinks_iff {p : Procedure} {id : Nat} {operation : Operation}
    {x : Nat × Link Nat} :
    x ∈ terminatorLinks p id operation ↔ ∃ block ∈ operation.successors,
      ∃ first, p.blocks[block]?.bind Block.first? = some first ∧ x = (id, .normal first) := by
  simp only [terminatorLinks, List.mem_filterMap, Option.map_eq_some_iff, eq_comm (a := x)]

/-- An instruction that ends a block is linked to the first instructions of its successors, and any
other one to the next, unless it calls. -/
theorem WellFormed.normal_mem_links_iff (hm : m.WellFormed) {n t : Nat} :
    (n, .normal t) ∈ m.supergraph.links ↔ ∃ inst, m.inst? n = some inst ∧
      (inst.operation.isTerminator = true ∧ (∃ block ∈ inst.operation.successors,
        (m.blockAt? inst.proc block).bind Block.first? = some t) ∨
      inst.operation.isTerminator = false ∧ ¬ inst.operation.IsCall ∧ m.next? n = some t) := by
  rw [hm.mem_links_iff]
  constructor
  · rintro ⟨id, inst, p, hinst, hp, hx⟩
    obtain ⟨operation, hop, hkind⟩ := mem_instLinks_iff.mp hx
    obtain ⟨inst', hinst', rfl⟩ := operation?_eq_some.mp hop
    obtain rfl := Option.some.inj (hinst.symm.trans hinst')
    obtain ⟨hterm, hx⟩ | ⟨hterm, next, hnext, hx⟩ := hkind
    · obtain ⟨block, hblock, first, hfirst, heq⟩ := mem_terminatorLinks_iff.mp hx
      simp only [Prod.mk.injEq, Link.normal.injEq] at heq
      obtain ⟨rfl, rfl⟩ := heq
      refine ⟨inst, hinst, .inl ⟨hterm, block, hblock, ?_⟩⟩
      simpa [blockAt?, hp] using hfirst
    · rw [mem_stepLinks_iff, mem_calleeLinks_iff] at hx
      simp only [Prod.mk.injEq, reduceCtorEq, and_false, exists_false, or_self, Link.normal.injEq,
        false_or] at hx
      obtain ⟨hcall, rfl, rfl⟩ := hx
      exact ⟨inst, hinst, .inr ⟨hterm, hcall, hnext⟩⟩
  · rintro ⟨inst, hinst, hkind⟩
    obtain ⟨b, hat⟩ := Option.isSome_iff_exists.mp (hm.block_isSome n inst hinst)
    obtain ⟨p, hp, -⟩ := blockAt?_eq_some.mp hat
    have hop := operation?_eq_some.mpr ⟨inst, hinst, rfl⟩
    refine ⟨n, inst, p, hinst, hp, mem_instLinks_iff.mpr ⟨_, hop, ?_⟩⟩
    obtain ⟨hterm, block, hblock, hfirst⟩ | ⟨hterm, hcall, hnext⟩ := hkind
    · refine .inl ⟨hterm, mem_terminatorLinks_iff.mpr ⟨block, hblock, t, ?_, rfl⟩⟩
      simpa [blockAt?, hp] using hfirst
    · exact .inr ⟨hterm, t, hnext, mem_stepLinks_iff.mpr (.inr ⟨hcall, rfl⟩)⟩

/-- The other links come from calls that something follows. -/
theorem WellFormed.mem_links_iff_of_ne_normal (hm : m.WellFormed) {n : Nat} {link : Link Nat}
    (hlink : ∀ t, link ≠ .normal t) :
    (n, link) ∈ m.supergraph.links ↔ ∃ c r operation, m.operation? c = some operation ∧
      operation.IsCall ∧ m.next? c = some r ∧
      ((n, link) ∈ m.calleeLinks c r ∨ n = c ∧ link = .callToReturn r) := by
  rw [hm.mem_links_iff]
  constructor
  · rintro ⟨c, inst, p, -, -, hx⟩
    obtain ⟨operation, hop, ⟨-, hx⟩ | ⟨-, r, hnext, hx⟩⟩ := mem_instLinks_iff.mp hx
    · obtain ⟨-, -, first, -, heq⟩ := mem_terminatorLinks_iff.mp hx
      exact absurd (Prod.mk.inj heq).2 (hlink first)
    · obtain ⟨hcall, hx⟩ | ⟨-, heq⟩ := mem_stepLinks_iff.mp hx
      · exact ⟨c, r, operation, hop, hcall, hnext, hx.imp_right Prod.mk.inj⟩
      · exact absurd (Prod.mk.inj heq).2 (hlink r)
  · rintro ⟨c, r, operation, hop, hcall, hnext, hx⟩
    obtain ⟨inst, hinst, rfl⟩ := operation?_eq_some.mp hop
    obtain ⟨b, hat⟩ := Option.isSome_iff_exists.mp (hm.block_isSome c inst hinst)
    obtain ⟨p, hp, -⟩ := blockAt?_eq_some.mp hat
    refine ⟨c, inst, p, hinst, hp, mem_instLinks_iff.mpr
      ⟨_, hop, .inr ⟨hcall.not_isTerminator, r, hnext, ?_⟩⟩⟩
    exact mem_stepLinks_iff.mpr (.inl ⟨hcall, hx.imp_right fun h => by rw [h.1, h.2]⟩)

/-- A call is linked past the call to what follows it. -/
theorem WellFormed.callToReturn_mem_links_iff (hm : m.WellFormed) {c r : Nat} :
    (c, .callToReturn r) ∈ m.supergraph.links ↔
      (∃ operation, m.operation? c = some operation ∧ operation.IsCall) ∧ m.next? c = some r := by
  rw [hm.mem_links_iff_of_ne_normal (by simp)]
  simp only [mem_calleeLinks_iff, Prod.mk.injEq, reduceCtorEq, and_false, exists_false, or_self,
    false_or, Link.callToReturn.injEq]
  constructor
  · rintro ⟨c', r', operation, hop, hcall, hnext, rfl, rfl⟩
    exact ⟨⟨operation, hop, hcall⟩, hnext⟩
  · rintro ⟨⟨operation, hop, hcall⟩, hnext⟩
    exact ⟨c, r, operation, hop, hcall, hnext, rfl, rfl⟩

/-- A call of a procedure with a body that something follows is linked to the entry. -/
theorem WellFormed.call_mem_links_iff (hm : m.WellFormed) {c entry : Nat} :
    (c, .call entry) ∈ m.supergraph.links ↔
      (∃ callee, m.callTarget? c = some callee ∧ callee.entry? = some entry) ∧
      ∃ r, m.next? c = some r := by
  rw [hm.mem_links_iff_of_ne_normal (by simp)]
  simp only [mem_calleeLinks_iff, Prod.mk.injEq, reduceCtorEq, and_false, exists_false, or_false,
    Link.call.injEq]
  constructor
  · rintro ⟨c', r, operation, -, -, hnext, callee, entry', hcallee, hentry, rfl, rfl⟩
    exact ⟨⟨callee, hcallee, hentry⟩, r, hnext⟩
  · rintro ⟨⟨callee, hcallee, hentry⟩, r, hnext⟩
    obtain ⟨operation, hop, hcall⟩ := isCall_of_callTarget? hcallee
    exact ⟨c, r, operation, hop, hcall, hnext, callee, entry, hcallee, hentry, rfl, rfl⟩

/-- The exits of a called procedure are linked back to what follows the call. -/
theorem WellFormed.ret_mem_links_iff (hm : m.WellFormed) {x r c : Nat} :
    (x, .ret r c) ∈ m.supergraph.links ↔
      (∃ callee entry, m.callTarget? c = some callee ∧ callee.entry? = some entry ∧
        x ∈ m.exits callee.id) ∧ m.next? c = some r := by
  rw [hm.mem_links_iff_of_ne_normal (by simp)]
  simp only [mem_calleeLinks_iff, Prod.mk.injEq, reduceCtorEq, and_false, false_or, or_false,
    Link.ret.injEq]
  constructor
  · rintro ⟨c', r', operation, -, -, hnext, callee, entry, hcallee, hentry, exit, hexit,
      rfl, rfl, rfl⟩
    exact ⟨⟨callee, entry, hcallee, hentry, hexit⟩, hnext⟩
  · rintro ⟨⟨callee, entry, hcallee, hentry, hexit⟩, hnext⟩
    obtain ⟨operation, hop, hcall⟩ := isCall_of_callTarget? hcallee
    exact ⟨c, r, operation, hop, hcall, hnext, callee, entry, hcallee, hentry, x, hexit,
      rfl, rfl, rfl⟩

/-! ## Procedures, entries and exits -/

/-- What follows an instruction is in the same block. -/
theorem WellFormed.exists_inst_of_next? (hm : m.WellFormed) {n t : Nat} {inst : Instruction}
    (hinst : m.inst? n = some inst) (hnext : m.next? n = some t) :
    ∃ inst', m.inst? t = some inst' ∧ inst'.proc = inst.proc ∧ inst'.block = inst.block := by
  obtain ⟨b, hat⟩ := Option.isSome_iff_exists.mp (hm.block_isSome n inst hinst)
  have hmem := (hm.mem_insts_iff _ _ _ hat n).mpr ⟨inst, hinst, rfl, rfl⟩
  obtain ⟨before, after, hsplit⟩ := List.append_of_mem hmem
  rw [hm.next?_eq_head? hat hsplit] at hnext
  refine (hm.mem_insts_iff _ _ _ hat t).mp ?_
  simp [hsplit, List.mem_of_mem_head? hnext]

/-- The first instruction of a block is in the block. -/
theorem WellFormed.exists_inst_of_first? (hm : m.WellFormed) {proc block t : Nat}
    (hfirst : (m.blockAt? proc block).bind Block.first? = some t) :
    ∃ inst, m.inst? t = some inst ∧ inst.proc = proc ∧ inst.block = block := by
  obtain ⟨b, hat, hfirst⟩ := Option.bind_eq_some_iff.mp hfirst
  exact (hm.mem_insts_iff _ _ _ hat t).mp (List.mem_of_mem_head? hfirst)

/-- An instruction that a procedure starts with is in it, and the procedure has a body. -/
theorem WellFormed.exists_inst_of_entry? (hm : m.WellFormed) {i entry : Nat} {p : Procedure}
    (hp : m.procedure? i = some p) (hentry : p.entry? = some entry) :
    (∃ inst, m.inst? entry = some inst ∧ inst.proc = i) ∧ p.isDeclaration = false := by
  have hfirst : (m.blockAt? i 0).bind Block.first? = some entry := by
    simpa [blockAt?, hp, Procedure.entry?] using hentry
  obtain ⟨inst, hinst, hproc, -⟩ := hm.exists_inst_of_first? hfirst
  refine ⟨⟨inst, hinst, hproc⟩, ?_⟩
  obtain ⟨b, hb, -⟩ := Option.bind_eq_some_iff.mp hentry
  have hsize := (Array.getElem?_eq_some_iff.mp hb).1
  simpa [Procedure.isDeclaration] using Array.ne_empty_of_size_pos hsize

/-- The procedure of the instruction at a position. -/
def procOf? (m : Program) (n : Nat) : Option Nat := (m.inst? n).map (·.proc)

/-- Links inside a procedure stay there. -/
theorem WellFormed.procOf?_of_normal (hm : m.WellFormed) {n t : Nat}
    (h : (n, .normal t) ∈ m.supergraph.links) : m.procOf? t = m.procOf? n := by
  obtain ⟨inst, hinst, ⟨-, block, -, hfirst⟩ | ⟨-, -, hnext⟩⟩ := hm.normal_mem_links_iff.mp h
  · obtain ⟨inst', hinst', hproc, -⟩ := hm.exists_inst_of_first? hfirst
    simp [procOf?, hinst, hinst', hproc]
  · obtain ⟨inst', hinst', hproc, -⟩ := hm.exists_inst_of_next? hinst hnext
    simp [procOf?, hinst, hinst', hproc]

/-- What follows an instruction is in the same procedure. -/
theorem WellFormed.procOf?_of_next? (hm : m.WellFormed) {c r : Nat} (h : m.next? c = some r) :
    m.procOf? r = m.procOf? c := by
  cases hinst : m.inst? c with
  | none => simp [next?, blockOf?_eq, hinst] at h
  | some inst =>
    obtain ⟨inst', hinst', hproc, -⟩ := hm.exists_inst_of_next? hinst h
    simp [procOf?, hinst, hinst', hproc]

/-- A call and its return site are in one procedure. -/
theorem WellFormed.procOf?_of_callToReturn (hm : m.WellFormed) {c r : Nat}
    (h : (c, .callToReturn r) ∈ m.supergraph.links) : m.procOf? r = m.procOf? c :=
  hm.procOf?_of_next? (hm.callToReturn_mem_links_iff.mp h).2

/-- A return leads back into the procedure of the call. -/
theorem WellFormed.procOf?_of_ret (hm : m.WellFormed) {x r c : Nat}
    (h : (x, .ret r c) ∈ m.supergraph.links) : m.procOf? r = m.procOf? c :=
  hm.procOf?_of_next? (hm.ret_mem_links_iff.mp h).2

/-- A call leads into the called procedure. -/
theorem WellFormed.procOf?_of_call (hm : m.WellFormed) {c entry : Nat} {callee : Procedure}
    (h : (c, .call entry) ∈ m.supergraph.links) (hcallee : m.callTarget? c = some callee) :
    m.procOf? entry = some callee.id := by
  obtain ⟨⟨callee', hcallee', hentry⟩, -⟩ := hm.call_mem_links_iff.mp h
  obtain rfl := Option.some.inj (hcallee.symm.trans hcallee')
  obtain ⟨hp, -⟩ := hm.procedure?_of_callTarget? hcallee
  obtain ⟨⟨inst, hinst, hproc⟩, -⟩ := hm.exists_inst_of_entry? hp hentry
  simp [procOf?, hinst, hproc]

/-- Nodes are listed with the entries of their procedures. -/
theorem WellFormed.mem_owners_iff (hm : m.WellFormed) {n entry : Nat} :
    (n, entry) ∈ m.supergraph.owners ↔ ∃ inst p, m.inst? n = some inst ∧
      m.procedure? inst.proc = some p ∧ p.entry? = some entry := by
  simp only [supergraph, defined, List.mem_flatMap, List.mem_filter, Array.mem_toList_iff]
  constructor
  · rintro ⟨p, ⟨hp, -⟩, hn⟩
    obtain ⟨i, hi⟩ := Array.mem_iff_getElem?.mp hp
    unfold ownersOf at hn
    split at hn
    · simp at hn
    · next entry' hentry =>
      simp only [List.mem_map, List.mem_append, List.mem_singleton, Prod.mk.injEq] at hn
      obtain ⟨n', hn', rfl, rfl⟩ := hn
      obtain ⟨inst, hinst, rfl⟩ : ∃ inst, m.inst? n' = some inst ∧ inst.proc = i := by
        obtain hn' | rfl := hn'
        · exact (hm.mem_procedure_insts_iff hi).mp hn'
        · exact (hm.exists_inst_of_entry? hi hentry).1
      exact ⟨inst, p, hinst, hi, hentry⟩
  · rintro ⟨inst, p, hinst, hp, hentry⟩
    refine ⟨p, ⟨Array.mem_of_getElem? hp, ?_⟩, ?_⟩
    · simp [(hm.exists_inst_of_entry? hp hentry).2]
    · simp [ownersOf, hentry, (hm.mem_procedure_insts_iff hp).mpr ⟨inst, hinst, rfl⟩]

/-- The entry of a node's procedure. -/
theorem WellFormed.entryOf?_supergraph (hm : m.WellFormed) {n entry : Nat} :
    m.supergraph.entryOf? n = some entry ↔ ∃ inst p, m.inst? n = some inst ∧
      m.procedure? inst.proc = some p ∧ p.entry? = some entry := by
  rw [Supergraph.entryOf?_eq_some_iff, hm.mem_owners_iff]
  intro e e' he he'
  obtain ⟨inst, p, hinst, hp, hentry⟩ := hm.mem_owners_iff.mp he
  obtain ⟨inst', p', hinst', hp', hentry'⟩ := hm.mem_owners_iff.mp he'
  obtain rfl := Option.some.inj (hinst.symm.trans hinst')
  obtain rfl := Option.some.inj (hp.symm.trans hp')
  exact Option.some.inj (hentry.symm.trans hentry')

/-- Nodes of one procedure have the same entry. -/
theorem WellFormed.entryOf?_eq_of_procOf?_eq (hm : m.WellFormed) {n n' : Nat}
    (hproc : m.procOf? n' = m.procOf? n) :
    m.supergraph.entryOf? n' = m.supergraph.entryOf? n := by
  ext entry
  cases hinst : m.inst? n <;> cases hinst' : m.inst? n' <;>
    simp_all [procOf?, hm.entryOf?_supergraph]

/-- The exits of a procedure are its instructions that return. -/
theorem WellFormed.mem_exits_iff (hm : m.WellFormed) {i x : Nat} :
    x ∈ m.exits i ↔
      ∃ inst, m.inst? x = some inst ∧ inst.proc = i ∧ inst.operation.isReturn = true := by
  unfold exits
  cases hp : m.procedure? i with
  | none =>
    simp only [List.not_mem_nil, false_iff]
    rintro ⟨inst, hinst, rfl, -⟩
    simpa [blockAt?, hp] using hm.block_isSome x inst hinst
  | some p =>
    simp only [List.mem_filter, hm.mem_procedure_insts_iff hp, operation?]
    constructor
    · rintro ⟨⟨inst, hinst, hproc⟩, hret⟩
      exact ⟨inst, hinst, hproc, by simpa [hinst] using hret⟩
    · rintro ⟨inst, hinst, hproc, hret⟩
      exact ⟨⟨inst, hinst, hproc⟩, by simpa [hinst] using hret⟩

/-- Exits are the returns of procedures that start with an instruction. -/
theorem WellFormed.isExit_supergraph (hm : m.WellFormed) {x : Nat} :
    m.supergraph.isExit x = true ↔ ∃ inst p entry, m.inst? x = some inst ∧
      inst.operation.isReturn = true ∧ m.procedure? inst.proc = some p ∧ p.entry? = some entry := by
  rw [Supergraph.isExit, decide_eq_true_iff]
  simp only [supergraph, defined, List.mem_flatMap, List.mem_filter, Array.mem_toList_iff,
    Option.isSome_iff_exists, hm.mem_exits_iff]
  constructor
  · rintro ⟨p, ⟨⟨hp, -⟩, entry, hentry⟩, inst, hinst, hproc, hret⟩
    obtain ⟨i, hi⟩ := Array.mem_iff_getElem?.mp hp
    rw [hm.procedure_id i p hi] at hproc
    exact ⟨inst, p, entry, hinst, hret, by rwa [hproc], hentry⟩
  · rintro ⟨inst, p, entry, hinst, hret, hp, hentry⟩
    refine ⟨p, ⟨⟨Array.mem_of_getElem? hp, ?_⟩, entry, hentry⟩, inst, hinst, ?_, hret⟩
    · simp [(hm.exists_inst_of_entry? hp hentry).2]
    · exact (hm.procedure_id _ p hp).symm

/-- The supergraph of a well-formed program is well shaped. -/
theorem WellFormed.wellShaped_supergraph (hm : m.WellFormed) : m.supergraph.WellShaped where
  normal_entryOf n t h := hm.entryOf?_eq_of_procOf?_eq (hm.procOf?_of_normal h)
  callToReturn_entryOf c r h := hm.entryOf?_eq_of_procOf?_eq (hm.procOf?_of_callToReturn h)
  call_entryOf c entry h := by
    obtain ⟨⟨callee, hcallee, hentry⟩, -⟩ := hm.call_mem_links_iff.mp h
    obtain ⟨hp, -⟩ := hm.procedure?_of_callTarget? hcallee
    obtain ⟨⟨inst, hinst, hproc⟩, -⟩ := hm.exists_inst_of_entry? hp hentry
    exact hm.entryOf?_supergraph.mpr ⟨inst, callee, hinst, by rwa [hproc], hentry⟩
  ret_iff x r c := by
    have hsite : m.supergraph.returnSite? c = some r ↔
        (c, .callToReturn r) ∈ m.supergraph.links := by
      refine Supergraph.returnSite?_eq_some_iff fun r₁ r₂ h₁ h₂ => ?_
      have hnext₁ := (hm.callToReturn_mem_links_iff.mp h₁).2
      have hnext₂ := (hm.callToReturn_mem_links_iff.mp h₂).2
      exact Option.some.inj (hnext₁.symm.trans hnext₂)
    rw [hm.ret_mem_links_iff, hsite, hm.callToReturn_mem_links_iff]
    constructor
    · rintro ⟨⟨callee, entry, hcallee, hentry, hexit⟩, hnext⟩
      obtain ⟨hp, -⟩ := hm.procedure?_of_callTarget? hcallee
      obtain ⟨inst, hinst, hproc, hret⟩ := hm.mem_exits_iff.mp hexit
      rw [← hproc] at hp
      exact ⟨hm.isExit_supergraph.mpr ⟨inst, callee, entry, hinst, hret, hp, hentry⟩, entry,
        hm.entryOf?_supergraph.mpr ⟨inst, callee, hinst, hp, hentry⟩,
        hm.call_mem_links_iff.mpr ⟨⟨callee, hcallee, hentry⟩, r, hnext⟩,
        isCall_of_callTarget? hcallee, hnext⟩
    · rintro ⟨hexit, entry, howner, hcall, -, hnext⟩
      obtain ⟨inst, p, -, hinst, hret, hp, -⟩ := hm.isExit_supergraph.mp hexit
      obtain ⟨inst', p', hinst', hp', hentry⟩ := hm.entryOf?_supergraph.mp howner
      obtain rfl := Option.some.inj (hinst.symm.trans hinst')
      obtain rfl := Option.some.inj (hp.symm.trans hp')
      obtain ⟨⟨callee, hcallee, hentry'⟩, -⟩ := hm.call_mem_links_iff.mp hcall
      obtain ⟨hcalleeProc, -⟩ := hm.procedure?_of_callTarget? hcallee
      -- The entry is in the procedure of the exit as well as in the called one.
      obtain ⟨⟨i₁, hi₁, hproc₁⟩, -⟩ := hm.exists_inst_of_entry? hp hentry
      obtain ⟨⟨i₂, hi₂, hproc₂⟩, -⟩ := hm.exists_inst_of_entry? hcalleeProc hentry'
      obtain rfl := Option.some.inj (hi₁.symm.trans hi₂)
      exact ⟨⟨callee, entry, hcallee, hentry', hm.mem_exits_iff.mpr
        ⟨inst, hinst, hproc₁.symm.trans hproc₂, hret⟩⟩, hnext⟩

end Program

end TaintTrail
